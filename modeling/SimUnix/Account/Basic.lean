/-
Users and groups, and their lines in the flat files. A number, a name and everything else is what it
has to be wherever a user or a group is made here; what is restored from a record is kept as it is,
and fails where it does not fit.
-/
import SimUnix.Digest.Sha256
import SimUnix.Json.Order
import SimUnix.Permission.Basic

namespace SimUnix

/-- The group whose members administer the system. -/
def adminGroup : String := "admin"

/-- The group of all ordinary users. -/
def usersGroup : String := "users"

/-- The shell that a user gets unless a record names another. -/
def defaultShell : String := "/bin/zsh"

/-- The digest under which a password is kept; no password stays empty. -/
def passwordDigest (password : String) : String :=
  if password = "" then "" else Sha256.ofText password

/-- The home directory of a user by name. -/
def homeFor (user : String) : String := if user = rootName then "/root" else "/home/" ++ user

/-! ## Users -/

/-- A user. -/
structure User where
  name : Json
  uid : Json
  gid : Json
  fullName : Json := ""
  passwordDigest : Json := ""
  passwordHint : Json := ""
  home : Json := homeFor name.plain
  shell : Json := defaultShell
  /-- The names of the groups that list the user. -/
  groups : List Json := []
  deriving Repr, DecidableEq

namespace User

/-- Whether the user is the superuser. -/
def isRoot (u : User) : Bool := u.name == rootName

/-- Whether the user administers the system: root, or a member of one of the groups that do. -/
def isAdmin (u : User) : Bool :=
  u.isRoot || u.groups.contains adminGroup || u.groups.contains rootName

/-- Whether a password is the user's; without one of its own any password passes. -/
def accepts (u : User) (password : String) : Bool :=
  !u.passwordDigest.truthy || u.passwordDigest == SimUnix.passwordDigest password

/-- The names of the groups in order. -/
def sortedGroups (u : User) : Except Fault (List Json) := Json.sortedBy id u.groups

/-- The stored form of a user. Groups are stored with the groups. -/
def toJson (u : User) : Json :=
  .obj [("username", u.name), ("uid", u.uid), ("gid", u.gid), ("full_name", u.fullName),
    ("password_hash", u.passwordDigest), ("password_hint", u.passwordHint), ("home", u.home),
    ("shell", u.shell)]

/-- The user of a stored form. Name and numbers must be there; an empty home means the usual
one. -/
def ofJson (record : Json) : Except Fault User := do
  let name ← record.require "username"
  let uid ← record.require "uid"
  let gid ← record.require "gid"
  let fullName ← record.fieldOr "full_name" ""
  let passwordDigest ← record.fieldOr "password_hash" ""
  let passwordHint ← record.fieldOr "password_hint" ""
  let home ← record.fieldOr "home" ""
  let shell ← record.fieldOr "shell" defaultShell
  .ok { name, uid, gid, fullName, passwordDigest, passwordHint
        home := if home.truthy then home else homeFor name.plain, shell }

/-- The line of the user in the file of users. -/
def fileLine (u : User) : String :=
  Text.joinWith ":"
    [u.name.plain, "x", u.uid.plain, u.gid.plain, u.fullName.plain, u.home.plain, u.shell.plain]

/-- Users in the order of their numbers. -/
def sorted (users : List User) : Except Fault (List User) := Json.sortedBy (·.uid) users

/-- The text of the file of users, one line a user in the order of their numbers. -/
def fileText (users : List User) : Except Fault String := do
  .ok (Text.joinLines ((← sorted users).map fileLine))

end User

/-! ## Groups -/

/-- A group: a name, a number, and the members, each listed once. -/
structure Group where
  name : Json
  gid : Json
  members : List Json := []
  deriving Repr, DecidableEq

namespace Group

/-- The group with one more member. -/
def insert (g : Group) (user : Json) : Group :=
  if g.members.contains user then g else { g with members := g.members ++ [user] }

/-- The group without a member. -/
def erase (g : Group) (user : Json) : Group :=
  { g with members := g.members.filter (· != user) }

/-- The members in order. -/
def sortedMembers (g : Group) : Except Fault (List Json) := Json.sortedBy id g.members

/-- The stored form of a group. -/
def toJson (g : Group) : Except Fault Json := do
  .ok (.obj [("name", g.name), ("gid", g.gid), ("members", .arr (← g.sortedMembers))])

/-- The group of a stored form. Name and number must be there. -/
def ofJson (record : Json) : Except Fault Group := do
  let name ← record.require "name"
  let gid ← record.require "gid"
  let members ← (← record.fieldOr "members" (.arr [])).distinctKeys
  .ok { name, gid, members }

/-- The line of the group in the file of groups. The members must be texts. -/
def fileLine (g : Group) : Except Fault String := do
  let members ← (← g.sortedMembers).mapM Json.asText
  .ok (Text.joinWith ":" [g.name.plain, "x", g.gid.plain, Text.joinWith "," members])

/-- Groups in the order of their numbers. -/
def sorted (groups : List Group) : Except Fault (List Group) := Json.sortedBy (·.gid) groups

/-- The text of the file of groups, one line a group in the order of their numbers. -/
def fileText (groups : List Group) : Except Fault String := do
  .ok (Text.joinLines (← (← sorted groups).mapM fileLine))

end Group

end SimUnix
