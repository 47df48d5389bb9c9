/-
The tables of users and groups, and the changes that are made to them once they are allowed. Root
always exists, and so do the three system groups.
-/
import SimUnix.Account.Basic
import SimUnix.Keyed

namespace SimUnix

/-- The tables of users and groups by name. -/
structure Accounts where
  users : Keyed Json User := []
  groups : Keyed Json Group := []
  deriving Repr, DecidableEq

namespace Accounts

/-- The system groups and their numbers. -/
def systemGroups : List (String × Int) := [(rootName, 0), (adminGroup, 27), (usersGroup, 100)]

/-- Whether a group is one of the system's. -/
def isSystemGroup (name : String) : Bool := systemGroups.any (·.1 == name)

/-- The first number for ordinary users. -/
def firstUid : Nat := 1000

/-- Lists with every user the groups that list the user. -/
def reindexed (a : Accounts) : Accounts :=
  { a with users := a.users.mapValues fun u =>
      { u with groups := (a.groups.values.filter (·.members.contains u.name)).map (·.name) } }

/-- The tables with root and the system groups only. -/
def initial : Accounts :=
  reindexed {
    users := [
      (.str rootName,
        { name := rootName, uid := .int 0, gid := .int 0, fullName := "System Administrator" })]
    groups := systemGroups.map fun g =>
      (.str g.1,
        { name := g.1, gid := .int g.2, members := if g.1 = rootName then [.str g.1] else [] }) }

/-! ## Queries -/

/-- The user of a name. -/
def user? (a : Accounts) (name : Json) : Option User := a.users.get? name

/-- The group of a name. -/
def group? (a : Accounts) (name : Json) : Option Group := a.groups.get? name

/-- All users in the order of their numbers. -/
def sortedUsers (a : Accounts) : Except Fault (List User) := User.sorted a.users.values

/-- All groups in the order of their numbers. -/
def sortedGroups (a : Accounts) : Except Fault (List Group) := Group.sorted a.groups.values

/-- The name of the group with a number, or the number itself. -/
def groupName (a : Accounts) (gid : Json) : Json :=
  match a.groups.values.find? fun g => g.gid.sameKey gid with
  | some g => g.name
  | none => gid.plain

/-- The user of a name, where the name may be anything that a record held: it must be a key. -/
def find (a : Accounts) (name : Json) : Except Fault (Option User) :=
  if name.isKey then .ok (a.user? name) else .error .wrongShape

/-- The user of a name; an unknown name belongs to a user without groups. -/
def principal (a : Accounts) (name : Json) : User :=
  (a.user? name).getD { name, uid := .int (-1), gid := .int (-1) }

/-- The user of a name as one who asks for an access. -/
def subject (a : Accounts) (name : Json) : Except Fault Permission.Subject := do
  .ok { name, groups := ((← a.find name).map User.groups).getD [] }

/-- Whether a name is that of a user who administers the system. -/
def isAdmin (a : Accounts) (name : Json) : Bool := (a.user? name).any User.isAdmin

/-- Whether a password is that of a user. -/
def verify (a : Accounts) (name password : String) : Bool := (a.user? name).any (·.accepts password)

/-- The text of the file of users. -/
def usersText (a : Accounts) : Except Fault String := User.fileText a.users.values

/-- The text of the file of groups. -/
def groupsText (a : Accounts) : Except Fault String := Group.fileText a.groups.values

/-- The numbers in use by users or groups. -/
def takenNumbers (a : Accounts) : List Json :=
  a.users.values.map (·.uid) ++ a.groups.values.map (·.gid)

/-- The first number from `n` on that is not taken, among `count` of them. -/
def firstFree (taken : List Json) : Nat → Nat → Nat
  | 0, n => n
  | count + 1, n => if taken.any (·.isNumber n) then firstFree taken count (n + 1) else n

/-- The least number for ordinary users that is free. One more candidate than there are taken
numbers is enough. What is taken must be a key. -/
def nextUid (a : Accounts) : Except Fault Int :=
  if a.takenNumbers.all Json.isKey then
    .ok (firstFree a.takenNumbers (a.takenNumbers.length + 1) firstUid)
  else .error .wrongShape

/-! ## Changes -/

/-- Changes a group that must be there. -/
def updateGroup (a : Accounts) (name : Json) (f : Group → Group) : Except Fault Accounts :=
  if a.groups.has name then .ok { a with groups := a.groups.update name f }
  else .error (.missing name.shown)

/-- Adds a user with a group of its own and makes it a member of the users. -/
def insertUser (a : Accounts) (u : User) : Except Fault Accounts :=
  updateGroup {
    users := a.users.put u.name u
    groups := a.groups.put u.name { name := u.name, gid := u.gid, members := [u.name] } }
    usersGroup (·.insert u.name)

/-- Removes a user from the table and from every group, and the user's own group if nobody is left
in it. -/
def eraseUser (a : Accounts) (u : User) : Accounts :=
  let groups := a.groups.mapValues (·.erase u.name)
  let groups := match groups.get? u.name with
    | some own =>
      if own.gid.sameKey u.gid && own.members.isEmpty then groups.drop u.name else groups
    | none => groups
  { users := a.users.drop u.name, groups }

/-! ## Stored forms -/

/-- The stored form of the users. -/
def usersJson (a : Accounts) : Except Fault Json := do
  .ok (.arr ((← a.sortedUsers).map User.toJson))

/-- The stored form of the groups. -/
def groupsJson (a : Accounts) : Except Fault Json := do
  .ok (.arr (← (← a.sortedGroups).mapM Group.toJson))

/-- A table with one more entry under a name. -/
def withEntry {α : Type} (table : Keyed Json α) (name : Json) (entry : α) :
    Except Fault (Keyed Json α) :=
  if name.isKey then .ok (table.put name entry) else .error .wrongShape

/-- The table of stored users. -/
def readUsers (record : Json) : Except Fault (Keyed Json User) := do
  (← record.items).foldlM (fun table item => do
    let u ← User.ofJson item
    withEntry table u.name u) []

/-- The table of stored groups. -/
def readGroups (record : Json) : Except Fault (Keyed Json Group) := do
  (← record.items).foldlM (fun table item => do
    let g ← Group.ofJson item
    withEntry table g.name g) []

/-- Supplies what every table must have: root, and the system groups. -/
def completed (a : Accounts) : Accounts :=
  let users :=
    if a.users.has rootName then a.users
    else a.users.put rootName { name := rootName, uid := .int 0, gid := .int 0 }
  let groups := systemGroups.foldl
    (fun t g => if t.has g.1 then t else t.put g.1 { name := g.1, gid := .int g.2 }) a.groups
  reindexed { users, groups }

end Accounts

end SimUnix
