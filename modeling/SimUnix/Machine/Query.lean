/-
Questions about files, asked by a user: names of actors, paths, permissions, and what can be read.
-/
import SimUnix.Machine.State

namespace SimUnix

/-- The user of a session that nobody has logged into. -/
def guestName : String := "guest"

/-- The directory of a home that collects what has been removed. -/
def trashName : String := ".Trash"

/-- The first of two names that is given and not empty. -/
def firstName? (a b : Option Json) : Option Json := (a.filter Json.truthy).or (b.filter Json.truthy)

namespace Machine

/-- The user for whom an operation is performed: the one named, else the one logged in, else a
guest. -/
def actor (s : Machine) (asUser? : Option Json) : Json :=
  (firstName? asUser? (some s.currentUser)).getD guestName

/-- Whether the actor may access a node. -/
def can (s : Machine) (n : Node) (access : Access) (asUser? : Option Json) :
    Except Fault Bool := do
  let subject ← s.accounts.subject (s.actor asUser?)
  Permission.allows n.permissions n.owner n.group subject access s.safeMode

/-- The name of a user's own group. -/
def primaryGroup (s : Machine) (user : Json) : Json :=
  match s.accounts.user? user with
  | some u => s.accounts.groupName u.gid
  | none => usersGroup

/-- The home directory of the actor. A guest is at home in the root. -/
def homePath (s : Machine) (asUser? : Option Json) : Except Fault Json := do
  let name := s.actor asUser?
  match ← s.accounts.find name with
  | some u => .ok u.home
  | none => .ok (.str (if name = guestName then Path.root else homeFor name.plain))

/-- The trash of the actor. -/
def trashPath (s : Machine) (asUser? : Option Json) : Except Fault String := do
  .ok (Path.join (← (← s.homePath asUser?).asOwnText) trashName)

/-- The canonical form of a path: a tilde stands for the actor's home, which must then be a text,
and a relative path is taken from the working directory. -/
def resolve (s : Machine) (path : String) (asUser? : Option Json) (cwd? : Option String) :
    Except Fault String := do
  if path = "~" ∨ Text.startsWith path "~/" then
    .ok (Path.normalize ((← (← s.homePath asUser?).asText) ++ Text.dropFirst 1 path))
  else if Text.startsWith path "/" then .ok (Path.normalize path)
  else .ok (Path.normalize ((cwd?.filter (· != "")).getD Path.root ++ "/" ++ path))

/-- The node at a path. -/
def nodeAt (s : Machine) (path : String) (asUser? : Option Json) :
    Except Fault (Option Node) := do
  s.tree.lookup (← s.resolve path asUser? none)

/-- Whether a path names a node. -/
def pathExists (s : Machine) (path : String) (asUser? : Option Json) : Except Fault Bool :=
  (s.nodeAt path asUser?).map Option.isSome

/-- The children of a directory, if it is there and readable. -/
def listDirectory (s : Machine) (path : String) (asUser? : Option Json) :
    Except Fault (Option (List Node)) := do
  match ← s.nodeAt path asUser? with
  | none => .ok none
  | some n =>
    if !n.isDir then .ok none
    else if ← s.can n .read asUser? then (s.tree.childrenOf n).map some
    else .ok none

/-- The content of a file, if it is there and readable. -/
def fileContent (s : Machine) (path : String) (asUser? : Option Json) :
    Except Fault (Option Json) := do
  match ← s.nodeAt path asUser? with
  | none => .ok none
  | some n =>
    if n.isDir then .ok none
    else if ← s.can n .read asUser? then .ok (some n.content)
    else .ok none

/-- Why an access would fail. -/
inductive Obstacle where
  | notFound
  | permissionDenied
  deriving Repr, DecidableEq

/-- What stands against an access to a path. -/
def obstacle? (s : Machine) (path : String) (asUser? : Option Json) (access : Access) :
    Except Fault (Option Obstacle) := do
  match ← s.nodeAt path asUser? with
  | none => .ok (some .notFound)
  | some n => .ok (if ← s.can n access asUser? then none else some .permissionDenied)

/-- The name of the host: the text of its file, or the default where that is missing or blank. -/
def hostname (s : Machine) : Except Fault String := do
  match ← s.tree.lookup "/etc/hostname" with
  | none => .ok s.defaultHostname
  | some n =>
    if n.isDir then .ok s.defaultHostname
    else
      let name := Text.trim (← n.content.asOwnText)
      .ok (if name == "" then s.defaultHostname else name)

end Machine

end SimUnix
