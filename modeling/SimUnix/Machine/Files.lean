/-
Creating, writing, removing and re-moding files, each checked first and then done. A `Verdict` is
the outcome of the check; a refusal changes nothing, and a denial changes nothing but the log.
-/
import SimUnix.Permission.Mode
import SimUnix.Machine.Query

namespace SimUnix

/-- The outcome of the check before a change. -/
inductive Verdict (α : Type) where
  /-- The request makes no sense. -/
  | refused
  /-- The actor may not do it: what is denied, and to whom. -/
  | denied (what : String) (user? : Option Json)
  /-- Everything is already as it should be. -/
  | unchanged
  /-- The change may be made. -/
  | granted (change : α)
  deriving Repr, DecidableEq

namespace Act

/-- Logs a change and writes all records. -/
def changed (message : String) (asUser? : Option Json) : Act Unit := do
  log .info "fs" message ((← get).actor asUser?)
  flush

/-- Logs a denial. -/
def denied (what : String) (asUser? : Option Json) : Act Unit := do
  log .warning "fs" ("permission denied: " ++ what) ((← get).actor asUser?)

/-- Checks, and on success makes the change, whose result is the message to log. -/
def decide {α : Type} (check : Machine → Except Fault (Verdict α)) (asUser? : Option Json)
    (change : α → Act String) : Act Bool := do
  match ← ask check with
  | .refused => pure false
  | .denied what user? => denied what user?; pure false
  | .unchanged => pure true
  | .granted plan =>
    changed (← change plan) asUser?
    pure true

end Act

namespace Machine

/-- The path of the node with an id, as it is now. -/
def pathOfId (id : NodeId) : Act String := do
  let t := (← get).tree
  match t.get? id with
  | some n => Act.ofExcept (t.pathOf n)
  | none => pure Path.root

/-! ## Creation -/

/-- What distinguishes a new node: its name, kind, content, owner, group and permissions. -/
structure NewNode where
  name : Json
  kind : NodeKind
  content : Json := ""
  owner : Json := rootName
  group : Json := rootName
  permissions : Json := filePermissions

/-- A new node under the next id, unlinked. -/
def NewNode.build (new : NewNode) (s : Machine) : Node :=
  { id := s.tree.ids.id, name := new.name, kind := new.kind, owner := new.owner, group := new.group
    permissions := new.permissions, content := new.content, created := s.now, modified := s.now }

/-- Adds a new node as the last child of a directory. -/
def addNew (new : NewNode) (parent : NodeId) : Act NodeId := do
  let s ← get
  let n := new.build s
  Act.editTree fun t => t.takeId.2.add n parent s.now
  pure n.id

/-- The default permissions of a kind of node. -/
def defaultPermissions : NodeKind → String
  | .file => filePermissions
  | .directory => directoryPermissions

/-- Whether a node may be created, and if so under which directory. -/
def createVerdict (parentPath name : String) (asUser? : Option Json) (s : Machine) :
    Except Fault (Verdict Node) := do
  match ← s.nodeAt parentPath asUser? with
  | none => .ok .refused
  | some parent =>
    if !parent.isDir || !Path.validName name then .ok .refused
    else if (← s.tree.childNamed parent name).isSome then .ok .refused
    else if !(← s.can parent .write asUser?) then
      .ok (.denied ("create " ++ Path.join (← s.tree.pathOf parent) name) asUser?)
    else .ok (.granted parent)

/-- Creates a node for the actor. -/
def createNode (parentPath name : String) (kind : NodeKind) (content : Json)
    (asUser? permissions? : Option Json) : Act Bool :=
  Act.decide (createVerdict parentPath name asUser?) asUser? fun parent => do
    let s ← get
    let owner := s.actor asUser?
    let id ← addNew {
      name, kind, content, owner, group := s.primaryGroup owner
      permissions := (permissions?.filter Json.truthy).getD (defaultPermissions kind) } parent.id
    pure ("created " ++ (← pathOfId id))

/-- Creates a file. -/
def createFile (parentPath name : String) (content : Json) (asUser? permissions? : Option Json) :
    Act Bool :=
  createNode parentPath name .file content asUser? permissions?

/-- Creates a directory. -/
def createDirectory (parentPath name : String) (asUser? : Option Json) : Act Bool :=
  createNode parentPath name .directory "" asUser? none

/-- The path to use for a parent: the root where a split leaves none. -/
def parentOrRoot (parent : String) : String := if parent = "" then Path.root else parent

/-! ## Content -/

/-- Whether a file may be overwritten. -/
def writeVerdict (n : Node) (resolved : String) (asUser? : Option Json) (s : Machine) :
    Except Fault (Verdict NodeId) := do
  if n.isDir then .ok .refused
  else if !(← s.can n .write asUser?) then .ok (.denied ("write " ++ resolved) asUser?)
  else .ok (.granted n.id)

/-- Replaces the content of a file, or creates the file. -/
def overwriteFile (path : String) (content : Json) (asUser? : Option Json) : Act Bool := do
  let s ← get
  let resolved ← Act.ofExcept (s.resolve path asUser? none)
  match ← Act.ofExcept (s.tree.lookup resolved) with
  | none =>
    let (parent, name) := Path.split resolved
    createFile (parentOrRoot parent) name content asUser? none
  | some n =>
    Act.decide (writeVerdict n resolved asUser?) asUser? fun id => do
      Act.editTree (·.update id fun n => { n with content, modified := s.now })
      pure ("wrote " ++ resolved)

/-- The content that appending leaves: what is appended starts on a line of its own. Only texts can
be put together. -/
def appended (existing content : Json) : Except Fault Json :=
  match existing, content with
  | .str old, .str new =>
    .ok (.str (if old = "" ∨ Text.endsWith old "\n" then old ++ new else old ++ "\n" ++ new))
  | .str _, _ => .error .wrongShape
  | existing, _ => .error (if existing.truthy then .noFields else .wrongShape)

/-- Appends to a file, or creates the file. -/
def appendFile (path : String) (content : Json) (asUser? : Option Json) : Act Bool := do
  match ← Act.ask (·.nodeAt path asUser?) with
  | none => overwriteFile path content asUser?
  | some n =>
    if n.isDir then pure false
    else overwriteFile path (← Act.ofExcept (appended n.content content)) asUser?

/-! ## Removal -/

/-- Whether a node may be removed from its directory; `what` names the removal. -/
def removeVerdict (what path : String) (asUser? : Option Json) (s : Machine) :
    Except Fault (Verdict Node) := do
  match ← s.nodeAt path asUser? with
  | none => .ok .refused
  | some n =>
    if n.id == (← s.tree.root).id then .ok .refused
    else
      let granted ← match s.tree.parentOf? n with
        | some parent => s.can parent .write asUser?
        | none => .ok false
      if granted then .ok (.granted n)
      else .ok (.denied (what ++ " " ++ (← s.tree.pathOf n)) asUser?)

/-- Deletes a node and everything below it for good. -/
def deleteNode (path : String) (asUser? : Option Json) : Act Bool :=
  Act.decide (removeVerdict "delete" path asUser?) asUser? fun n => do
    let s ← get
    let place ← Act.ofExcept (s.tree.pathOf n)
    let count ← Act.edit (Tree.remove n s.now)
    pure s!"deleted {place} ({count} nodes)"

/-! ## Permissions and owners -/

/-- Whether a mode may be changed: only by the owner or root, and not in safe mode. -/
def chmodVerdict (path mode : String) (asUser? : Option Json) (s : Machine) :
    Except Fault (Verdict (Node × String)) := do
  match ← s.nodeAt path asUser? with
  | none => .ok .refused
  | some n =>
    let who := s.actor asUser?
    if s.safeMode || (who != rootName && n.owner != who) then
      .ok (.denied ("chmod " ++ (← s.tree.pathOf n)) asUser?)
    else match changeMode mode n.permissions with
      | .error (.badValue _) => .ok .refused
      | .error e => .error e
      | .ok permissions => .ok (.granted (n, permissions))

/-- Changes the permissions of a node. -/
def chmod (path mode : String) (asUser? : Option Json) : Act Bool :=
  Act.decide (chmodVerdict path mode asUser?) asUser? fun (n, permissions) => do
    let s ← get
    Act.editTree (·.update n.id fun n => { n with permissions, modified := s.now })
    pure s!"chmod {mode} {← pathOfId n.id}"

/-- Whether an owner may be changed: only by root, and not in safe mode. -/
def chownVerdict (path owner : String) (group? : Option String) (asUser? : Option Json)
    (s : Machine) : Except Fault (Verdict Node) := do
  match ← s.nodeAt path asUser? with
  | none => .ok .refused
  | some n =>
    if s.safeMode || s.actor asUser? != rootName then
      .ok (.denied ("chown " ++ (← s.tree.pathOf n)) asUser?)
    else if (s.accounts.user? owner).isNone then .ok .refused
    else if group?.any fun g => (s.accounts.group? g).isNone then .ok .refused
    else .ok (.granted n)

/-- Changes the owner of a node, and its group where one is given. -/
def chown (path owner : String) (group? : Option String) (asUser? : Option Json) : Act Bool :=
  Act.decide (chownVerdict path owner group? asUser?) asUser? fun n => do
    let s ← get
    Act.editTree (·.update n.id fun n =>
      { n with owner, group := (group?.map Json.str).getD n.group, modified := s.now })
    let spec := match group?.filter (· != "") with
      | some group => owner ++ ":" ++ group
      | none => owner
    pure s!"chown {spec} {← pathOfId n.id}"

end Machine

end SimUnix
