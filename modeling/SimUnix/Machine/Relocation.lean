/-
Moving and copying nodes, the trash, and pasting from the clipboard.
-/
import SimUnix.Machine.Files

namespace SimUnix.Machine

/-! ## Moving -/

/-- Whether a node may be given a name. What is no text but has parts is searched for the slash as a
part. -/
def validName : Json → Except Fault Bool
  | .str name => .ok (Path.validName name)
  | name => do .ok (name.truthy && !(← name.holds "/"))

/-- Whether a node may be moved into a directory under a name. The source is left by one user and
the destination entered by another, which are mostly the same. -/
def relocateVerdict (n dest : Node) (name : Json) (asUser? sourceUser? : Option Json)
    (s : Machine) : Except Fault (Verdict Node) := do
  match s.tree.parentOf? n with
  | none => .ok .refused
  | some parent =>
    if !dest.isDir then .ok .refused
    else if !(← validName name) then .ok .refused
    else if n.isDir && s.tree.isAncestor n dest then .ok .refused
    else match ← s.tree.childNamed dest name with
      | some existing => .ok (if existing.id = n.id then .unchanged else .refused)
      | none =>
        let leaver? := firstName? sourceUser? asUser?
        if !(← s.can parent .write leaver?) then
          .ok (.denied ("move " ++ (← s.tree.pathOf n)) leaver?)
        else if !(← s.can dest .write asUser?) then
          .ok (.denied ("move into " ++ (← s.tree.pathOf dest)) asUser?)
        else .ok (.granted dest)

/-- Moves a node into a directory under a name; its id stays. -/
def relocate (n dest : Node) (name : Json) (asUser? sourceUser? : Option Json) : Act Bool :=
  Act.decide (relocateVerdict n dest name asUser? sourceUser?) asUser? fun dest => do
    let s ← get
    let origin ← Act.ofExcept (s.tree.pathOf n)
    let unlinked ← Act.ofExcept (s.tree.detach n s.now)
    let moved := (unlinked.update n.id fun n => { n with name }).attach n.id dest.id s.now
    Act.editTree fun _ => moved.update n.id (·.touch s.now)
    pure s!"moved {origin} -> {← pathOfId n.id}"

/-- Moves or renames a node. A path of another directory means into it, any other path is the new
place itself. -/
def moveNode (source target : String) (asUser? : Option Json) : Act Bool := do
  let s ← get
  match ← Act.ofExcept (s.nodeAt source asUser?) with
  | none => pure false
  | some n =>
    if n.id == (← Act.ofExcept s.tree.root).id then return false
    let place? ← Act.ofExcept (s.nodeAt target asUser?)
    match place?.filter fun d => d.isDir && d.id != n.id with
    | some dir => relocate n dir n.name asUser? asUser?
    | none =>
      let (parent, name) := Path.split (← Act.ofExcept (s.resolve target asUser? none))
      match ← Act.ofExcept (s.tree.lookup (parentOrRoot parent)) with
      | none => pure false
      | some dest => relocate n dest name asUser? asUser?

/-- Moves the node of an id into a directory. -/
def moveById (id : NodeId) (destPath : String) (asUser? sourceUser? : Option Json) :
    Act Bool := do
  let s ← get
  let dest? ← Act.ofExcept (s.nodeAt destPath asUser?)
  match s.tree.get? id, dest? with
  | some n, some dest =>
    if n.id == (← Act.ofExcept s.tree.root).id then pure false
    else relocate n dest n.name asUser? sourceUser?
  | _, _ => pure false

/-! ## Free names -/

/-- The candidate of a number for a free name: the name itself first, then with a number from two
on. -/
def candidate (base : String) (k : Nat) : String := if k ≤ 1 then base else s!"{base} {k}"

/-- The first free candidate from a number on, among `count` of them. -/
def freeName (t : Tree) (dir : Node) (base : String) : Nat → Nat → Except Fault String
  | 0, k => .ok (candidate base k)
  | count + 1, k => do
    match ← t.childNamed dir (candidate base k) with
    | none => .ok (candidate base k)
    | some _ => freeName t dir base count (k + 1)

/-- A name that no child of a directory has. One more candidate than there are children is
enough. -/
def uniqueName (t : Tree) (dir : Node) (base : String) : Except Fault String :=
  freeName t dir base (dir.children.length + 1) 1

/-! ## Copying -/

/-- The name of a copy: the one asked for if it is free, or the node's own, marked as a copy where
it is taken. -/
def copyName (n dest : Node) (name? : Option String) (s : Machine) :
    Except Fault (Option Json) := do
  match name? with
  | some name =>
    if !Path.validName name then .ok none
    else if (← s.tree.childNamed dest name).isSome then .ok none
    else .ok (some name)
  | none =>
    if (← s.tree.childNamed dest n.name).isNone then .ok (some n.name)
    else (uniqueName s.tree dest (n.name.plain ++ " copy")).map fun name => some (.str name)

/-- Whether the node of an id may be copied into a directory, and under which name. -/
def copyVerdict (id : NodeId) (destPath : String) (asUser? sourceUser? : Option Json)
    (name? : Option String)
    (s : Machine) : Except Fault (Verdict (Node × Node × Json)) := do
  let dest? ← s.nodeAt destPath asUser?
  match s.tree.get? id, dest? with
  | some n, some dest =>
    let reader? := firstName? sourceUser? asUser?
    if !dest.isDir then .ok .refused
    else if !(← s.can n .read reader?) then
      .ok (.denied ("read " ++ (← s.tree.pathOf n)) reader?)
    else if !(← s.can dest .write asUser?) then
      .ok (.denied ("copy into " ++ (← s.tree.pathOf dest)) asUser?)
    else match ← copyName n dest name? s with
      | none => .ok .refused
      | some name => .ok (.granted (n, dest, name))
  | _, _ => .ok .refused

/-- Copies a node and everything below it into a directory. The copy belongs to the actor. -/
def copyById (id : NodeId) (destPath : String) (asUser? sourceUser? : Option Json)
    (name? : Option String) :
    Act Bool :=
  Act.decide (copyVerdict id destPath asUser? sourceUser? name?) asUser? fun (n, dest, name) => do
    let s ← get
    let owner := s.actor asUser?
    let new : Tree.NewOwner := { owner? := some owner, group? := some (s.primaryGroup owner) }
    let copy ← Act.edit (Tree.clone n new s.now)
    Act.editTree fun t => (t.update copy fun c => { c with name }).attach copy dest.id s.now
    pure s!"copied {← pathOfId n.id} -> {← pathOfId copy}"

/-! ## Trash -/

/-- The actor's trash, created if it is missing. -/
def ensureTrash (asUser? : Option Json) : Act (Option Node) := do
  let s ← get
  let homePath ← Act.ofExcept ((s.homePath asUser?).bind Json.asOwnText)
  match ← Act.ofExcept (s.tree.lookup homePath) with
  | none => pure none
  | some home =>
    if !home.isDir then return none
    match ← Act.ofExcept (s.tree.childNamed home trashName) with
    | some trash => pure (some trash)
    | none =>
      let place := Path.join (← Act.ofExcept (s.tree.pathOf home)) trashName
      if !(← Act.ofExcept (s.can home .write asUser?)) then
        Act.denied ("create " ++ place) asUser?
        return none
      let owner := s.actor asUser?
      let id ← addNew {
        name := trashName, kind := .directory, owner, group := s.primaryGroup owner
        permissions := "drwx------" } home.id
      Act.changed ("created " ++ place) asUser?
      pure ((← get).tree.get? id)

/-- Moves a node into the actor's trash under a name that is free there. -/
def moveToTrash (path : String) (asUser? : Option Json) : Act Bool := do
  match ← Act.ask (removeVerdict "trash" path asUser?) with
  | .refused => pure false
  | .unchanged => pure true
  | .denied what user? => Act.denied what user?; pure false
  | .granted n =>
    match ← ensureTrash asUser? with
    | none => pure false
    | some trash =>
      let t := (← get).tree
      if t.isAncestor n trash || n.parent == trash.id then return false
      let name ← Act.ofExcept (uniqueName t trash n.name.plain)
      relocate n trash name asUser? asUser?

/-- Deletes everything in the actor's trash; the result is the number of items. -/
def emptyTrash (asUser? : Option Json) : Act Nat := do
  let s ← get
  match ← Act.ofExcept ((s.trashPath asUser?).bind s.tree.lookup) with
  | none => pure 0
  | some trash =>
    if !trash.isDir then return 0
    if !(← Act.ofExcept (s.can trash .write asUser?)) then
      Act.denied ("empty " ++ (← Act.ofExcept (s.tree.pathOf trash))) asUser?
      return 0
    let items ← Act.ofExcept (s.tree.childrenOf trash)
    for item in items do
      discard <| Act.edit (Tree.remove item s.now)
    if !items.isEmpty then Act.changed s!"emptied trash ({items.length} items)" asUser?
    pure items.length

/-! ## Clipboard -/

/-- Puts nodes on the clipboard. -/
def pick (nodes : List NodeId) (kind : PasteKind) (sourceUser? : Option Json) : Act Unit := do
  let s ← get
  let user := s.actor sourceUser?
  set { s with clipboard := { items := nodes.map fun node => { node, user }, kind } }
  Act.flush

/-- Empties the clipboard. -/
def clearClipboard : Act Unit := do
  modify fun s => { s with clipboard := {} }
  Act.flush

/-- Pastes one item. -/
def pasteItem (kind : PasteKind) (destPath : String) (asUser? : Option Json)
    (i : ClipboardItem) : Act Bool :=
  if !i.node.isKey then throw .wrongShape
  else match kind with
    | .cut => moveById i.node destPath asUser? (some i.user)
    | .copy => copyById i.node destPath asUser? (some i.user) none

/-- Pastes some items; the result is the number of those that arrived. -/
def pasteItems (kind : PasteKind) (destPath : String) (asUser? : Option Json) :
    List ClipboardItem → Act Nat
  | [] => pure 0
  | i :: rest => do
    let arrived ← pasteItem kind destPath asUser? i
    let others ← pasteItems kind destPath asUser? rest
    pure (if arrived then others + 1 else others)

/-- Pastes the clipboard into a directory. Items that were cut leave the clipboard once one of them
has moved. -/
def paste (destPath : String) (asUser? : Option Json) : Act Nat := do
  let c := (← get).clipboard
  let count ← pasteItems c.kind destPath asUser? c.items
  if c.kind = .cut && count != 0 then clearClipboard
  pure count

end SimUnix.Machine
