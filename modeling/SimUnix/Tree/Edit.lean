/-
Changes of the file tree. All links are rewired by `attach` and `detach`; a change that fails half
way leaves what it has done.
-/
import SimUnix.Tree.Basic

namespace SimUnix

/-- A change of the tree that may fail, and then leaves the tree as it is at that point. -/
abbrev Edit := ExceptT Fault (StateM Tree)

namespace Tree

/-- Changes a node. -/
def update (t : Tree) (id : NodeId) (f : Node → Node) : Tree :=
  { t with nodes := t.nodes.update id f }

/-- Puts a node into the arena, unlinked. -/
def insert (t : Tree) (n : Node) : Tree := { t with nodes := t.nodes.put n.id n }

/-- Takes the next id from the supply. -/
def takeId (t : Tree) : NodeId × Tree := (t.ids.id, { t with ids := t.ids.rest })

/-- Links a node as the last child of a directory. -/
def attach (t : Tree) (id parent : NodeId) (now : Time.Stamp) : Tree :=
  (t.update id fun n => { n with parent }).update parent
    fun p => { p with children := p.children ++ [id], modified := now }

/-- Puts a new node into the arena, as the last child of a directory. -/
def add (t : Tree) (n : Node) (parent : NodeId) (now : Time.Stamp) : Tree :=
  (t.insert n).attach n.id parent now

/-- Unlinks a node from its parent; it stays in the arena. -/
def detach (t : Tree) (n : Node) (now : Time.Stamp) : Except Fault Tree :=
  match t.parentOf? n with
  | none => .ok (t.update n.id fun n => { n with parent := .null })
  | some parent =>
    if parent.children.contains n.id then
      let t := t.update parent.id fun p =>
        { p with children := p.children.erase n.id, modified := now }
      .ok (t.update n.id fun n => { n with parent := .null })
    else .error (.badValue .unlisted)

/-- Drops a node from the arena. -/
def drop (id : NodeId) : Edit Unit := do
  if (← get).has id then modify fun t => { t with nodes := t.nodes.drop id }
  else throw (unknown id)

/-- Unlinks a node and drops it with everything below it. The result is the number of nodes
dropped. -/
def remove (n : Node) (now : Time.Stamp) : Edit Nat := do
  let doomed ← liftExcept ((← get).walk n)
  set (← liftExcept ((← get).detach n now))
  doomed.forM fun victim => drop victim.id
  pure doomed.length
where
  /-- Brings a result into a change. -/
  liftExcept {α : Type} : Except Fault α → Edit α
    | .ok a => pure a
    | .error e => throw e

/-- How the nodes of a copy differ from those copied: a new owner and a new group, where they are
given and not empty. -/
structure NewOwner where
  owner? : Option Json := none
  group? : Option Json := none

/-- A new value where one is given and not empty, else the old one. -/
def replaced (new? : Option Json) (old : Json) : Json := (new?.filter Json.truthy).getD old

/-- Copies a node and everything below it into the arena under fresh ids, for at most `depth`
levels. The copy is linked to no parent. -/
def cloneDown (new : NewOwner) (now : Time.Stamp) : Nat → Node → Edit NodeId
  | 0, _ => throw .endless
  | depth + 1, n => do
    let id ← modifyGet takeId
    let copy : Node := {
      id, name := n.name, kind := n.kind, owner := replaced new.owner? n.owner
      group := replaced new.group? n.group, permissions := n.permissions, content := n.content
      created := now, modified := now }
    modify (·.insert copy)
    let children ← remove.liftExcept ((← get).childrenOf n)
    for child in children do
      let childId ← cloneDown new now depth child
      modify fun t => (t.update childId fun c => { c with parent := id }).update id
        fun c => { c with children := c.children ++ [childId] }
    pure id

/-- Copies a node and everything below it. -/
def clone (n : Node) (new : NewOwner) (now : Time.Stamp) : Edit NodeId := do
  cloneDown new now (min ((← get).size + 1) maxDepth) n

end Tree

end SimUnix
