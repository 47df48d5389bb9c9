/-
Handles: names for nodes of a tree, for scripts that build a tree and inspect it. A handle stays
bound to its node after the node has left the tree. The nodes of a restored tree have their ids for
handles.
-/
import SimUnix.Tree.Edit
import SimUnix.Tree.Record

namespace SimUnix

/-- A tree with handles. -/
structure Handles where
  tree : Tree
  /-- The ids of the nodes by handle. -/
  bound : Keyed Json NodeId
  /-- The nodes that have left the tree. -/
  gone : Keyed NodeId Node := []
  deriving Repr, DecidableEq

namespace Handles

/-- A tree whose root alone has a handle. -/
def ofTree (t : Tree) : Handles := { tree := t, bound := [("root", t.rootId)] }

/-- The node of a handle, as it is in the tree or as it left it. -/
def node? (b : Handles) (handle : Json) : Option Node := do
  let id ← b.bound.get? handle
  (b.tree.get? id).or (b.gone.get? id)

/-- The handle that was bound to a node first. -/
def handle? (b : Handles) (n : Node) : Option Json :=
  (b.bound.find? fun h => h.2 == n.id).map Prod.fst

/-- Binds a handle. -/
def bind (b : Handles) (handle : Json) (id : NodeId) : Handles :=
  { b with bound := b.bound.put handle id }

/-- Changes a node, in the tree or after it has left it. -/
def update (b : Handles) (id : NodeId) (change : Node → Node) : Handles :=
  if b.tree.has id then { b with tree := b.tree.update id change }
  else { b with gone := b.gone.update id change }

/-- Links a node as the last child of a directory. -/
def attach (b : Handles) (id parent : NodeId) (now : Time.Stamp) : Handles :=
  (b.update id fun n => { n with parent }).update parent
    fun p => { p with children := p.children ++ [id], modified := now }

/-- Puts a new node into the tree, as the last child of a directory, and binds a handle to it. -/
def add (b : Handles) (handle : Json) (n : Node) (parent : NodeId) : Handles :=
  ({ b with tree := b.tree.insert n }.attach n.id parent n.created).bind handle n.id

/-- Unlinks a node from its parent. -/
def detach (b : Handles) (n : Node) (now : Time.Stamp) : Except Fault Handles := do
  let tree ← b.tree.detach n now
  .ok ({ b with tree }.update n.id fun n => { n with parent := .null })

/-- Removes a node and everything below it; what has left the tree is remembered. -/
def remove (b : Handles) (n : Node) (now : Time.Stamp) : Except Fault Nat × Handles :=
  let (result, tree) := (Tree.remove n now).run b.tree
  let left := (b.tree.nodes.filter fun p => !tree.has p.1).map fun p =>
    (p.1, if p.1 = n.id then { p.2 with parent := .null } else p.2)
  (result, { b with tree, gone := left.foldl (fun gone p => Keyed.put gone p.1 p.2) b.gone })

/-- Copies a node and everything below it, and binds a handle to the copy. -/
def clone (b : Handles) (handle : Json) (n : Node) (new : Tree.NewOwner) (now : Time.Stamp) :
    Except Fault Node × Handles :=
  let (result, tree) := (Tree.clone n new now).run b.tree
  let b := { b with tree }
  match result with
  | .error e => (.error e, b)
  | .ok id => (tree.node id, b.bind handle id)

/-- Writes the tree to a record and reads it back. Handles of nodes that are not in it are
dropped. -/
def reload (b : Handles) (now : Time.Stamp) : Except Fault Handles := do
  let tree ← Tree.ofJson b.tree.ids now b.tree.toJson
  .ok { tree, bound := b.bound.filter fun h => tree.has h.2 }

/-- Reads a tree from a record. The ids of its nodes are their handles, but the handle of the root
is always the root's. -/
def load (b : Handles) (record : Json) (now : Time.Stamp) : Except Fault Handles := do
  let tree ← Tree.ofJson b.tree.ids now record
  .ok { tree, bound := Keyed.put (tree.nodes.map fun p => (p.1, p.1)) "root" tree.rootId }

end Handles

end SimUnix
