/-
The file tree: an arena of nodes by id. Links run both ways, from a directory to its children and
from a node to its parent. A tree read from a record may have broken links, so that a walk can fail
at a child that is not there.
-/
import SimUnix.Keyed
import SimUnix.Tree.Node
import SimUnix.Tree.Path

namespace SimUnix

/-- The supply of fresh ids: a stem and the number of the next one. -/
structure IdSupply where
  stem : String
  next : Nat := 0
  deriving Repr, DecidableEq

/-- The next id of a supply. -/
def IdSupply.id (s : IdSupply) : NodeId := .str (s.stem ++ toString s.next)

/-- The supply after its next id is taken. -/
def IdSupply.rest (s : IdSupply) : IdSupply := { s with next := s.next + 1 }

/-- The arena of nodes. -/
structure Tree where
  rootId : NodeId
  nodes : Keyed NodeId Node
  ids : IdSupply
  deriving Repr, DecidableEq

namespace Tree

/-- A tree of nothing but its root, which takes the first id of the supply. -/
def empty (ids : IdSupply) (now : Time.Stamp) : Tree :=
  let root : Node := {
    id := ids.id, name := Path.root, kind := .directory, permissions := directoryPermissions
    created := now, modified := now }
  { rootId := root.id, nodes := [(root.id, root)], ids := ids.rest }

/-- The number of nodes. -/
def size (t : Tree) : Nat := t.nodes.length

/-- The node of an id. -/
def get? (t : Tree) (id : NodeId) : Option Node := t.nodes.get? id

/-- Whether an id is that of a node. -/
def has (t : Tree) (id : NodeId) : Bool := t.nodes.has id

/-- The fault of looking up an id that no node has. -/
def unknown (id : NodeId) : Fault := if id.isKey then .missing id.shown else .wrongShape

/-- The node of an id that is linked to. -/
def node (t : Tree) (id : NodeId) : Except Fault Node :=
  match t.get? id with
  | some n => .ok n
  | none => .error (unknown id)

/-- The root directory. -/
def root (t : Tree) : Except Fault Node := t.node t.rootId

/-- The parent of a node; the root has none. -/
def parentOf? (t : Tree) (n : Node) : Option Node :=
  if n.parent = .null then none else t.get? n.parent

/-- The children of a directory in order. -/
def childrenOf (t : Tree) (n : Node) : Except Fault (List Node) := n.children.mapM t.node

/-- The first of some nodes that has a name. -/
def firstNamed (t : Tree) (name : Json) : List NodeId → Except Fault (Option Node)
  | [] => .ok none
  | id :: rest =>
    match t.node id with
    | .error e => .error e
    | .ok n => if n.name = name then .ok (some n) else firstNamed t name rest

/-- The child of a directory that has a name. -/
def childNamed (t : Tree) (dir : Node) (name : Json) : Except Fault (Option Node) :=
  t.firstNamed name dir.children

/-- Follows names from a node downwards. -/
def descend (t : Tree) (n : Node) : List String → Except Fault (Option Node)
  | [] => .ok (some n)
  | name :: rest =>
    if !n.isDir then .ok none
    else match t.childNamed n name with
      | .error e => .error e
      | .ok none => .ok none
      | .ok (some child) => descend t child rest

/-- The node at an absolute path. -/
def lookup (t : Tree) (path : String) : Except Fault (Option Node) :=
  match t.root with
  | .error e => .error e
  | .ok root => t.descend root (Path.components path)

/-- A node and those on its chain of parents, the node first, at most `count` of them. -/
def chain (t : Tree) : Nat → Node → List Node
  | 0, _ => []
  | count + 1, n =>
    n :: match t.parentOf? n with
      | none => []
      | some parent => chain t count parent

/-- A node and those above it. No chain without a circle is longer than the arena and one node. -/
def lineage (t : Tree) (n : Node) : List Node := t.chain (t.size + 1) n

/-- The absolute path of a node. The names on it must be texts. -/
def pathOf (t : Tree) (n : Node) : Except Fault String := do
  let names ← ((t.lineage n).filter (·.parent != .null)).mapM (·.name.asText)
  .ok (Path.ofComponents names.reverse)

/-- Whether a node is another one or lies above it. -/
def isAncestor (t : Tree) (ancestor n : Node) : Bool := (t.lineage n).any (·.id == ancestor.id)

/-- A node and everything below it, depth first, for at most `depth` levels. -/
def walkDown (t : Tree) : Nat → Node → Except Fault (List Node)
  | 0, _ => .error .endless
  | depth + 1, n => do
    let below ← (← t.childrenOf n).mapM (walkDown t depth)
    .ok (n :: below.flatten)

/-- How many levels a walk may go down. -/
def maxDepth : Nat := 960

/-- A node and everything below it, depth first. On links without a circle a walk goes down no more
levels than there are nodes. -/
def walk (t : Tree) (n : Node) : Except Fault (List Node) :=
  t.walkDown (min (t.size + 1) maxDepth) n

end Tree

end SimUnix
