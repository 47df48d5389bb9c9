/-
The stored form of the file tree.
-/
import SimUnix.Tree.Basic

namespace SimUnix.Tree

/-- The stored form of a tree. -/
def toJson (t : Tree) : Json :=
  .obj [("root_id", t.rootId), ("nodes", .obj (t.nodes.map fun p => (p.1.keyText, p.2.toJson)))]

/-- The nodes of a stored tree. -/
def nodeRecords : Json → Except Fault (List Json)
  | .obj fields => .ok (fields.map Prod.snd)
  | _ => .error .noFields

/-- Adds the node of a record to an arena. -/
def restoreNode (now : Time.Stamp) (nodes : Keyed NodeId Node) (record : Json) :
    Except Fault (Keyed NodeId Node) := do
  let n ← Node.ofJson now record
  if n.id.isKey then .ok (nodes.put n.id n) else .error .wrongShape

/-- The tree of a stored form. It must have the node that it calls its root; its links are taken as
they are. -/
def ofJson (ids : IdSupply) (now : Time.Stamp) (record : Json) : Except Fault Tree := do
  let rootId ← record.require "root_id"
  let records ← nodeRecords (← record.require "nodes")
  let nodes ← records.foldlM (restoreNode now) []
  if !rootId.isKey then .error .wrongShape
  else if nodes.has rootId then .ok { rootId, nodes, ids }
  else .error (.badValue .rootless)

end SimUnix.Tree
