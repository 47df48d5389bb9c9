/-
The nodes of the file tree and their stored form.
-/
import SimUnix.Json.Basic
import SimUnix.Permission.Basic
import SimUnix.Time.Iso8601

namespace SimUnix

/-- The key under which a node is known for all its life. It is a text wherever it is made here; a
restored tree may use any key. -/
abbrev NodeId := Json

/-- The kind of a node. -/
inductive NodeKind where
  | file
  | directory
  deriving Repr, DecidableEq

/-- The name of a kind. -/
def NodeKind.name : NodeKind → String
  | file => "file"
  | directory => "directory"

/-- The kind that a stored value names. -/
def NodeKind.ofJson (value : Json) : Except Fault NodeKind :=
  match value with
  | .str "file" => .ok .file
  | .str "directory" => .ok .directory
  | value => .error (.badValue (.choice value.shown "FileType"))

/-- A node of the tree. Files have content, directories list the ids of their children. Where a
node is made here, its name, owner, group, permissions and content are texts, and its parent is an
id or nothing; a restored node keeps whatever its record holds. -/
structure Node where
  id : NodeId
  name : Json
  kind : NodeKind
  owner : Json := rootName
  group : Json := rootName
  permissions : Json := filePermissions
  content : Json := ""
  children : List NodeId := []
  parent : Json := .null
  created : Time.Stamp
  modified : Time.Stamp
  deriving Repr, DecidableEq

namespace Node

/-- Whether a node is a directory. -/
def isDir (n : Node) : Bool := n.kind == .directory

/-- The size of a file's content in bytes; directories have none. -/
def size (n : Node) : Except Fault Nat :=
  if n.isDir then .ok 0 else (n.content.asOwnText).map String.utf8ByteSize

/-- Marks a node as modified. -/
def touch (n : Node) (now : Time.Stamp) : Node := { n with modified := now }

/-- The written form of a node. -/
def toJson (n : Node) : Json :=
  .obj [("id", n.id), ("name", n.name), ("type", .str n.kind.name), ("owner", n.owner),
    ("group", n.group), ("permissions", n.permissions), ("content", n.content),
    ("children", .arr n.children), ("parent_id", n.parent),
    ("created", .str n.created.toText), ("modified", .str n.modified.toText)]

/-- The stamp in a field, or the present where the field is absent. -/
def stampField (key : String) (now : Time.Stamp) (record : Json) : Except Fault Time.Stamp := do
  match ← record.field? key with
  | none => .ok now
  | some value => Time.Stamp.parse (← value.asText)

/-- The node of a record. Id, name and type must be there, and the kind and the times must be in
order. -/
def ofJson (now : Time.Stamp) (record : Json) : Except Fault Node := do
  let id ← record.require "id"
  let name ← record.require "name"
  let kind ← NodeKind.ofJson (← record.require "type")
  let owner ← record.fieldOr "owner" rootName
  let group ← record.fieldOr "group" rootName
  let permissions ← record.fieldOr "permissions" filePermissions
  let content ← record.fieldOr "content" ""
  let children ← (← record.fieldOr "children" (.arr [])).items
  let parent ← record.fieldOr "parent_id" .null
  let created ← stampField "created" now record
  let modified ← stampField "modified" now record
  .ok { id, name, kind, owner, group, permissions, content, children, parent, created, modified }

end Node

end SimUnix
