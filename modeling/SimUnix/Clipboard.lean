/-
The clipboard: nodes picked for a paste, and whether the paste copies or moves them.
-/
import SimUnix.Tree.Node

namespace SimUnix

/-- What a paste does with the items. -/
inductive PasteKind where
  | copy
  | cut
  deriving Repr, DecidableEq

/-- The name of a kind of paste. -/
def PasteKind.name : PasteKind → String
  | copy => "copy"
  | cut => "cut"

/-- The kind of paste that a stored value names. -/
def PasteKind.ofJson (value : Json) : Except Fault PasteKind :=
  match value with
  | .str "copy" => .ok .copy
  | .str "cut" => .ok .cut
  | value => .error (.badValue (.choice value.shown "ClipboardOperation"))

/-- A picked node and the user who picked it; a restored item is kept as it is. -/
structure ClipboardItem where
  node : NodeId
  user : Json
  deriving Repr, DecidableEq

/-- The clipboard. -/
structure Clipboard where
  items : List ClipboardItem := []
  kind : PasteKind := .copy
  deriving Repr, DecidableEq

namespace Clipboard

/-- The stored form of an item. -/
def itemJson (i : ClipboardItem) : Json :=
  .obj [("node_id", i.node), ("source_user", i.user)]

/-- The stored form of the clipboard. -/
def toJson (c : Clipboard) : Json :=
  .obj [("operation", .str c.kind.name), ("items", .arr (c.items.map itemJson))]

/-- The item of a stored form. -/
def itemOfJson (record : Json) : Except Fault ClipboardItem := do
  let node ← record.require "node_id"
  let user ← record.require "source_user"
  .ok { node, user }

/-- The clipboard of a stored form; an empty record is an empty clipboard. -/
def ofJson (record : Json) : Except Fault Clipboard := do
  if !record.truthy then return {}
  let items ← match ← record.field? "items" with
    | none => .ok []
    | some value => (← value.items).mapM itemOfJson
  let kind ← match ← record.field? "operation" with
    | none => .ok .copy
    | some value => PasteKind.ofJson value
  return { items, kind }

end Clipboard

end SimUnix
