/-
Output lines: plain text, names to be laid out in columns, banners, and echoes of answered
questions. `Line.render` is the text of a line on a screen of a given width; what a stored record
holds in the place of a text has none.
-/
import SimUnix.Json.Basic
import SimUnix.Text.Blank
import SimUnix.Text.Split

namespace SimUnix

/-- An emphasis that a host may give to what it shows. -/
inductive Style where
  | plain
  | directory
  | error
  | warning
  deriving Repr, DecidableEq

namespace Style

/-- The name of an emphasis. -/
def name : Style → String
  | plain => "plain"
  | directory => "directory"
  | error => "error"
  | warning => "warning"

/-- All emphases. -/
def all : List Style := [plain, directory, error, warning]

/-- The emphasis that a value names. -/
def ofJson (value : Json) : Except Fault Style :=
  match all.find? fun style => value == .str style.name with
  | some style => .ok style
  | none => .error (.badValue (.choice value.shown "Style"))

end Style

/-- A line of output. -/
inductive Line where
  | text (s : String)
  /-- Names side by side, those of directories marked. -/
  | columns (names directories : List String)
  /-- Several lines shown with one emphasis. -/
  | banner (lines : List Json) (style : Style)
  /-- A question and its answer. -/
  | echo (s : String)
  /-- A stored item that is no text. -/
  | stray (item : Json)
  deriving Repr, DecidableEq

/-- The line that a stored item is. -/
def Line.ofJson : Json → Line
  | .str s => .text s
  | item => .stray item

namespace Columns

/-- The emphasis of a name. -/
def styleOf (directories : List String) (name : String) : Style :=
  if directories.contains name then .directory else .plain

/-- The width of a column: the longest name and a gap of two. -/
def cellWidth (names : List String) : Nat := (names.map String.length).foldl max 0 + 2

/-- The number of columns that fit, at least one. -/
def perRow (width : Int) (names : List String) : Nat := max 1 (width / cellWidth names).toNat

/-- The rows of a list, `size` items each but possibly the last; `count` bounds their number. -/
def rows (size : Nat) : Nat → List String → List (List String)
  | 0, _ => []
  | count + 1, names =>
    if names.isEmpty then [] else names.take size :: rows size count (names.drop size)

/-- The names in as many columns as fit into the width. Names are painted after they are
measured. -/
def render (names : List String) (width : Int) (paint : String → String) : String :=
  let cell := cellWidth names
  Text.joinLines <| (rows (perRow width names) names.length names).map fun row =>
    Text.trimEnd (String.join (row.map fun n => paint n ++ Text.padding cell n.length))

end Columns

/-- The text of a banner, whose lines must be texts. -/
def bannerText (lines : List Json) : Except Fault String :=
  (lines.mapM Json.asText).map Text.joinLines

/-- The text of a line on a screen of the given width. -/
def Line.render (width : Int) : Line → Except Fault String
  | text s => .ok s
  | columns names _ => .ok (Columns.render names width id)
  | banner lines _ => bannerText lines
  | echo s => .ok s
  | stray _ => .error .noFields

end SimUnix
