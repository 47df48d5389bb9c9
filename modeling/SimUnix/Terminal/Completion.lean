/-
Completion of the last word of a line: command names where a command is expected, names of files
everywhere else.
-/
import SimUnix.Shell.Pipeline
import SimUnix.Shell.Resolution
import SimUnix.Terminal.Basic

namespace SimUnix

/-- A completed line and the candidates for its last word. -/
structure Completion where
  line : String
  candidates : List String
  deriving Repr, DecidableEq

namespace Completion

/-- The names that a file in a directory of commands stands for. -/
def namesOf (s : Machine) (user : String) (n : Node) : Except Fault (List String) := do
  if n.isDir then .ok []
  else if ← s.can n .read (some user) then
    if !n.name.isKey then .error .wrongShape
    let app? := Executable.appOf? (← n.content.asOwnText)
    .ok ((← n.name.asOwnText) :: app?.toList)
  else .ok []

/-- The children of a directory, none if it cannot be listed. -/
def entries (s : Machine) (user path : String) : Except Fault (List Node) :=
  (s.listDirectory path (some user)).map (·.getD [])

/-- All names that may stand where a command is expected. -/
def commandNames (s : Machine) (user : String) : Except Fault (List String) := do
  let names ← Shell.searchPath.mapM fun dir => do (← entries s user dir).mapM (namesOf s user)
  .ok (Command.all.map Command.name ++ names.flatten.flatten)

/-- A word up to its last slash, and what follows the slash. -/
def headAndRest (word : String) : String × String :=
  let cs := word.toList
  let rest := (cs.reverse.takeWhile (· ≠ '/')).reverse
  (String.ofList (cs.take (cs.length - rest.length)), String.ofList rest)

/-- Whether a word has a slash. -/
def hasSlash (word : String) : Bool := word.toList.contains '/'

/-- The candidate that a node of a name is: directories end in a slash. -/
def candidateOf (n : Node) (name : String) : String := if n.isDir then name ++ "/" else name

/-- The names in a directory that a word starts; hidden ones only for a word that starts with a
dot. -/
def namesIn (s : Machine) (user path start : String) : Except Fault (List String) := do
  let named ← (← entries s user path).mapM fun n => do .ok (n, ← n.name.asOwnText)
  .ok ((named.filter fun (_, name) =>
    Text.startsWith name start &&
      (Text.startsWith start "." || !Text.startsWith name ".")).map fun (n, name) =>
        candidateOf n name)

/-- The names of files that a word starts. -/
def fileNames (s : Machine) (t : Terminal) (word : String) : Except Fault (List String) := do
  if hasSlash word then
    let (head, rest) := headAndRest word
    namesIn s t.user (← s.resolve head (some t.user) (some t.cwd)) rest
  else if word = "~" then .ok ["~/"]
  else namesIn s t.user t.cwd word

/-- The candidates for a word, in order and each once. -/
def candidatesFor (s : Machine) (t : Terminal) (word : String) (isCommand : Bool) :
    Except Fault (List String) := do
  let found ←
    if isCommand && !hasSlash word then
      (commandNames s t.user).map fun names => names.filter (Text.startsWith · word)
    else fileNames s t word
  .ok (Text.sorted found.eraseDups)

/-- A word as it has to stand in a line. -/
def quotedIfNeeded (word : String) : String :=
  if word.toList.contains ' ' then "\"" ++ word ++ "\"" else word

/-- The part of a word that a candidate does not replace: all up to the last slash of a file's
path. -/
def keptPart (word : String) (isCommand : Bool) : String :=
  if !isCommand && hasSlash word then (headAndRest word).1 else ""

/-- The last word of a line as far as it goes, the text of its token, and whether a command is
expected there. -/
structure Spot where
  word : String
  token : String
  isCommand : Bool

/-- Where a command is expected: at the start and after every operator. -/
def expectsCommand (before : List Shell.Token) : Bool :=
  match before.getLast? with
  | none | some (.op _) => true
  | some (.word _) => false

/-- The spot at the end of a line. -/
def spotOf (line : String) : Spot :=
  let tokens := Shell.tokenize line
  match if line = "" ∨ Text.endsBlank line then none else tokens.getLast? with
  | none => { word := "", token := "", isCommand := expectsCommand tokens }
  | some last =>
    { word := Shell.unquote last.text, token := last.text
      isCommand := expectsCommand tokens.dropLast }

/-- Completes the last word of a line. A single candidate takes the word's place; otherwise the line
stays. -/
def ofLine (s : Machine) (t : Terminal) (line : String) : Except Fault Completion := do
  let spot := spotOf line
  let candidates ← candidatesFor s t spot.word spot.isCommand
  match candidates with
  | [choice] =>
    let replacement := quotedIfNeeded (keptPart spot.word spot.isCommand ++ choice)
    let base := String.ofList (line.toList.take (line.length - spot.token.length))
    .ok { line := base ++ replacement ++ if spot.isCommand then " " else "", candidates }
  | _ => .ok { line, candidates }

/-- What completing a line would add to it, if there is one candidate. -/
def ghost (s : Machine) (t : Terminal) (line : String) : Except Fault String := do
  if line = "" || Text.endsBlank line then return ""
  let c ← ofLine s t line
  return if c.candidates.length = 1 && Text.startsWith c.line line then
    Text.dropFirst line.length c.line
  else ""

/-- The item at a position; negative positions count from the end. Beyond the end there is none. -/
def pick? (items : List String) (position : Int) : Except Fault (Option String) :=
  if 0 ≤ position then .ok items[position.toNat]?
  else match items.reverse[(-position - 1).toNat]? with
    | some item => .ok (some item)
    | none => .error .outOfRange

/-- The candidate of a number for a word in a line of which a part is given that stands before the
word. -/
def nth (s : Machine) (t : Terminal) (before word : String) (position : Int) :
    Except Fault (Option String) := do
  let isCommand := Text.allBlank before
  let candidates ← candidatesFor s t word isCommand
  pick? (candidates.map (keptPart word isCommand ++ ·)) position

end Completion

end SimUnix
