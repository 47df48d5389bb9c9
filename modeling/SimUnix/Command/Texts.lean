/-
The commands that print, select and count lines: of the files they are given, or else of their
input.
-/
import SimUnix.Command.Context
import SimUnix.Pattern.Parser

namespace SimUnix.Command

/-- The lines of a file, or the problem that was met. -/
def readLines (ctx : Context) (name arg : String) : Job (Except String (List String)) := do
  let path ← ctx.resolve arg
  match ← ctx.fileLines? path with
  | some lines => pure (.ok lines)
  | none =>
    match ← ctx.nodeAt path with
    | none => pure (.error s!"{name}: {arg}: No such file or directory")
    | some n =>
      let problem := if n.isDir then "Is a directory" else "Permission denied"
      pure (.error s!"{name}: {arg}: {problem}")

/-- The lines of some files one after the other, or the first problem that was met. -/
def readAll (ctx : Context) (name : String) : List String → Job (Except String (List String))
  | [] => pure (.ok [])
  | arg :: rest => do
    match ← readLines ctx name arg with
    | .error problem => pure (.error problem)
    | .ok lines => pure ((← readAll ctx name rest).map (lines ++ ·))

/-- The lines of the operands, or of the input where there are none. -/
def inputLines (ctx : Context) (name : String) (operands : List String) :
    Job (Except String (List String)) :=
  if operands.isEmpty then pure (.ok ctx.input) else readAll ctx name operands

/-- Prints its arguments. -/
def runEcho (ctx : Context) : Job Outcome := pure (.ok [Text.joinWith " " ctx.args])

/-- Selects the lines in which a pattern is found. -/
def runGrep (ctx : Context) : Job Outcome := do
  let isFlag (arg : String) := arg == "-i" || arg == "-v"
  let flags := ctx.args.filter isFlag
  match ctx.args.filter fun arg => !isFlag arg with
  | [] => pure (.fail "grep: missing pattern")
  | written :: files =>
    match ← Job.ofExcept (Pattern.parse written) with
    | none => pure (.fail s!"grep: invalid pattern '{written}'")
    | some pattern =>
      if files.isEmpty && ctx.input.isEmpty then return .fail "grep: missing file operand"
      match ← inputLines ctx "grep" files with
      | .error problem => pure (.fail problem)
      | .ok lines =>
        let invert := flags.contains "-v"
        let selected := lines.filter fun line => pattern.found (flags.contains "-i") line != invert
        pure (if selected.isEmpty then { code? := some 1 } else .ok selected)

/-- How many lines to show, and of which operands. -/
structure LineRequest where
  count : Nat := 10
  operands : List String := []

/-- Why the arguments of a line count are not in order. -/
inductive CountProblem where
  /-- The text is not made of digits. -/
  | notDigits (value : String)
  /-- The digits do not write a number. -/
  | badNumber (cause : BadValue)

/-- The number of lines that a text asks for. Too many digits at its start are a problem of their
own, whatever follows them. -/
def lineCount (value : String) : Except CountProblem Nat :=
  let length := (value.toList.takeWhile Text.isDecimal).length
  if !Text.allDigits value then .error (.notDigits value)
  else if Text.maxDigits < length then .error (.badNumber (.digits length))
  else match Text.readDecimal? value with
    | some n => .ok n
    | none => .error (.badNumber (.number value))

/-- Reads a line count and operands. The number follows its flag or stands in it, and the last one
counts. -/
def lineRequest (r : LineRequest) : List String → Except CountProblem LineRequest
  | [] => .ok r
  | "-n" :: [] => .error (.notDigits "")
  | "-n" :: value :: rest => do lineRequest { r with count := ← lineCount value } rest
  | arg :: rest =>
    if Text.startsWith arg "-n" then do
      lineRequest { r with count := ← lineCount (Text.dropFirst 2 arg) } rest
    else if Text.startsWith arg "-" && Text.allDigits (Text.dropFirst 1 arg) then do
      lineRequest { r with count := ← lineCount (Text.dropFirst 1 arg) } rest
    else lineRequest { r with operands := r.operands ++ [arg] } rest

/-- Selects some lines of the operands or the input by their number. -/
def runSelection (ctx : Context) (name : String) (select : Nat → List String → List String) :
    Job Outcome := do
  match lineRequest {} ctx.args with
  | .error (.notDigits value) => pure (.fail s!"{name}: invalid number of lines: '{value}'")
  | .error (.badNumber cause) => Job.fail (.badValue cause)
  | .ok r =>
    match ← inputLines ctx name r.operands with
    | .error problem => pure (.fail problem)
    | .ok lines => pure (.ok (select r.count lines))

/-- Shows the first lines. -/
def runHead (ctx : Context) : Job Outcome := runSelection ctx "head" List.take

/-- Shows the last lines. -/
def runTail (ctx : Context) : Job Outcome :=
  runSelection ctx "tail" fun count lines => lines.drop (lines.length - count)

/-- The flags of a count and what each of them counts: lines, words, and characters with the line
feeds between lines. -/
def counts (lines : List String) : List (String × Nat) :=
  [("-l", lines.length), ("-w", (lines.flatMap fun line => Text.blankFields line.toList).length),
    ("-c", (Text.joinLines lines).length)]

/-- Counts lines, words and characters. -/
def runWc (ctx : Context) : Job Outcome := do
  let isFlag (arg : String) := arg == "-l" || arg == "-w" || arg == "-c"
  let flags := ctx.args.filter isFlag
  let operands := ctx.args.filter fun arg => !isFlag arg
  match ← inputLines ctx "wc" operands with
  | .error problem => pure (.fail problem)
  | .ok lines =>
    let shown := (counts lines).filter fun c => flags.isEmpty || flags.contains c.1
    let numbers := Text.joinWith " " (shown.map fun c => Text.padLeft 7 (toString c.2))
    let name := match operands with
      | [arg] => " " ++ arg
      | _ => ""
    pure (.ok [numbers ++ name])

end SimUnix.Command
