/-
What a command is given and what it gives back.
-/
import SimUnix.Command.Catalog
import SimUnix.Terminal.Job

namespace SimUnix

/-- What a command came to. -/
structure Outcome where
  output : List Line := []
  error : Bool := false
  /-- The exit code, where it does not follow from `error`. -/
  code? : Option Nat := none
  /-- The working directory that the command asks for. -/
  cwd? : Option String := none
  clearScreen : Bool := false
  deriving Repr, DecidableEq

namespace Outcome

/-- The exit code. -/
def code (o : Outcome) : Nat := o.code?.getD (if o.error then 1 else 0)

/-- A success with some lines of text. -/
def ok (texts : List String) : Outcome := { output := texts.map .text }

/-- A failure with a line of text. -/
def fail (text : String) : Outcome := { output := [.text text], error := true }

/-- A failure with an exit code of its own. -/
def failWith (code : Nat) (text : String) : Outcome := { fail text with code? := some code }

/-- The problems that were met, or a success if there were none. -/
def ofProblems (problems : List String) : Outcome :=
  { output := problems.map .text, error := !problems.isEmpty }

/-- The outcome with some lines before its output. -/
def after (o : Outcome) (shown : List Line) : Outcome := { o with output := shown ++ o.output }

end Outcome

/-- What a command is given. -/
structure Context where
  args : List String
  /-- The lines that the step before it left. -/
  input : List String
  user : String
  cwd : String
  /-- The output goes to the screen. -/
  toScreen : Bool

namespace Context

/-- The canonical form of a path that the command was given. -/
def resolve (ctx : Context) (path : String) : Job String :=
  Job.ask fun s => s.resolve path (some ctx.user) (some ctx.cwd)

/-- The node at a canonical path. -/
def nodeAt (ctx : Context) (path : String) : Job (Option Node) :=
  Job.ask fun s => s.nodeAt path (some ctx.user)

/-- Whether a canonical path names a node. -/
def pathExists (ctx : Context) (path : String) : Job Bool :=
  Job.ask fun s => s.pathExists path (some ctx.user)

/-- The lines of the file at a canonical path, if it is there and readable. A file without a content
counts as unreadable. -/
def fileLines? (ctx : Context) (path : String) : Job (Option (List String)) := do
  match (← Job.ask fun s => s.fileContent path (some ctx.user)).getD .null with
  | .null => pure none
  | content => pure (some (Text.lines (← Job.ofExcept content.asOwnText)))

/-- The single letters after a dash in the arguments, and the arguments that are no such letters. -/
def flagsAndOperands (args : List String) : List Char × List String :=
  let isFlag (arg : String) := Text.startsWith arg "-" && 1 < arg.length
  ((args.filter isFlag).flatMap fun arg => arg.toList.drop 1, args.filter fun arg => !isFlag arg)

end Context

end SimUnix
