/-
Pipelines: the steps of a command line, joined by pipes, and the operators between one pipeline
and the next.
-/
import SimUnix.Shell.Word

namespace SimUnix.Shell

/-- Where the output of a step goes instead of the screen. -/
structure Target where
  mode : Redirection
  path : String
  deriving Repr, DecidableEq

/-- A command with its arguments and the redirection of its output. -/
structure Step where
  command : String
  args : List String := []
  target? : Option Target := none
  deriving Repr, DecidableEq

/-- Steps joined by pipes, and the operator that follows the last of them. -/
structure Pipeline where
  steps : List Step
  operator? : Option Control := none
  deriving Repr, DecidableEq

namespace Pipeline

/-- A step as far as it has been read. -/
structure Draft where
  words : List String := []
  mode? : Option Redirection := none
  path? : Option String := none
  /-- The next word is the path of a redirection. -/
  awaitsPath : Bool := false
  deriving Repr, DecidableEq

/-- The step that a draft makes: none without a command, and none redirected without a path. -/
def Draft.step? (d : Draft) : Option Step :=
  match d.words with
  | [] => none
  | command :: args =>
    let target? := match d.mode?, d.path? with
      | some mode, some path => some { mode, path }
      | _, _ => none
    some { command, args, target? }

/-- A line as far as it has been read: the pipelines that are complete, the complete steps of the
next one, and the step being read. -/
structure Reading where
  pipelines : List Pipeline := []
  steps : List Step := []
  draft : Draft := {}
  deriving Repr, DecidableEq

/-- Completes the step being read. A step without a command is dropped. -/
def Reading.endStep (r : Reading) : Reading :=
  { r with steps := r.steps ++ r.draft.step?.toList, draft := {} }

/-- Gives the last pipeline an operator. -/
def withLastOperator (c : Control) : List Pipeline → List Pipeline
  | [] => []
  | [p] => [{ p with operator? := some c }]
  | p :: rest => p :: withLastOperator c rest

/-- Completes the pipeline being read. An operator with no steps before it takes the place of the
last pipeline's operator. -/
def Reading.endPipeline (r : Reading) (operator? : Option Control) : Reading :=
  let r := r.endStep
  if r.steps.isEmpty then
    match operator? with
    | some c => { r with pipelines := withLastOperator c r.pipelines }
    | none => r
  else { r with pipelines := r.pipelines ++ [{ steps := r.steps, operator? }], steps := [] }

/-- Reads one token. -/
def Reading.next (r : Reading) : Token → Reading
  | .op (.control c) => r.endPipeline (some c)
  | .op .pipe => r.endStep
  | .op (.redirect mode) =>
    { r with draft := { r.draft with mode? := some mode, awaitsPath := true } }
  | .word w =>
    if r.draft.awaitsPath then
      { r with draft := { r.draft with path? := some (unquote w), awaitsPath := false } }
    else { r with draft := { r.draft with words := r.draft.words ++ [unquote w] } }

/-- The pipelines of a list of tokens. -/
def ofTokens (tokens : List Token) : List Pipeline :=
  ((tokens.foldl Reading.next {}).endPipeline none).pipelines

end Pipeline

/-- The pipelines of a line. -/
def parse (line : String) : List Pipeline := Pipeline.ofTokens (tokenize line)

end SimUnix.Shell
