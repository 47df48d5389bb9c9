/-
Running a command line: its pipelines one after the other, their steps connected by pipes, each as
the user who acts when its turn comes.
-/
import SimUnix.Command.Accounts
import SimUnix.Command.Files
import SimUnix.Command.Info
import SimUnix.Command.Sessions
import SimUnix.Command.Texts
import SimUnix.Shell.Glob
import SimUnix.Shell.Pipeline
import SimUnix.Shell.Resolution

namespace SimUnix.Shell

/-! ## Steps -/

/-- Runs a command. `runAgain` runs a step for the commands that run another one. -/
def runCommand (runAgain : Step → Job Outcome) (ctx : Context) : Command → Job Outcome
  | .whoami => Command.runWhoami ctx
  | .identify => Command.runId ctx
  | .groups => Command.runGroups ctx
  | .su => Command.runSu ctx
  | .asRoot =>
    Command.runSudo ctx (runAgain { command := ctx.args.headD "", args := ctx.args.drop 1 })
  | .useradd => Command.runUseradd ctx
  | .userdel => Command.runUserdel ctx
  | .passwd => Command.runPasswd ctx
  | .groupadd => Command.runGroupadd ctx
  | .groupdel => Command.runGroupdel ctx
  | .usermod => Command.runUsermod ctx
  | .ls => Command.runLs ctx
  | .cat => Command.runCat ctx
  | .pwd => pure (.ok [ctx.cwd])
  | .mkdir => Command.runMkdir ctx
  | .touch => Command.runTouch ctx
  | .rm => Command.runRm ctx
  | .emptytrash => Command.runEmptytrash ctx
  | .mv => Command.runMv ctx
  | .cp => Command.runCp ctx
  | .chmod => Command.runChmod ctx
  | .chown => Command.runChown ctx
  | .hostname => Command.runHostname ctx
  | .date => Command.runDate ctx
  | .uname => Command.runUname ctx
  | .succeed => pure {}
  | .failing => pure { code? := some 1 }
  | .clear => pure { clearScreen := true }
  | .history => Command.runHistory ctx
  | .dmesg => Command.runDmesg ctx
  | .reset => Command.runReset ctx
  | .echo => Command.runEcho ctx
  | .grep => Command.runGrep ctx
  | .head => Command.runHead ctx
  | .tail => Command.runTail ctx
  | .wc => Command.runWc ctx
  | .cd => Command.runCd ctx
  | .exit => Command.runExit ctx
  | .logout => Command.runLogout ctx
  | .help => Command.runHelp ctx
  | .devUnlock => Command.runDevUnlock ctx

/-- Starts an application, if the host can. -/
def launch (ctx : Context) (app : String) : Job Outcome := do
  if (← Job.terminal).launches then
    Job.setTerminal fun t => { t with launched := t.launched ++ [(app, ctx.user)] }
    pure (.ok [s!"Launched {app} as {ctx.user}"])
  else pure (.fail s!"Cannot launch {app}")

/-- The names in a directory, as far as they can be listed; they are looked up only for a
pattern. -/
def namesIn (s : Machine) (args : List String) (cwd user : String) :
    Except Fault (List String) := do
  if args.any isGlob then ((← s.listDirectory cwd (some user)).getD []).mapM (·.name.asText)
  else .ok []

/-- The arguments with their patterns expanded in a directory. -/
def expandGlobs (s : Machine) (args : List String) (cwd user : String) :
    Except Fault (List String) :=
  (namesIn s args cwd user).map fun names => expandArgs names args

/-- How deep commands may run one another. -/
def maxNesting : Nat := 320

/-- Runs a step as the acting user, with at most so many commands that run another one. -/
def runStepIn (input : List String) (cwd : String) (toScreen : Bool) : Nat → Step → Job Outcome
  | 0, _ => Job.fail .endless
  | depth + 1, step => do
    let user := (← Job.terminal).user
    match ← Job.ask fun s => resolve s step.command user cwd with
    | .error why => pure (.failWith why.code (why.message step.command))
    | .ok executable =>
      let args ← Job.ask fun s => expandGlobs s step.args cwd user
      let ctx : Context := { args, input, user, cwd, toScreen }
      match executable with
      | .program c => runCommand (runStepIn input cwd toScreen depth) ctx c
      | .app id => launch ctx id

/-- Runs a step as the acting user. -/
def runStep (input : List String) (cwd : String) (toScreen : Bool) (step : Step) : Job Outcome :=
  runStepIn input cwd toScreen maxNesting step

/-! ## Pipelines -/

/-- The text of a line, unless it is meant for the screen only. -/
def pipedText? : Line → Option String
  | .text s => some s
  | _ => none

/-- Whether a line shows a question and its answer. -/
def isEcho : Line → Bool
  | .echo _ => true
  | _ => false

/-- A pipeline on its way: what the next step reads, and what the steps so far show on the
screen. -/
structure Flow where
  input : List String := []
  shown : List Line := []

/-- Runs the step whose turn it is and moves to the working directory that it asks for. -/
def runOne (flow : Flow) (toScreen : Bool) (step : Step) : Job Outcome := do
  let o ← runStep flow.input (← Job.terminal).cwd toScreen step
  match o.cwd? with
  | some path => Job.setTerminal (·.changeDirectory path)
  | none => pure ()
  pure o

/-- Writes what a redirected step printed to its target. An error empties or creates the file and
stays on the screen. -/
def redirect (target : Target) (o : Outcome) (shown : List Line) : Job Outcome := do
  let t ← Job.terminal
  let user? := some t.user
  let path ← Job.ask (·.resolve target.path user? (some t.cwd))
  let content := if o.error then "" else Text.joinLines (o.output.filterMap pipedText?)
  let shown := shown ++ if o.error then o.output else o.output.filter isEcho
  let existing? ← Job.ask fun s => s.nodeAt path user?
  if existing?.any (·.isDir) then
    return (Outcome.fail s!"zsh: is a directory: {target.path}").after shown
  let written ← match target.mode with
    | .append =>
      if o.error && existing?.isSome then pure true
      else Job.act (Machine.appendFile path content user?)
    | .write => Job.act (Machine.overwriteFile path content user?)
  if !written then
    return (Outcome.failWith 1 s!"zsh: permission denied: {target.path}").after shown
  pure { output := shown, error := o.error, code? := o.code?, clearScreen := o.clearScreen }

/-- Runs the steps of a pipeline. Only text goes through a pipe; everything else stays on the
screen. -/
def runSteps (flow : Flow) : List Step → Job Outcome
  | [] => pure { output := flow.shown }
  | [step] => do
    let o ← runOne flow step.target?.isNone step
    match step.target? with
    | some target => redirect target o flow.shown
    | none => pure (o.after flow.shown)
  | step :: rest => do
    let o ← runOne flow false step
    runSteps {
      input := o.output.filterMap pipedText?
      shown := flow.shown ++ o.output.filter (pipedText? · |>.isNone) } rest

/-- What a command line came to. -/
structure Result where
  output : List Line := []
  code : Nat := 0
  error : Bool := false
  clearScreen : Bool := false
  deriving Repr, DecidableEq

/-- The result with the outcome of one more pipeline. -/
def Result.add (r : Result) (o : Outcome) : Result :=
  { output := if o.clearScreen then o.output else r.output ++ o.output
    code := o.code, error := o.error, clearScreen := r.clearScreen || o.clearScreen }

/-- Whether the pipelines after an operator are left out. -/
def cutsShort (code : Nat) : Option Control → Bool
  | some .and => code != 0
  | some .or => code == 0
  | _ => false

/-- Runs pipelines one after the other. -/
def runPipelines (r : Result) : List Pipeline → Job Result
  | [] => pure r
  | p :: rest => do
    let o ← runSteps {} p.steps
    let r := r.add o
    if cutsShort o.code p.operator? then pure r else runPipelines r rest

/-- Runs a command line, with its variables expanded. -/
def execute (line : String) : Job Result := do
  let expanded := (← Job.terminal).env.expand line
  runPipelines {} (parse expanded)

end SimUnix.Shell
