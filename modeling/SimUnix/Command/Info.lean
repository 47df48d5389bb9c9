/-
The commands about the system as a whole: its name, the clock, the log, the command history, and
the way back to the factory state.
-/
import SimUnix.Command.Context

namespace SimUnix.Command

/-- The name of the system. -/
def systemName : String := "AuroraOS"

/-- The release of the system. -/
def systemRelease : String := "1.0.0"

/-- The machine that the system claims to run on. -/
def machine : String := "x86_64"

/-- Prints the name of the host. -/
def runHostname (_ : Context) : Job Outcome := do pure (.ok [← Job.ask Machine.hostname])

/-- Prints the clock. -/
def runDate (_ : Context) : Job Outcome := do pure (.ok [(← Job.machine).now.displayText])

/-- Prints what the system is. -/
def runUname (ctx : Context) : Job Outcome := do
  if ctx.args.contains "-a" then
    pure (.ok [s!"{systemName} {← Job.ask Machine.hostname} {systemRelease} {machine}"])
  else pure (.ok [systemName])

/-- Prints the command lines of the acting user, numbered. -/
def runHistory (_ : Context) : Job Outcome := do
  let commands := (← Job.terminal).history.commands
  pure (.ok (commands.zipIdx.map fun (line, i) =>
    Text.padLeft 5 (toString (i + 1)) ++ "  " ++ line.plain))

/-- Prints the log. -/
def runDmesg (ctx : Context) : Job Outcome := do
  let log := (← Job.machine).log
  let shown (least? : Option Level) : Outcome := .ok ((log.filter least? none).map LogEntry.text)
  match ctx.args with
  | [] => pure (shown none)
  | "-l" :: name :: _ =>
    match Level.ofName? name with
    | some level => pure (shown (some level))
    | none => pure (.fail s!"dmesg: unknown level '{name}'")
  | _ => pure (.fail dmesg.usageLine)

/-- Whether an answer agrees: in any case, with blanks around it or not. -/
def isYes (answer : String) : Bool :=
  let word := (Text.trim answer).map Char.toLower
  word == "y" || word == "yes"

/-- Goes back to the factory state, once the user has agreed. -/
def runReset (ctx : Context) : Job Outcome := do
  if ctx.user != rootName then return .fail "reset: permission denied (root only)"
  let e ← Job.askText "This will erase all data. Continue? [y/N]"
  if isYes e.answer then
    Job.act Machine.reset
    pure (Outcome.after (.ok ["System restored to factory defaults."]) [e.shown])
  else pure (Outcome.after (.ok ["reset: aborted"]) [e.shown])

end SimUnix.Command
