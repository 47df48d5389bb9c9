/-
The commands that act on the terminal itself: changing directory, leaving a session, help, and the
developer mode.
-/
import SimUnix.Command.Context

namespace SimUnix.Command

/-- Changes the working directory; without an argument, to the home directory. -/
def runCd (ctx : Context) : Job Outcome := do
  let target := ctx.args.headD "~"
  let path ← ctx.resolve target
  match ← ctx.nodeAt path with
  | none => pure (.fail s!"cd: no such file or directory: {target}")
  | some n =>
    if !n.isDir then pure (.fail s!"cd: not a directory: {target}")
    else if ← Job.ask (·.can n .execute (some ctx.user)) then pure { cwd? := some path }
    else pure (.fail s!"cd: permission denied: {target}")

/-- Asks the host to close the window; false if it cannot. -/
def closeWindow : Job Bool := do
  if (← Job.terminal).closes then
    Job.setTerminal fun t => { t with closed := true, closeRequests := t.closeRequests + 1 }
    pure true
  else pure false

/-- Closes the session on top. -/
def closeTop : Job Unit := discard (Job.move (Station.closeSession none))

/-- Leaves the session on top, or closes the window. -/
def runExit (_ : Context) : Job Outcome := do
  if (← Job.terminal).sessions.depth = 1 then
    if ← closeWindow then pure (.ok [])
    else pure (.ok ["logout (no window context)"])
  else
    closeTop
    pure (.ok ["logout"])

/-- Leaves the session on top, or logs out of the system. -/
def runLogout (_ : Context) : Job Outcome := do
  if 1 < (← Job.terminal).sessions.depth then closeTop
  else
    Job.act Machine.logout
    discard closeWindow
  pure (.ok ["logout"])

/-- The column in which descriptions start. -/
def helpColumn : Nat := (all.map fun c => c.name.length).foldl max 0 + 2

/-- The lines that list all commands in order. -/
def helpLines : List String :=
  (all.mergeSort fun a b => Text.precedes a.name b.name).map fun c =>
    Text.padRight helpColumn c.name ++ c.entry.description

/-- Lists the commands, or explains one. -/
def runHelp (ctx : Context) : Job Outcome :=
  match ctx.args with
  | [] => pure (.ok helpLines)
  | name :: _ =>
    match named? name with
    | some c => pure (.ok [s!"{c.name} - {c.entry.description}", c.usageLine])
    | none => pure (.fail s!"help: no help topics match '{name}'")

/-- Switches the developer mode. -/
def runDevUnlock (ctx : Context) : Job Outcome := do
  if !(← Job.machine).accounts.isAdmin ctx.user then return .fail "dev-unlock: permission denied"
  Job.act do
    modify fun s => { s with developerMode := !s.developerMode }
    Act.flush
  let state := if (← Job.machine).developerMode then "enabled" else "disabled"
  Job.act (Act.log .info "shell" s!"developer mode {state}" ctx.user)
  pure (.ok [s!"Developer mode {state}."])

end SimUnix.Command
