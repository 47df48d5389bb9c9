/-
The terminal: the identities it acts under, its working directory and variables, its history, and
the channel through which a command asks for input. A terminal and the system it belongs to make a
`Station`.
-/
import SimUnix.Prompt
import SimUnix.Sessions
import SimUnix.Shell.Environment
import SimUnix.Machine.Lifecycle
import SimUnix.Terminal.History

namespace SimUnix

/-- A terminal. -/
structure Terminal where
  sessions : Sessions
  cwd : String
  env : Shell.Environment
  history : History
  prompt : Prompt := {}
  /-- The user has given a password for acting as root. -/
  sudoAuthorized : Bool := false
  closed : Bool := false
  /-- The host can start applications. -/
  launches : Bool := false
  /-- The host can close the window. -/
  closes : Bool := false
  /-- The applications started so far, and for whom. -/
  launched : List (String × String) := []
  /-- How often the host was asked to close the window. -/
  closeRequests : Nat := 0
  diagnosticShown : Bool := false
  deriving Repr, DecidableEq

/-- A terminal and the system it belongs to. -/
structure Station where
  machine : Machine
  terminal : Terminal
  deriving Repr, DecidableEq

namespace Terminal

/-- The acting user. -/
def user (t : Terminal) : String := t.sessions.current

/-- Changes the working directory. -/
def changeDirectory (t : Terminal) (path : String) : Terminal :=
  { t with cwd := path, env := t.env.set "PWD" path }

/-- The working directory as the prompt shows it: a tilde stands for the home directory. -/
def shownDirectory (t : Terminal) : String :=
  let home := (t.env.get? "HOME").getD ""
  if home != "" && home != Path.root && (t.cwd == home || Text.startsWith t.cwd (home ++ "/")) then
    "~" ++ Text.dropFirst home.length t.cwd
  else t.cwd

/-- The prompt of the terminal on a host of a name. -/
def promptText (t : Terminal) (hostname : String) : String :=
  let sign := if t.sessions.isRoot then "#" else "$"
  s!"{t.user}@{hostname}:{t.shownDirectory}{sign}"

end Terminal

namespace Machine

/-- Opens a terminal for a user, or for the user of the session, or for a guest. -/
def openTerminal (s : Machine) (user? : Option Json) (launches closes : Bool) :
    Except Fault Terminal := do
  let home ← (← s.homePath user?).asOwnText
  let user := (s.actor user?).plain
  let cwd := if ← s.pathExists home (some user) then home else Path.root
  let fresh : History := { user }
  let (result, history, _) := History.load.run (fresh, s.store)
  result
  .ok {
    sessions := { current := user }, cwd
    env := Shell.Environment.forSession user home cwd
    history, launches, closes }

end Machine

/-- A change of a station. What is done before a failure stays done. -/
abbrev Move := ExceptT Fault (StateM Station)

namespace Move

/-- Changes the terminal alone. -/
def terminal (change : Terminal → Terminal) : Move Unit :=
  modify fun s => { s with terminal := change s.terminal }

/-- Performs an action on the system. -/
def act {α : Type} (action : Act α) : Move α := do
  let s ← get
  let (result, machine) := action.run s.machine
  set { s with machine }
  match result with
  | .ok a => pure a
  | .error e => throw e

/-- Asks the system a question that may fail. -/
def ask {α : Type} (question : Machine → Except Fault α) : Move α := act (Act.ask question)

/-- Performs a change of the history. -/
def history (change : Remember Unit) : Move Unit := do
  let s ← get
  let (result, history, store) := change.run (s.terminal.history, s.machine.store)
  set ({ machine := { s.machine with store }, terminal := { s.terminal with history } } : Station)
  match result with
  | .ok () => pure ()
  | .error e => throw e

end Move

namespace Station

/-- The prompt of the terminal. -/
def promptText (s : Station) : Except Fault String := do
  .ok (s.terminal.promptText (← s.machine.hostname))

/-- Brings history and variables in step with the acting user. -/
def followUser : Move Unit := do
  let user := (← get).terminal.user
  Move.history (History.switch user)
  let home ← Move.ask (·.homePath (some user))
  Move.terminal fun t => { t with env := (t.env.set "USER" user).set "HOME" home.plain }

/-- Acts as a user until the session is closed. -/
def pushSession (user : String) : Move Unit := do
  Move.terminal fun t => { t with sessions := t.sessions.push user }
  followUser

/-- Closes a session; false if it cannot be closed. -/
def closeSession (position? : Option Int) : Move Bool := do
  match (← get).terminal.sessions.close position? with
  | none => pure false
  | some (_, sessions) =>
    Move.terminal fun t => { t with sessions }
    followUser
    pure true

/-- Shows why the system is in safe mode, once. -/
def showDiagnostic : Move Unit := do
  let s ← get
  if !s.terminal.diagnosticShown && !s.machine.diagnostic.isEmpty then
    Move.terminal fun t => { t with diagnosticShown := true }
    Move.history (History.add { output := [.banner s.machine.diagnostic .error], error := true })

/-- Checks the integrity of the system, and shows why it is in safe mode if it is. -/
def start : Move Unit := do
  if (← get).machine.safeMode then showDiagnostic
  let report ← Move.act Machine.checkIntegrity
  if !report.valid then showDiagnostic

/-- Gives up the line being typed. -/
def interrupt (input : String) : Move Block := do
  match (← get).promptText with
  | .error e => throw e
  | .ok prompt =>
    let b : Block := { command := .str (input ++ "^C"), prompt := .str prompt }
    Move.history (History.add b)
    Move.history (History.record "")
    pure b

end Station

end SimUnix
