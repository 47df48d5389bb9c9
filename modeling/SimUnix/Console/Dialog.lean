/-
The console: it starts the system, lets a user log in, takes command lines and answers one by one,
and stops the system at the end. `Dialog.next` is one step, from what was typed to what is printed.
-/
import SimUnix.Console.Format
import SimUnix.Terminal.Window

namespace SimUnix.Console

/-- What the user does where the console reads. -/
inductive Input where
  | line (s : String)
  | endOfInput
  | interrupt
  deriving Repr, DecidableEq

/-- How the console ends. -/
inductive Ending where
  | regular
  /-- The input ended during the login. -/
  | endOfInput
  /-- The login was interrupted. -/
  | interrupted
  | fault (cause : Fault)
  deriving Repr, DecidableEq

/-- What the console waits for. -/
inductive Stage where
  /-- A user name, after some failed attempts. -/
  | userName (failed : Nat)
  /-- The password for a user name. -/
  | password (failed : Nat) (user : String)
  /-- A command line. -/
  | command (w : Window)
  /-- The answer to a question. -/
  | answer (w : Window)
  /-- Nothing any more. -/
  | over (ending : Ending)

/-- A reading: what is shown before the input, and whether the input stays invisible. -/
structure Reading where
  prompt : String
  secret : Bool
  deriving Repr, DecidableEq

/-- The console at a point where it reads, or at its end. -/
structure Dialog where
  machine : Machine
  stage : Stage
  reading? : Option Reading

/-- A console and what it has printed to get there. -/
structure Printed where
  text : String
  dialog : Dialog

namespace Dialog

/-- How often a user may try to log in. -/
def maxAttempts : Nat := 3

/-- The console at its end. -/
def ended (s : Machine) (ending : Ending) (text : String) : Printed :=
  { text, dialog := { machine := s, stage := .over ending, reading? := none } }

/-- Ends the session: the system is stopped if it still runs. -/
def close (s : Machine) (ending : Ending) (text : String) : Printed :=
  let farewell := text ++ "Session closed.\n"
  if s.phase = .running then
    match Machine.shutdown.run s with
    | (.ok _, s) => ended s ending farewell
    | (.error e, s) => ended s (.fault e) text
  else ended s ending farewell

/-- Asks for a user name. -/
def askName (s : Machine) (failed : Nat) (text : String) : Printed :=
  match s.hostname with
  | .error e => ended s (.fault e) text
  | .ok host =>
    { text, dialog := {
        machine := s, stage := .userName failed
        reading? := some { prompt := s!"{host} login: ", secret := false } } }

/-- Asks for the next command line, unless the window is closed. -/
def askCommand (s : Machine) (w : Window) (text : String) : Printed :=
  if w.terminal.closed then close s .regular text
  else match Station.promptText { machine := s, terminal := w.terminal } with
    | .error e => close s (.fault e) text
    | .ok prompt =>
      { text, dialog := {
          machine := s, stage := .command w
          reading? := some { prompt := prompt ++ " ", secret := false } } }

/-- The text of a block that tells the user of a danger: one without a command line. -/
def alarmText (b : Block) : Except Fault String :=
  if b.error && !b.command.truthy then (blockText Block.storedWidth b).map (· ++ "\n")
  else .ok ""

/-- Opens the terminal of a user who is logged in. -/
def openFor (s : Machine) (user : Json) (text : String) : Printed :=
  match s.openTerminal (some user) true true with
  | .error e => ended s (.fault e) text
  | .ok terminal =>
    match Station.start.run { machine := s, terminal } with
    | (.error e, st) => close st.machine (.fault e) text
    | (.ok _, st) =>
      match (st.terminal.history.blocks.getLast?.map alarmText).getD (.ok "") with
      | .error e => close st.machine (.fault e) text
      | .ok alarm => askCommand st.machine { terminal := st.terminal } (text ++ alarm)

/-- Starts the system on a store that an earlier run has left. -/
def start (s : Machine) : Printed :=
  match Machine.boot.run s with
  | (.error e, s) => ended s (.fault e) ""
  | (.ok _, s) =>
    let text := bootText s.bootLog ++ "\n"
    if s.currentUser.truthy then openFor s s.currentUser text else askName s 0 text

/-- Goes on after a failed attempt to log in. -/
def loginFailed (s : Machine) (failed : Nat) : Printed :=
  let text := "Login incorrect\n"
  if failed + 1 < maxAttempts then askName s (failed + 1) text
  else match Machine.shutdown.run s with
    | (.ok _, s) => ended s .regular text
    | (.error e, s) => ended s (.fault e) text

/-- Tries to log a user in. -/
def logIn (s : Machine) (failed : Nat) (user password : String) : Printed :=
  match (Machine.login user password).run s with
  | (.error e, s) => ended s (.fault e) ""
  | (.ok false, s) => loginFailed s failed
  | (.ok true, s) => openFor s user ""

/-- What is printed for a line that has been run. -/
def finishedText (width : Int) (f : Finished) : Except Fault String := do
  let text ← blockText width f.block
  .ok ((if f.cleared then clearScreen else "") ++ if text = "" then "" else text ++ "\n")

/-- Goes on after a line has led to a block, a question or a fault. -/
def goOn (width : Int) : Except Fault Response × Window × Machine → Printed
  | (.error e, _, s) => close s (.fault e) ""
  | (.ok (.finished f _), w, s) =>
    match finishedText width f with
    | .error e => close s (.fault e) ""
    | .ok text => askCommand s w text
  | (.ok (.asks message kind), w, s) =>
    { text := "", dialog := {
        machine := s, stage := .answer w
        reading? := some { prompt := message ++ " ", secret := kind = .password } } }

/-- Takes what was typed at a command prompt. -/
def onCommand (width : Int) (s : Machine) (w : Window) : Input → Printed
  | .line line => goOn width (w.submit s line)
  | .endOfInput => close s .regular "\n"
  | .interrupt =>
    match (Station.interrupt "").run { machine := s, terminal := w.terminal } with
    | (.error e, st) => close st.machine (.fault e) "^C\n"
    | (.ok _, st) => askCommand st.machine { w with terminal := st.terminal } "^C\n"

/-- Takes what was typed in answer to a question. An interrupted answer is empty; at the end of
input the command is given up. -/
def onAnswer (width : Int) (s : Machine) (w : Window) : Input → Printed
  | .line line => goOn width (w.submit s line)
  | .interrupt => goOn width (w.submit s "")
  | .endOfInput =>
    let (_, _, s) := w.abandon s
    close s .regular "\n"

/-- How an input other than a line ends the login. -/
def loginEnding? : Input → Option Ending
  | .line _ => none
  | .endOfInput => some .endOfInput
  | .interrupt => some .interrupted

/-- Takes what was typed. -/
def next (width : Int) (d : Dialog) (typed : Input) : Printed :=
  match d.stage, typed with
  | .userName failed, .line line =>
    { text := "", dialog := {
        d with
        stage := .password failed (Text.trim line)
        reading? := some { prompt := "Password: ", secret := true } } }
  | .password failed user, .line line => logIn d.machine failed user line
  | .userName _, typed | .password _ _, typed =>
    ended d.machine ((loginEnding? typed).getD .regular) ""
  | .command w, typed => onCommand width d.machine w typed
  | .answer w, typed => onAnswer width d.machine w typed
  | .over ending, _ => ended d.machine ending ""

end Dialog

end SimUnix.Console
