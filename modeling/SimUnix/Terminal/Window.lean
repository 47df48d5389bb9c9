/-
A terminal as its host sees it: lines go in, and a finished block or a question comes out. The
command that asked the question waits for the next line, whatever else happens to the system in the
meantime.
-/
import SimUnix.Shell.Execution

namespace SimUnix

/-- A block that a line has led to, and the exit code of the line. -/
structure Finished where
  block : Block
  /-- The exit code; a blank line has none. -/
  code? : Option Nat := none
  cleared : Bool := false

/-- A terminal and the command that waits in it. -/
structure Window where
  terminal : Terminal
  waiting? : Option (Option String → Station → Progress Finished) := none

/-- What a line has led to. -/
inductive Response where
  | finished (f : Finished) (closed : Bool)
  | asks (message : String) (kind : PromptKind)

namespace Window

/-- Puts the block of a line that was run into the scrollback. -/
def conclude (line prompt : String) (r : Shell.Result) : Job Finished := do
  let block : Block := {
    command := .str line, output := r.output, error := r.error, prompt := .str prompt }
  if r.clearScreen then Job.move (Move.history History.clear)
  if !r.clearScreen || !r.output.isEmpty then Job.move (Move.history (History.add block))
  pure { block, code? := some r.code, cleared := r.clearScreen }

/-- Runs a line and puts its block into the scrollback. -/
def runLine (line prompt : String) : Job Finished := do conclude line prompt (← Shell.execute line)

/-- The window and system after a command has got somewhere. -/
def settle : Progress Finished → Except Fault Response × Window × Machine
  | .done f s => (.ok (.finished f s.terminal.closed), { terminal := s.terminal }, s.machine)
  | .failed e s => (.error e, { terminal := s.terminal }, s.machine)
  | .waiting s resume =>
    (.ok (.asks s.terminal.prompt.message s.terminal.prompt.kind),
      { terminal := s.terminal, waiting? := some resume }, s.machine)

/-- Remembers a line that was typed; the result is the prompt that stood before it. -/
def receive (line : String) : Job String := do
  Job.move (Move.history (History.record line))
  fun s => Job.ofExcept s.promptText s

/-- Puts a block without a line into the scrollback. -/
def pass (prompt : String) : Job Finished := do
  let block : Block := { prompt := .str prompt }
  Job.move (Move.history (History.add block))
  pure { block }

/-- Starts a line: it is remembered, and run unless it is blank. -/
def startLine (line : String) : Job Finished := do
  let prompt ← receive line
  if Text.allBlank line then pass prompt else runLine line prompt

/-- Takes a line: as the answer to the question that waits, or as a command line. -/
def submit (w : Window) (s : Machine) (line : String) : Except Fault Response × Window × Machine :=
  let station : Station := { machine := s, terminal := w.terminal }
  match if w.terminal.prompt.active then w.waiting? else none with
  | some resume => settle (resume (some line) station)
  | none => settle (startLine line station)

/-- Gives up the command that waits; false if there is none. -/
def abandon (w : Window) (s : Machine) : Bool × Window × Machine :=
  match if w.terminal.prompt.active then w.waiting? else none with
  | some resume =>
    let (_, w, s) := settle (resume none { machine := s, terminal := w.terminal })
    (true, { w with waiting? := none }, s)
  | none => (false, w, s)

/-- Whether a command waits. -/
def busy (w : Window) : Bool := w.waiting?.isSome

end Window

end SimUnix
