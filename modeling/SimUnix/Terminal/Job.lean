/-
Commands as programs that may stop to ask for input. A `Job` runs on a station until it is done,
gives up, or waits for an answer; while it waits, the station may change, and it goes on from what
the station is then.
-/
import SimUnix.Terminal.Basic

namespace SimUnix

/-- How far a job has got. A waiting job goes on with an answer, or with none when it is given
up. -/
inductive Progress (α : Type) where
  | done (result : α) (station : Station)
  | failed (cause : Fault) (station : Station)
  | waiting (station : Station) (resume : Option String → Station → Progress α)

/-- A program that runs on a station. -/
def Job (α : Type) : Type := Station → Progress α

/-- A question that was answered: the answer, and the line that shows both. -/
structure Exchange where
  answer : String
  shown : Line

namespace Progress

/-- Goes on with another job when this one is done. -/
def bind {α β : Type} : Progress α → (α → Job β) → Progress β
  | done a s, f => f a s
  | failed e s, _ => failed e s
  | waiting s resume, f => waiting s fun reply s => (resume reply s).bind f

/-- Changes the station when a job is over, whatever way it ended. If that fails, the job has
failed. -/
def always {α : Type} (cleanup : Move Unit) : Progress α → Progress α
  | done a s =>
    match cleanup.run s with
    | (.ok (), s) => done a s
    | (.error e, s) => failed e s
  | failed cause s =>
    match cleanup.run s with
    | (.ok (), s) => failed cause s
    | (.error e, s) => failed e s
  | waiting s resume => waiting s fun reply s => (resume reply s).always cleanup

end Progress

namespace Job

instance : Monad Job where
  pure a := fun s => .done a s
  bind job f := fun s => (job s).bind f

/-- Gives up. -/
def fail {α : Type} (cause : Fault) : Job α := fun s => .failed cause s

/-- The station as it is. -/
def station : Job Station := fun s => .done s s

/-- The system as it is. -/
def machine : Job Machine := fun s => .done s.machine s

/-- The terminal as it is. -/
def terminal : Job Terminal := fun s => .done s.terminal s

/-- Changes the terminal. -/
def setTerminal (change : Terminal → Terminal) : Job Unit :=
  fun s => .done () { s with terminal := change s.terminal }

/-- Brings a result into a job. -/
def ofExcept {α : Type} : Except Fault α → Job α
  | .ok a => pure a
  | .error e => fail e

/-- Asks the system a question that may fail. -/
def ask {α : Type} (question : Machine → Except Fault α) : Job α :=
  fun s => ofExcept (question s.machine) s

/-- Performs a change of the station. -/
def move {α : Type} (change : Move α) : Job α := fun s =>
  let (result, s) := change.run s
  ofExcept result s

/-- Performs an action on the system. -/
def act {α : Type} (action : Act α) : Job α := move (Move.act action)

/-- Stops until the host answers a question. -/
def request (message : String) (kind : PromptKind) : Job String := fun s =>
  match s.terminal.prompt.request message kind with
  | .error e => .failed e s
  | .ok prompt =>
    .waiting { s with terminal := { s.terminal with prompt } } fun reply s =>
      let s := { s with terminal := { s.terminal with prompt := s.terminal.prompt.settle } }
      match reply with
      | some answer => .done answer s
      | none => .failed .cancelled s

/-- What is shown in the place of a password. -/
def mask : String := "********"

/-- Asks for a password; the answer is shown masked. -/
def askPassword (message : String) : Job Exchange := do
  let answer ← request message .password
  pure { answer, shown := .echo s!"{message} {mask}" }

/-- Asks for a line of text. -/
def askText (message : String) : Job Exchange := do
  let answer ← request message .text
  pure { answer, shown := .echo s!"{message} {answer}" }

/-- Changes the station when a job is over, whatever way it ended. -/
def always {α : Type} (job : Job α) (cleanup : Move Unit) : Job α :=
  fun s => (job s).always cleanup

end Job

end SimUnix
