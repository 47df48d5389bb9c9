/-
The channel between a command that waits for an answer and the host that collects it. It has room
for one question. `Prompt.Desk` follows the askers on one channel: each is promised an answer and
waits until the promise is settled, and whatever the host does, the askers then go on as far as they
can.
-/
import SimUnix.Json.Basic

namespace SimUnix

/-- How the host collects an answer: shown or masked. -/
inductive PromptKind where
  | text
  | password
  deriving Repr, DecidableEq

namespace PromptKind

/-- The name of a kind. -/
def name : PromptKind → String
  | text => "text"
  | password => "password"

/-- The kind that a value names. -/
def ofJson (value : Json) : Except Fault PromptKind :=
  match value with
  | .str "text" => .ok .text
  | .str "password" => .ok .password
  | value => .error (.badValue (.choice value.shown "PromptKind"))

end PromptKind

/-- The channel: whether a question waits, and the last question that was accepted. -/
structure Prompt where
  active : Bool := false
  message : String := ""
  kind : PromptKind := .text
  deriving Repr, DecidableEq

namespace Prompt

/-- Asks a question, unless one waits already. -/
def request (p : Prompt) (message : String) (kind : PromptKind) : Except Fault Prompt :=
  if p.active then .error (.misuse .promptPending) else .ok { active := true, message, kind }

/-- Takes the waiting question away, answered or abandoned. -/
def settle (p : Prompt) : Prompt := { p with active := false }

/-- What has become of the promise of an answer. -/
inductive Promise where
  | pending
  | kept (value : String)
  | broken
  deriving Repr, DecidableEq

/-- What became of a question. -/
inductive Fate where
  | waiting
  | answered (value : String)
  | cancelled
  | refused (cause : Fault)
  deriving Repr, DecidableEq

/-- How far an asker has got: it has yet to put its question, it waits for a promise of a number, or
it is through. -/
inductive Asker where
  | calling (message : String) (kind : PromptKind)
  | awaiting (promise : Nat)
  | answered (value : String)
  | cancelled
  | refused (cause : Fault)
  deriving Repr, DecidableEq

/-- What has become of an asker's question so far. -/
def Asker.fate : Asker → Fate
  | calling _ _ | awaiting _ => .waiting
  | answered value => .answered value
  | cancelled => .cancelled
  | refused cause => .refused cause

/-- How the asker ends who was promised an answer, once the promise is settled. -/
def Promise.ending? : Promise → Option Asker
  | pending => none
  | kept value => some (.answered value)
  | broken => some .cancelled

/-- Whether an asker can go on, given all promises. -/
def Asker.ready (promises : List Promise) : Asker → Bool
  | calling _ _ => true
  | awaiting p => (promises[p]?.bind Promise.ending?).isSome
  | answered _ | cancelled | refused _ => false

/-- A channel with all who have asked on it, in order. -/
structure Desk where
  /-- The promises made so far, by their numbers. -/
  promises : List Promise := []
  /-- The promise that the host has to settle. -/
  slot? : Option Nat := none
  message : String := ""
  kind : PromptKind := .text
  /-- The host has been told of a question and has not dealt with it. -/
  requested : Bool := false
  askers : List Asker := []
  deriving Repr, DecidableEq

namespace Desk

/-- The promise that the host can settle now. -/
def pending? (d : Desk) : Option Nat := d.slot?.filter fun p => d.promises[p]? = some .pending

/-- The channel as the host sees it. -/
def prompt (d : Desk) : Prompt :=
  { active := d.pending?.isSome, message := d.message, kind := d.kind }

/-- The fates of all questions. -/
def fates (d : Desk) : List Fate := d.askers.map Asker.fate

/-- One asker goes on. A question is put if the channel takes it, and then its asker waits for a new
promise; one whose promise is settled clears the slot and is through. -/
def turn (d : Desk) (i : Nat) : Desk :=
  match d.askers[i]? with
  | some (.calling message kind) =>
    match d.prompt.request message kind with
    | .ok prompt => {
        promises := d.promises ++ [.pending], slot? := some d.promises.length, requested := true
        message := prompt.message, kind := prompt.kind
        askers := d.askers.set i (.awaiting d.promises.length) }
    | .error cause => { d with askers := d.askers.set i (.refused cause) }
  | some (.awaiting p) =>
    match d.promises[p]?.bind Promise.ending? with
    | some ended => { d with slot? := none, askers := d.askers.set i ended }
    | none => d
  | _ => d

/-- The first asker that can go on. -/
def ready? (d : Desk) : Option Nat := d.askers.findIdx? (·.ready d.promises)

/-- Lets askers go on, one after the other, for so many turns at most. -/
def turns : Nat → Desk → Desk
  | 0, d => d
  | n + 1, d => match d.ready? with
    | some i => turns n (d.turn i)
    | none => d

/-- Lets askers go on until nobody can. Each has two turns: to put the question, and to take the
answer. -/
def settle (d : Desk) : Desk := d.turns (2 * d.askers.length)

/-- Someone starts to ask a question. -/
def ask (d : Desk) (message : String) (kind : PromptKind) : Desk :=
  settle { d with askers := d.askers ++ [.calling message kind] }

/-- Settles the pending promise, and tells whether there was one. -/
def finish (d : Desk) (outcome : Promise) : Bool × Desk :=
  match d.pending? with
  | some p =>
    (true, settle { d with promises := d.promises.set p outcome, requested := false })
  | none => (false, d.settle)

/-- Answers the waiting question. -/
def answer (d : Desk) (value : String) : Bool × Desk := d.finish (.kept value)

/-- Abandons the waiting question. -/
def cancel (d : Desk) : Bool × Desk := d.finish .broken

end Desk

end Prompt

end SimUnix
