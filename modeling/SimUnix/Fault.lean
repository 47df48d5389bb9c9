/-
The causes for which an operation gives up, and the wording of each.
-/
import SimUnix.Text.Quoted

namespace SimUnix

/-- What is wrong with a value that has the right shape and the wrong content. -/
inductive BadValue where
  /-- A mode clause outside the mode language. -/
  | mode (clause : String)
  /-- A word that names no member of a closed set of choices; `shown` is the word as messages show
  it. -/
  | choice (shown set : String)
  /-- A text that is no date and time. -/
  | stamp (text : String)
  /-- A date and time with a part outside its range. -/
  | calendar (problem : String)
  /-- An offset from universal time of a day or more, in microseconds. -/
  | offset (micros : Int)
  /-- A child to be unlinked that its parent does not list. -/
  | unlisted
  /-- A log that would hold fewer than no entries. -/
  | capacity
  /-- A text that writes no number. -/
  | number (text : String)
  /-- A number written with too many digits. -/
  | digits (count : Nat)
  /-- A stored tree without the node it calls its root. -/
  | rootless
  deriving Repr, DecidableEq

/-- A span of time as messages show it: days, seconds and microseconds, each where it is not zero;
only the days are negative. -/
def spanText (micros : Int) : String :=
  let part (name : String) (n : Int) : List String := if n = 0 then [] else [s!"{name}={n}"]
  let seconds := micros / 1000000
  ", ".intercalate <| part "days" (seconds / 86400) ++ part "seconds" (seconds % 86400)
    ++ part "microseconds" (micros % 1000000)

/-- The wording for a bad value. -/
def BadValue.message : BadValue → String
  | mode clause => s!"invalid mode: '{clause}'"
  | choice shown set => s!"{shown} is not a valid {set}"
  | stamp text => "Invalid isoformat string: " ++ Text.quoted text
  | calendar problem => problem
  | offset micros =>
    "offset must be a timedelta strictly between -timedelta(hours=24) and timedelta(hours=24), "
      ++ s!"not datetime.timedelta({spanText micros})."
  | unlisted => "list.remove(x): x not in list"
  | capacity => "maxlen must be non-negative"
  | number text =>
    "invalid literal for int() with base 10: " ++ String.ofList ((Text.quoted text).toList.take 200)
  | digits count =>
    "Exceeds the limit (4300 digits) for integer string conversion: value has "
      ++ s!"{count} digits; use sys.set_int_max_str_digits() to increase the limit"
  | rootless => "Serialized tree has no root node"

/-- A request that the present state of a component forbids. -/
inductive Misuse where
  /-- Starting a system that is not down, in the given state. -/
  | boot (phase : String)
  /-- Stopping a system that is not running, in the given state. -/
  | shutdown (phase : String)
  /-- A second question while one waits for its answer. -/
  | promptPending
  deriving Repr, DecidableEq

/-- The wording for a misuse. -/
def Misuse.message : Misuse → String
  | boot phase => s!"Cannot boot: system is {phase}, expected shutdown"
  | shutdown phase => s!"Cannot shutdown: system is {phase}, expected running"
  | promptPending => "A prompt is already pending"

/-- Why an operation gives up without a result. -/
inductive Fault where
  /-- A look-up of a key that is not there; the key is in the form in which messages show it. -/
  | missing (shown : String)
  | badValue (cause : BadValue)
  | misuse (cause : Misuse)
  /-- A stored record whose text cannot be read. -/
  | corrupt (key file : String)
  /-- A value of a shape the operation cannot take. -/
  | wrongShape
  /-- A value that is no record where a record's fields are asked for. -/
  | noFields
  /-- A position outside a list. -/
  | outOfRange
  /-- A number that is too large for its purpose. -/
  | overflow
  /-- A name that is too long for a file. -/
  | unnameable
  /-- A walk that goes too deep: on links that run in a circle it never ends. -/
  | endless
  /-- The command was given up while it waited for an answer. -/
  | cancelled
  deriving Repr, DecidableEq

/-- The wording of a fault, where it has one. -/
def Fault.message : Fault → String
  | missing shown => shown
  | badValue cause => cause.message
  | misuse cause => cause.message
  | corrupt key file => s!"Corrupt record '{key}' in {file}"
  | wrongShape | noFields | outOfRange | overflow | unnameable | endless | cancelled => ""

end SimUnix
