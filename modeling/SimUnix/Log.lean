/-
The system log: entries with a level, a source and a user, of which only the newest are kept.
-/
import SimUnix.Json.Basic

namespace SimUnix

/-- The severity of a log entry. -/
inductive Level where
  | debug
  | info
  | warning
  | error
  deriving Repr, DecidableEq

namespace Level

/-- The rank of a level. -/
def rank : Level → Nat
  | debug => 0
  | info => 1
  | warning => 2
  | error => 3

/-- The name of a level. -/
def name : Level → String
  | debug => "DEBUG"
  | info => "INFO"
  | warning => "WARNING"
  | error => "ERROR"

/-- The levels in order of severity. -/
def all : List Level := [.debug, .info, .warning, .error]

/-- The capital of an ASCII letter; the dotless small i, whose capital is the plain one, counts with
them. -/
def capital (c : Char) : Char := if c = 'ı' then 'I' else c.toUpper

/-- The level of a name in any case. -/
def ofName? (s : String) : Option Level :=
  let key := String.ofList (s.toList.map capital)
  all.find? (·.name == key)

end Level

/-- The user of an entry that no user caused. -/
def systemUser : String := "system"

/-- A log entry. The user is a name, or what a restored session has in its place. -/
structure LogEntry where
  level : Level
  message : String
  source : String
  user : Json := systemUser
  deriving Repr, DecidableEq

/-- The line that shows an entry. -/
def LogEntry.text (e : LogEntry) : String := s!"[{e.level.name}] {e.source}: {e.message}"

/-- The log: its entries, oldest first, and how many it holds at most. -/
structure Log where
  capacity : Nat := 2000
  entries : List LogEntry := []
  deriving Repr, DecidableEq

namespace Log

/-- The capacities that can be asked for lie below this one. -/
def capacityLimit : Int := 9223372036854775808

/-- An empty log of a capacity, which may not be negative and must fit a word of the machine. -/
def ofCapacity (capacity : Int) : Except Fault Log :=
  if capacityLimit ≤ capacity ∨ capacity < -capacityLimit then .error .overflow
  else if capacity < 0 then .error (.badValue .capacity)
  else .ok { capacity := capacity.toNat }

/-- Adds an entry; beyond the capacity the oldest are dropped. -/
def add (log : Log) (e : LogEntry) : Log :=
  let entries := log.entries ++ [e]
  { log with entries := entries.drop (entries.length - log.capacity) }

/-- The entries of at least a level and of a source, each condition being optional. -/
def filter (log : Log) (least? : Option Level) (source? : Option String) : List LogEntry :=
  log.entries.filter fun e =>
    least?.all (fun l => l.rank ≤ e.level.rank) && source?.all (· == e.source)

/-- The log without its entries. -/
def clear (log : Log) : Log := { log with entries := [] }

end Log

end SimUnix
