/-
Dates with a time of day, as nodes carry them, and their written forms.
-/
import SimUnix.Fault
import SimUnix.Time.Calendar

namespace SimUnix.Time

/-- A date and time of day at an offset from universal time. The offset is in microseconds; a stamp
without one says nothing about the place of its clock. -/
structure Stamp where
  /-- Seconds on the local clock since the start of 1970. -/
  seconds : Int
  micros : Nat := 0
  offset? : Option Int := some 0
  deriving Repr, DecidableEq, Inhabited

namespace Stamp

/-- The microseconds of universal time since the start of 1970, known only with an offset. -/
def universal? (s : Stamp) : Option Int :=
  s.offset?.map fun offset => s.seconds * 1000000 + s.micros - offset

/-- A span in whole seconds, the rest of a second dropped. The span is first rounded to a binary
fraction of 53 digits, so the last microsecond of a long span may count as a second. -/
def wholeSeconds (micros : Int) : Int :=
  let n := micros.natAbs
  let scale := 1 <<< (53 - ((n / 1000000).log2 + 1))
  let units := n * scale / 1000000
  let rest := n * scale % 1000000
  let rounded :=
    if 500000 < rest ∨ rest = 500000 ∧ units % 2 = 1 then units + 1 else units
  micros.sign * (rounded / scale : Nat)

/-- The whole seconds from one stamp to another. Stamps with and without an offset do not
compare. -/
def secondsSince (start s : Stamp) : Except Fault Int :=
  match start.universal?, s.universal? with
  | some a, some b => .ok (wholeSeconds (b - a))
  | none, none =>
    .ok (wholeSeconds ((s.seconds - start.seconds) * 1000000 + s.micros - start.micros))
  | _, _ => .error .wrongShape

/-- The date of a stamp on its own clock. -/
def date (s : Stamp) : Date := ofDayNumber (s.seconds / 86400)

/-- The seconds of a stamp since its last midnight. -/
def secondOfDay (s : Stamp) : Nat := (s.seconds % 86400).toNat

/-- A number with leading zeros up to a width. -/
def zeroPadded (width n : Nat) : String :=
  let digits := toString n
  String.ofList (List.replicate (width - digits.length) '0') ++ digits

/-- Hours, minutes and seconds with colons between them. -/
def clockText (seconds : Nat) : String :=
  zeroPadded 2 (seconds / 3600) ++ ":" ++ zeroPadded 2 (seconds / 60 % 60) ++ ":"
    ++ zeroPadded 2 (seconds % 60)

/-- The six digits of a fraction of a second, absent when it is zero. -/
def fractionText (micros : Nat) : String :=
  if micros = 0 then "" else "." ++ zeroPadded 6 micros

/-- The written form of an offset: hours and minutes, with seconds only where there are any. -/
def offsetText (micros : Int) : String :=
  let sign := if micros < 0 then "-" else "+"
  let n := micros.natAbs
  let seconds := n / 1000000
  let minutes := zeroPadded 2 (seconds / 3600) ++ ":" ++ zeroPadded 2 (seconds / 60 % 60)
  let rest :=
    if seconds % 60 = 0 ∧ n % 1000000 = 0 then ""
    else ":" ++ zeroPadded 2 (seconds % 60) ++ fractionText (n % 1000000)
  sign ++ minutes ++ rest

/-- The written form of a date. -/
def dateText (d : Date) : String :=
  zeroPadded 4 d.year.toNat ++ "-" ++ zeroPadded 2 d.month ++ "-" ++ zeroPadded 2 d.day

/-- The written form of a stamp. -/
def toText (s : Stamp) : String :=
  dateText s.date ++ "T" ++ clockText s.secondOfDay ++ fractionText s.micros
    ++ (match s.offset? with
      | none => ""
      | some offset => offsetText offset)

/-- The form in which a clock is shown: weekday, month, day, time, zone and year. -/
def displayText (s : Stamp) : String :=
  let d := s.date
  weekdayName (s.seconds / 86400) ++ " " ++ monthName d.month ++ " " ++ zeroPadded 2 d.day ++ " "
    ++ clockText s.secondOfDay ++ " UTC " ++ toString d.year

end Stamp

end SimUnix.Time
