/-
Reading stamps from ISO 8601 text: a date, and after any one character a time of day, with the
offset from universal time that the text gives, if it gives one. A date names a day of a month or
of a week; both parts may be written with or without marks between their numbers.
-/
import SimUnix.Time.Stamp

namespace SimUnix.Time.Stamp

/-- A plain digit. -/
def isPlainDigit (c : Char) : Bool := '0' ≤ c && c ≤ '9'

/-- Reads a number of exactly `width` digits. -/
def readDigits (width : Nat) (cs : List Char) : Option (Nat × List Char) :=
  let ds := cs.take width
  if ds.length = width ∧ ds.all isPlainDigit then
    some (ds.foldl (fun n d => 10 * n + (d.toNat - 48)) 0, cs.drop width)
  else none

/-! ## Dates -/

/-- The number of the Monday that begins the first week of a year, the one with the fourth of
January in it. -/
def firstMonday (year : Int) : Int :=
  let n := dayNumber { year, month := 1, day := 4 }
  n - (n + 3) % 7

/-- The number of weeks of a year. -/
def weeksInYear (year : Int) : Nat :=
  ((firstMonday (year + 1) - firstMonday year) / 7).toNat

/-- The date of a day of a week. The weeks of the year zero lie in no month. -/
def ofWeek (year week day : Nat) : Option Date :=
  if week = 0 ∨ weeksInYear year < week ∨ day = 0 ∨ 7 < day then none
  else if year = 0 then some { year := 1, month := 0, day }
  else some (ofDayNumber (firstMonday year + ((week - 1) * 7 + (day - 1) : Nat)))

/-- Whether the day of the week is written after a week without a mark, told by the run of digits
there: the times of day that may follow are written in pairs. -/
def endsWithDay (cs : List Char) : Bool :=
  let run := (cs.takeWhile isPlainDigit).length
  run == 1 || run != 0 && run % 2 == 0

/-- Reads the week of a year and the day in it, by default a Monday. After marks, a dash with two
digits begins a time of day. -/
def readWeek (year : Nat) (marks : Bool) (cs : List Char) : Option (Date × List Char) := do
  let (week, rest) ← readDigits 2 cs
  let dayFollows : Bool := match rest with
    | '-' :: _ :: d :: _ => marks && !isPlainDigit d
    | '-' :: _ => marks
    | rest => !marks && endsWithDay rest
  if dayFollows then
    let (day, rest) ← readDigits 1 (if marks then rest.drop 1 else rest)
    some (← ofWeek year week day, rest)
  else some (← ofWeek year week 1, rest)

/-- Reads a date: a year, and either a month and a day or a week and a day in it. -/
def readDate (cs : List Char) : Option (Date × List Char) := do
  let (year, rest) ← readDigits 4 cs
  match rest with
  | '-' :: 'W' :: rest => readWeek year true rest
  | 'W' :: rest => readWeek year false rest
  | '-' :: rest => do
    let (month, rest) ← readDigits 2 rest
    match rest with
    | '-' :: rest => do
      let (day, rest) ← readDigits 2 rest
      some ({ year, month, day }, rest)
    | _ => none
  | rest => do
    let (month, rest) ← readDigits 2 rest
    let (day, rest) ← readDigits 2 rest
    some ({ year, month, day }, rest)

/-! ## Times of day -/

/-- A time of day as it is written, with its parts not yet checked against their ranges. -/
structure Clock where
  hour : Nat
  minute : Nat := 0
  second : Nat := 0
  micros : Nat := 0

/-- A time of day in microseconds. -/
def Clock.total (c : Clock) : Nat :=
  ((c.hour * 60 + c.minute) * 60 + c.second) * 1000000 + c.micros

/-- What is found after a number of a time of day. -/
inductive AfterNumber where
  /-- Nothing more to read; `complete` unless one stray ASCII character stands there. -/
  | stop (complete : Bool)
  /-- Another number. -/
  | number (rest : List Char)
  /-- The fraction of the last number. -/
  | fraction (rest : List Char)

/-- A text counts as ended at a NUL. -/
def isEnded (cs : List Char) : Bool := cs.headD '\x00' == '\x00'

/-- Looks at what follows a number, in a time with or without colons between its numbers. -/
def afterNumber (colons : Bool) : List Char → Option AfterNumber
  | [] => some (.stop true)
  | [c] => if c.toNat < 128 then some (.stop (isEnded [c])) else none
  | c :: rest =>
    if colons && c == ':' then some (.number rest)
    else if c = '.' ∨ c = ',' then some (.fraction rest)
    else if colons then none
    else some (.number (c :: rest))

/-- Reads a fraction in microseconds: at least one digit, of which the first six count. The flag
tells whether the text ends there. -/
def readFraction (cs : List Char) : Option (Nat × Bool) := do
  let width := min 6 cs.length
  let (n, rest) ← readDigits width cs
  let (micros, _) ← readDigits 6 ((zeroPadded width n).toList ++ List.replicate (6 - width) '0')
  some (micros, isEnded (rest.dropWhile isPlainDigit))

/-- Reads hours, then minutes and seconds if they are there, either all with colons between them or
none, and a fraction after the last of them. A fraction counts as one of a second wherever it
stands, and after the seconds it needs no point. The flag tells whether the text ends there. -/
def readClock (cs : List Char) : Option (Clock × Bool) := do
  let fractionOf (clock : Clock) (rest : List Char) : Option (Clock × Bool) := do
    let (micros, ended) ← readFraction rest
    some ({ clock with micros }, ended)
  let (hour, rest) ← readDigits 2 cs
  let colons := rest.head? == some ':'
  match ← afterNumber colons rest with
  | .stop ended => some ({ hour }, ended)
  | .fraction rest => fractionOf { hour } rest
  | .number rest => do
    let (minute, rest) ← readDigits 2 rest
    match ← afterNumber colons rest with
    | .stop ended => some ({ hour, minute }, ended)
    | .fraction rest => fractionOf { hour, minute } rest
    | .number rest => do
      let (second, rest) ← readDigits 2 rest
      match ← afterNumber colons rest with
      | .stop ended => some ({ hour, minute, second }, ended)
      | .number rest | .fraction rest => fractionOf { hour, minute, second } rest

/-- The offset that a mark and a time of day write. One below a second is none. -/
def offsetOf (mark : Char) (c : Clock) : Int :=
  if c.total < 1000000 then 0 else if mark = '-' then -(c.total : Int) else c.total

/-- Reads a time of day and the offset after it: a signed one, or the letter of universal time at
the very end. Before an offset the time may end in a stray ASCII character. -/
def readTime (cs : List Char) : Option (Clock × Option Int) := do
  let isMark (c : Char) : Bool := c == '-' || c == '+' || c == 'Z'
  let (clock, ended) ← readClock (cs.takeWhile (!isMark ·))
  match cs.dropWhile (!isMark ·) with
  | [] => if ended then some (clock, none) else none
  | 'Z' :: rest => if isEnded rest then some (clock, some 0) else none
  | mark :: zone => do
    let (offset, ended) ← readClock zone
    if ended then some (clock, some (offsetOf mark offset)) else none

/-! ## Stamps -/

/-- Checks the offset, which stays below a day, and then the ranges of the parts of a date and
time, the largest part first. -/
def checked (d : Date) (c : Clock) (offset? : Option Int) : Except Fault Stamp :=
  let bad (problem : String) : Except Fault Stamp := .error (.badValue (.calendar problem))
  let offset := offset?.getD 0
  if 86400 * 1000000 ≤ offset.natAbs then .error (.badValue (.offset offset))
  else if d.year = 0 ∨ 9999 < d.year then bad s!"year {d.year} is out of range"
  else if d.month = 0 ∨ 12 < d.month then bad "month must be in 1..12"
  else if d.day = 0 ∨ daysInMonth d.year d.month < d.day then bad "day is out of range for month"
  else if 23 < c.hour then bad "hour must be in 0..23"
  else if 59 < c.minute then bad "minute must be in 0..59"
  else if 59 < c.second then bad "second must be in 0..59"
  else .ok {
    seconds := dayNumber d * 86400 + ((c.hour * 60 + c.minute) * 60 + c.second : Nat)
    micros := c.micros
    offset? }

/-- Reads the written form of a stamp: a date, and after any one character a time of day. A date
alone stands for its midnight. -/
def parse (s : String) : Except Fault Stamp :=
  let bad : Except Fault Stamp := .error (.badValue (.stamp s))
  match readDate s.toList with
  | none => bad
  | some (d, []) => checked d { hour := 0 } none
  | some (d, _ :: time) =>
    match readTime time with
    | none => bad
    | some (clock, offset?) => checked d clock offset?

end SimUnix.Time.Stamp
