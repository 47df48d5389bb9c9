/-
Reading the written form of stored values. Blanks may stand between tokens, a key that is written
twice keeps its first place and its last value, and a text holds no bare control character.
-/
import SimUnix.Json.Basic
import SimUnix.Keyed
import SimUnix.Text.Digit
import SimUnix.Text.Reading

namespace SimUnix.Json

open Text (Reading)

/-- The four characters that may stand between tokens. -/
def isSpace (c : Char) : Bool := c == ' ' || c == '\n' || c == '\r' || c == '\t'

/-- What follows the spaces at the start. -/
def skipSpace (cs : List Char) : List Char := cs.dropWhile isSpace

/-- The value of a hexadecimal digit. -/
def hexValue? (c : Char) : Option Nat :=
  if '0' ≤ c ∧ c ≤ '9' then some (c.toNat - 48)
  else if 'a' ≤ c ∧ c ≤ 'f' then some (c.toNat - 87)
  else if 'A' ≤ c ∧ c ≤ 'F' then some (c.toNat - 55)
  else none

/-- Reads the four hexadecimal digits of an escaped unit. -/
def readUnit : List Char → Option (Nat × List Char)
  | a :: b :: c :: d :: rest => do
    let a ← hexValue? a
    let b ← hexValue? b
    let c ← hexValue? c
    let d ← hexValue? d
    some (((a * 16 + b) * 16 + c) * 16 + d, rest)
  | _ => none

/-- The character that a one-letter escape stands for. -/
def simpleEscape? (c : Char) : Option Char :=
  if c = '"' ∨ c = '\\' ∨ c = '/' then some c
  else if c = 'n' then some '\n'
  else if c = 'r' then some '\r'
  else if c = 't' then some '\t'
  else if c = 'b' then some (Char.ofNat 8)
  else if c = 'f' then some (Char.ofNat 12)
  else none

/-- Reads the escaped units of one character; two units of a pair make one character. -/
def readEscapedUnits (cs : List Char) : Option (Char × List Char) := do
  let (high, rest) ← readUnit cs
  match rest with
  | '\\' :: 'u' :: rest' =>
    match readUnit rest' with
    | some (low, rest'') =>
      if 0xD800 ≤ high ∧ high < 0xDC00 ∧ 0xDC00 ≤ low ∧ low < 0xE000 then
        some (Char.ofNat (0x10000 + (high - 0xD800) * 0x400 + (low - 0xDC00)), rest'')
      else some (Char.ofNat high, rest)
    | none => some (Char.ofNat high, rest)
  | _ => some (Char.ofNat high, rest)

/-- Reads the inside of a text up to its closing quote. -/
def readText : Nat → List Char → Option (List Char × List Char)
  | 0, _ => none
  | _ + 1, [] => none
  | fuel + 1, c :: rest =>
    if c = '"' then some ([], rest)
    else if c = '\\' then
      match rest with
      | 'u' :: rest' => do
        let (x, rest'') ← readEscapedUnits rest'
        let (xs, tail) ← readText fuel rest''
        some (x :: xs, tail)
      | e :: rest' => do
        let x ← simpleEscape? e
        let (xs, tail) ← readText fuel rest'
        some (x :: xs, tail)
      | [] => none
    else if c.toNat < 32 then none
    else do
      let (xs, tail) ← readText fuel rest
      some (c :: xs, tail)

/-- A decimal digit of plain numbers. -/
def isAsciiDigit (c : Char) : Bool := '0' ≤ c && c ≤ '9'

/-- The number written by a run of digits. -/
def digitsValue (ds : List Char) : Nat := ds.foldl (fun n d => 10 * n + (d.toNat - 48)) 0

/-- Reads a whole number without a sign: a zero stands alone, and the digits are limited in
number. -/
def readNat : List Char → Reading (Nat × List Char)
  | '0' :: rest => pure (0, rest)
  | cs =>
    match cs.takeWhile isAsciiDigit with
    | [] => failure
    | ds =>
      if Text.maxDigits < ds.length then Reading.fault (.badValue (.digits ds.length))
      else pure (digitsValue ds, cs.dropWhile isAsciiDigit)

/-- Reads a whole number. -/
def readInt : List Char → Reading (Int × List Char)
  | '-' :: rest => do
    let (n, rest) ← readNat rest
    pure (-(n : Int), rest)
  | cs => do
    let (n, rest) ← readNat cs
    pure ((n : Int), rest)

/-- Reads a given word. -/
def readWord (word : List Char) (cs : List Char) : Option (List Char) :=
  if word.isPrefixOf cs then some (cs.drop word.length) else none

/-- Reads a given word, which stands for a value. -/
def readConstant (word : String) (value : Json) (cs : List Char) : Reading (Json × List Char) :=
  Reading.ofOption ((readWord word.toList cs).map fun rest => (value, rest))

/-- How deep lists and records may lie in one another. -/
def maxDepth : Nat := 994

mutual
/-- Reads a value that starts at the first character, `depth` more levels being allowed. -/
def readValue : Nat → Nat → List Char → Reading (Json × List Char)
  | 0, _, _ => failure
  | fuel + 1, depth, cs =>
    match cs with
    | [] => failure
    | c :: rest =>
      if c = '"' then do
        let (s, rest) ← Reading.ofOption (readText (rest.length + 1) rest)
        pure (.str (String.ofList s), rest)
      else if c = '[' ∨ c = '\x7b' then
        match depth with
        | 0 => Reading.fault .endless
        | depth + 1 =>
          if c = '[' then
            match skipSpace rest with
            | ']' :: tail => pure (.arr [], tail)
            | rest => do
              let (items, rest) ← readItems fuel depth rest
              pure (.arr items, rest)
          else
            match skipSpace rest with
            | '\x7d' :: tail => pure (.obj [], tail)
            | rest => do
              let (fields, rest) ← readFields fuel depth [] rest
              pure (.obj fields, rest)
      else if c = 'n' then readConstant "null" .null cs
      else if c = 't' then readConstant "true" (.bool true) cs
      else if c = 'f' then readConstant "false" (.bool false) cs
      else do
        let (n, rest) ← readInt cs
        pure (.int n, rest)

/-- Reads the items of a list up to its closing bracket. -/
def readItems : Nat → Nat → List Char → Reading (List Json × List Char)
  | 0, _, _ => failure
  | fuel + 1, depth, cs => do
    let (x, rest) ← readValue fuel depth cs
    match skipSpace rest with
    | ']' :: tail => pure ([x], tail)
    | ',' :: rest => do
      let (xs, tail) ← readItems fuel depth (skipSpace rest)
      pure (x :: xs, tail)
    | _ => failure

/-- Reads the fields of a record, after those read so far, up to its closing bracket. -/
def readFields :
    Nat → Nat → List (String × Json) → List Char → Reading (List (String × Json) × List Char)
  | 0, _, _, _ => failure
  | fuel + 1, depth, read, cs =>
    match cs with
    | '"' :: rest => do
      let (key, rest) ← Reading.ofOption (readText (rest.length + 1) rest)
      match skipSpace rest with
      | ':' :: rest => do
        let (x, rest) ← readValue fuel depth (skipSpace rest)
        let read := Keyed.put read (String.ofList key) x
        match skipSpace rest with
        | '\x7d' :: tail => pure (read, tail)
        | ',' :: rest => readFields fuel depth read (skipSpace rest)
        | _ => failure
      | _ => failure
    | _ => failure
end

/-- Reads a text that holds one value and nothing else but spaces. -/
def parse (s : String) : Except Fault (Option Json) :=
  let cs := skipSpace s.toList
  (readValue (2 * cs.length + 1) maxDepth cs).whole? fun rest => (skipSpace rest).isEmpty

/-- The value that a text writes, if it does. -/
def parse? (s : String) : Option Json :=
  match parse s with
  | .ok value? => value?
  | .error _ => none

end SimUnix.Json
