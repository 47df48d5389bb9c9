/-
Reading search patterns. A repetition needs something before it that is neither a condition on a
place nor itself repeated; a brace that starts no repetition stands for itself.
-/
import SimUnix.Pattern.Basic
import SimUnix.Text.Reading

namespace SimUnix.Pattern

open Text (Reading)

/-- A plain digit. -/
def isPlainDigit (c : Char) : Bool := '0' ≤ c && c ≤ '9'

/-- The numbers of rounds that can be asked for are below this one. -/
def countLimit : Nat := 4294967295

/-- The class that a letter after a backslash names; a capital means all other characters. -/
def classOf? (c : Char) : Option SetItem :=
  if c = 'd' then some (.named .digit false)
  else if c = 'D' then some (.named .digit true)
  else if c = 's' then some (.named .blank false)
  else if c = 'S' then some (.named .blank true)
  else if c = 'w' then some (.named .word false)
  else if c = 'W' then some (.named .word true)
  else none

/-- The character that a letter after a backslash stands for. Any character that is neither an ASCII
letter nor a digit stands for itself. -/
def escaped? (c : Char) : Option Char :=
  if c = 'n' then some '\n'
  else if c = 't' then some '\t'
  else if c = 'r' then some '\r'
  else if c = 'a' then some (Char.ofNat 7)
  else if c = 'v' then some (Char.ofNat 11)
  else if c = 'f' then some (Char.ofNat 12)
  else if c.isAlphanum then none
  else some c

/-- The condition that a letter after a backslash names. -/
def anchorOf? (c : Char) : Option Anchor :=
  if c = 'A' then some .start
  else if c = 'Z' then some .finish
  else if c = 'b' then some (.wordEdge false)
  else if c = 'B' then some (.wordEdge true)
  else none

/-! ## Sets -/

/-- Reads one member of a set: a character, or a class after a backslash. -/
def readMember : List Char → Option (SetItem × List Char)
  | [] => none
  | '\\' :: c :: rest =>
    match classOf? c with
    | some item => some (item, rest)
    | none =>
      if c = 'b' then some (.one (Char.ofNat 8), rest)
      else (escaped? c).map fun d => (.one d, rest)
  | ['\\'] => none
  | c :: rest => some (.one c, rest)

/-- The range between two members, which must be characters in order. -/
def rangeOf? : SetItem → SetItem → Option SetItem
  | .one a, .one b => if a ≤ b then some (.range a b) else none
  | _, _ => none

/-- Reads the members of a set up to its closing bracket. A bracket right at the start is a
member. -/
def readSet : Nat → List SetItem → List Char → Option (List SetItem × List Char)
  | 0, _, _ => none
  | fuel + 1, items, cs =>
    match cs with
    | [] => none
    | c :: rest =>
      if c = ']' ∧ items ≠ [] then some (items, rest)
      else do
        let (a, rest) ← readMember cs
        match rest with
        | '-' :: ']' :: rest => some (items ++ [a, .one '-'], rest)
        | '-' :: rest => do
          let (b, rest) ← readMember rest
          let r ← rangeOf? a b
          readSet fuel (items ++ [r]) rest
        | rest => readSet fuel (items ++ [a]) rest

/-! ## Repetitions -/

/-- How often something is repeated. -/
structure Bounds where
  least : Nat
  most? : Option Nat

/-- The bound that plain digits write, if there are any. -/
def readBound (ds : List Char) : Except Fault (Option Nat) :=
  if ds.isEmpty then .ok none
  else if Text.maxDigits < ds.length then .error (.badValue (.digits ds.length))
  else
    let n := ds.foldl (fun n d => 10 * n + (d.toNat - 48)) 0
    if n < countLimit then .ok (some n) else .error .overflow

/-- The bounds that the digits between braces write: the least number of rounds and the most. -/
def boundsOf (low high : List Char) : Except Fault Bounds := do
  let least? ← readBound low
  let most? ← readBound high
  .ok { least := least?.getD 0, most? }

/-- Reads the bounds between braces, after the opening one. A single number is both bounds. -/
def readBraces (cs : List Char) : Except Fault (Option (Bounds × List Char)) :=
  let low := cs.takeWhile isPlainDigit
  match cs.dropWhile isPlainDigit with
  | '\x7d' :: rest =>
    if low.isEmpty then .ok none else (boundsOf low low).map fun b => some (b, rest)
  | ',' :: rest =>
    match rest.dropWhile isPlainDigit with
    | '\x7d' :: tail =>
      (boundsOf low (rest.takeWhile isPlainDigit)).map fun b => some (b, tail)
    | _ => .ok none
  | _ => .ok none

/-- Reads a repetition sign, if one stands at the start. -/
def readBounds : List Char → Except Fault (Option (Bounds × List Char))
  | '*' :: rest => .ok (some ({ least := 0, most? := none }, rest))
  | '+' :: rest => .ok (some ({ least := 1, most? := none }, rest))
  | '?' :: rest => .ok (some ({ least := 0, most? := some 1 }, rest))
  | '\x7b' :: rest => readBraces rest
  | _ => .ok none

/-- What follows a repetition sign: the mark that asks for as few rounds as possible makes no
difference to whether there is a match. -/
def skipLazy : List Char → List Char
  | '?' :: rest => rest
  | rest => rest

/-- The repetition of a pattern, if its bounds are in order. -/
def repeated? (body : Pattern) (b : Bounds) : Option Pattern :=
  if b.most?.any (· < b.least) then none else some (.rep body b.least b.most?)

/-- Whether a repetition sign stands at the start. -/
def isRepeated (cs : List Char) : Reading Bool :=
  Reading.ofExcept ((readBounds cs).map Option.isSome)

/-- Adds the repetition sign that may follow a pattern. There may be only one. -/
def readRepetition (body : Pattern) (cs : List Char) : Reading (Pattern × List Char) := do
  match ← Reading.ofExcept (readBounds cs) with
  | none => pure (body, cs)
  | some (b, rest) =>
    match repeated? body b with
    | none => failure
    | some p =>
      let rest := skipLazy rest
      if ← isRepeated rest then failure else pure (p, rest)

/-! ## Patterns -/

/-- A condition on a place, which cannot be repeated. -/
def readAnchor (a : Anchor) (rest : List Char) : Reading (Pattern × List Char) := do
  if ← isRepeated rest then failure else pure (.anchor a, rest)

mutual
/-- Reads alternatives up to the end or a closing parenthesis. -/
def readAlternatives : Nat → List Char → Reading (Pattern × List Char)
  | 0, _ => failure
  | fuel + 1, cs => do
    let (left, rest) ← readSequence fuel cs
    match rest with
    | '|' :: rest => do
      let (right, rest) ← readAlternatives fuel rest
      pure (.alt left right, rest)
    | rest => pure (left, rest)

/-- Reads a sequence up to the end, a bar or a closing parenthesis. -/
def readSequence : Nat → List Char → Reading (Pattern × List Char)
  | 0, _ => failure
  | fuel + 1, cs =>
    match cs with
    | [] => pure (.empty, [])
    | c :: _ =>
      if c = '|' ∨ c = ')' then pure (.empty, cs)
      else do
        let (first, rest) ← readPiece fuel cs
        let (second, rest) ← readSequence fuel rest
        pure (.seq first second, rest)

/-- Reads one piece of a sequence with the repetition after it. -/
def readPiece : Nat → List Char → Reading (Pattern × List Char)
  | 0, _ => failure
  | fuel + 1, cs =>
    match cs with
    | [] => failure
    | c :: rest => do
      if ← isRepeated cs then failure
      else if c = '^' then readAnchor .start rest
      else if c = '$' then readAnchor .lineEnd rest
      else if c = '.' then readRepetition .any rest
      else if c = '(' then do
        let (body, rest) ← readGroup fuel rest
        readRepetition body rest
      else if c = '[' then do
        let negated := rest.head? = some '^'
        let members := if negated then rest.drop 1 else rest
        let (items, rest) ← Reading.ofOption (readSet (members.length + 1) [] members)
        readRepetition (.set negated items) rest
      else if c = '\\' then
        match rest with
        | [] => failure
        | e :: rest =>
          match anchorOf? e, classOf? e, escaped? e with
          | some a, _, _ => readAnchor a rest
          | none, some item, _ => readRepetition (.set false [item]) rest
          | none, none, some d => readRepetition (.char d) rest
          | none, none, none => failure
      else readRepetition (.char c) rest

/-- Reads the inside of a group and its closing parenthesis. -/
def readGroup : Nat → List Char → Reading (Pattern × List Char)
  | 0, _ => failure
  | fuel + 1, cs => do
    let inner ← match cs with
      | '?' :: ':' :: rest => pure rest
      | '?' :: _ => failure
      | cs => pure cs
    match ← readAlternatives fuel inner with
    | (p, ')' :: rest) => pure (p, rest)
    | _ => failure
end

/-- The pattern that a text writes, if it is in order. -/
def parse (text : String) : Except Fault (Option Pattern) :=
  let cs := text.toList
  (readAlternatives (4 * cs.length + 4) cs).whole? List.isEmpty

end SimUnix.Pattern
