/-
Search patterns and what they match. A pattern takes a place in a text to the places where a match
that starts there may end; `found` asks for a match anywhere.
-/
import SimUnix.Text.Alphanumeric
import SimUnix.Text.Blank
import SimUnix.Text.CaseFold
import SimUnix.Text.Digit

namespace SimUnix

/-- A class of characters with a name of its own. -/
inductive CharClass where
  | digit
  | blank
  | word
  deriving Repr, DecidableEq

/-- Whether a character belongs to a class. -/
def CharClass.has : CharClass → Char → Bool
  | digit => Text.isDecimal
  | blank => Text.isBlank
  | word => Text.isWordChar

/-- An item of a set of characters. -/
inductive SetItem where
  | one (c : Char)
  | range (first last : Char)
  | named (cls : CharClass) (negated : Bool)
  deriving Repr, DecidableEq

/-- A condition on a place in a text. -/
inductive Anchor where
  | start
  | finish
  /-- The end of the text, or the place before a line feed that ends it. -/
  | lineEnd
  /-- A word on one side only; negated, on both or none. An empty text has neither. -/
  | wordEdge (negated : Bool)
  deriving Repr, DecidableEq

/-- A search pattern. -/
inductive Pattern where
  | empty
  /-- Any character but a line feed. -/
  | any
  | set (negated : Bool) (items : List SetItem)
  | anchor (a : Anchor)
  | seq (first second : Pattern)
  | alt (left right : Pattern)
  | rep (body : Pattern) (least : Nat) (most? : Option Nat)
  deriving Repr

namespace Pattern

/-- A single character as a pattern. -/
def char (c : Char) : Pattern := .set false [.one c]

/-- A place in a text: the character before it, and what follows it. -/
structure Place where
  before? : Option Char
  after : List Char
  deriving Repr, DecidableEq

/-- Whether a character matches an item of a set; case may be made not to count. -/
def itemHas (anyCase : Bool) (c : Char) : SetItem → Bool
  | .one d => if anyCase then Text.sameLetter c d else c == d
  | .range first last =>
    if anyCase then
      (Text.withCaseKey (Text.caseKey c.toNat)).any fun n => first.toNat ≤ n && n ≤ last.toNat
    else first ≤ c && c ≤ last
  | .named cls negated => cls.has c != negated

/-- Whether a character matches a set. -/
def setHas (anyCase negated : Bool) (items : List SetItem) (c : Char) : Bool :=
  items.any (itemHas anyCase c) != negated

/-- Whether a condition holds at a place. -/
def Anchor.holds (p : Place) : Anchor → Bool
  | .start => p.before?.isNone
  | .finish => p.after.isEmpty
  | .lineEnd => p.after == [] || p.after == ['\n']
  | .wordEdge negated =>
    (p.before?.isSome || !p.after.isEmpty)
      && (p.before?.any Text.isWordChar != p.after.head?.any Text.isWordChar) != negated

/-- Places without repetition. Two places of one text are the same if equally much follows them. -/
def distinct (places : List Place) : List Place :=
  places.foldr
    (fun p kept => if kept.any (·.after.length == p.after.length) then kept else p :: kept) []

/-- The places that a number of rounds leads to, one after the other. -/
def rounds (next : Place → List Place) : Nat → List Place → List Place
  | 0, places => places
  | count + 1, places => rounds next count (distinct (places.flatMap next))

/-- The places that at most a number of further rounds lead to. -/
def closure (next : Place → List Place) : Nat → List Place → List Place
  | 0, places => places
  | count + 1, places => distinct (places ++ closure next count (distinct (places.flatMap next)))

/-- The place after one character, if there is one of a kind. -/
def oneStep (accept : Char → Bool) (p : Place) : List Place :=
  match p.after with
  | [] => []
  | c :: rest => if accept c then [{ before? := some c, after := rest }] else []

/-- The places where a match that starts at a place may end. -/
def ends (anyCase : Bool) : Pattern → Place → List Place
  | .empty, p => [p]
  | .any, p => oneStep (· != '\n') p
  | .set negated items, p => oneStep (setHas anyCase negated items) p
  | .anchor a, p => if Anchor.holds p a then [p] else []
  | .seq first second, p => distinct ((ends anyCase first p).flatMap (ends anyCase second))
  | .alt left right, p => distinct (ends anyCase left p ++ ends anyCase right p)
  | .rep body least most?, p =>
    -- rounds beyond one for every character and one more lead nowhere else
    let enough := p.after.length + 1
    let further := (most?.map (· - least)).getD enough
    closure (ends anyCase body) (min further enough)
      (rounds (ends anyCase body) (min least enough) [p])

/-- All places of a text from a given one on. -/
def placesFrom (before? : Option Char) : List Char → List Place
  | [] => [{ before?, after := [] }]
  | c :: rest => { before?, after := c :: rest } :: placesFrom (some c) rest

/-- Whether the pattern matches anywhere in a text. -/
def found (anyCase : Bool) (pattern : Pattern) (text : String) : Bool :=
  (placesFrom none text.toList).any fun p => !(pattern.ends anyCase p).isEmpty

end Pattern

end SimUnix
