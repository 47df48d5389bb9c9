/-
Blank characters: what separates words, and what trimming takes away at the ends of a text.
-/

namespace SimUnix.Text

/-- A blank: a space of any width, a tab, a line or page end, or one of the four information
separators. -/
def isBlank (c : Char) : Bool :=
  let n := c.toNat
  (9 ≤ n && n ≤ 13) || (28 ≤ n && n ≤ 32) || n == 0x85 || n == 0xA0 || n == 0x1680
    || (0x2000 ≤ n && n ≤ 0x200A) || n == 0x2028 || n == 0x2029 || n == 0x202F || n == 0x205F
    || n == 0x3000

/-- Removes the characters of a class from both ends. -/
def trimBy (drop : Char → Bool) (cs : List Char) : List Char :=
  ((cs.dropWhile drop).reverse.dropWhile drop).reverse

/-- Removes the blanks at both ends of a list of characters. -/
def trimChars (cs : List Char) : List Char := trimBy isBlank cs

/-- Removes the blanks at both ends. -/
def trim (s : String) : String := String.ofList (trimChars s.toList)

/-- Removes the blanks at the end. -/
def trimEnd (s : String) : String := String.ofList (s.toList.reverse.dropWhile isBlank).reverse

/-- A text without any character but blanks. -/
def allBlank (s : String) : Bool := s.toList.all isBlank

/-- A text with at least one character, all of them blanks or ending in one. -/
def endsBlank (s : String) : Bool := s.toList.getLast?.any isBlank

/-- The maximal runs of other characters between blanks. -/
def blankFields (cs : List Char) : List (List Char) :=
  let (field, fields) := cs.foldr
    (fun c (field, fields) =>
      if isBlank c then ([], if field.isEmpty then fields else field :: fields)
      else (c :: field, fields))
    (([] : List Char), ([] : List (List Char)))
  if field.isEmpty then fields else field :: fields

end SimUnix.Text
