/-
Cutting a text at a separator and joining the pieces again, and the order of texts. Main statement:
`intercalate_splitChars`, joining what was cut gives the text back.
-/

namespace SimUnix.Text

/-- The pieces between the occurrences of a separator, empty ones included. There is always at
least one piece. -/
def splitChars (sep : Char) : List Char → List (List Char)
  | [] => [[]]
  | c :: cs =>
    if c = sep then [] :: splitChars sep cs
    else match splitChars sep cs with
      | [] => [[c]]
      | piece :: pieces => (c :: piece) :: pieces

theorem splitChars_ne_nil (sep : Char) (cs : List Char) : splitChars sep cs ≠ [] := by
  cases cs with
  | nil => simp [splitChars]
  | cons c cs =>
    simp only [splitChars]
    split
    · simp
    · split <;> simp

/-- Joining the pieces of a text gives the text back. -/
theorem intercalate_splitChars (sep : Char) (cs : List Char) :
    [sep].intercalate (splitChars sep cs) = cs := by
  induction cs with
  | nil => rfl
  | cons c cs ih =>
    obtain ⟨piece, pieces, h⟩ := List.exists_cons_of_ne_nil (splitChars_ne_nil sep cs)
    rw [h] at ih
    unfold splitChars
    rw [h]
    by_cases hc : c = sep
    · simp only [if_pos hc]
      rw [← ih]
      simp [List.intercalate, hc]
    · simp only [if_neg hc]
      rw [← ih]
      cases pieces <;> simp [List.intercalate]

/-- The pieces of a text between the occurrences of a separator, empty ones included. -/
def split (sep : Char) (s : String) : List String := (splitChars sep s.toList).map String.ofList

/-- The lines of a text: the pieces between line feeds. -/
def lines (s : String) : List String := split '\n' s

/-- Joins pieces with a separator between them. -/
def joinWith (sep : String) (pieces : List String) : String := sep.intercalate pieces

/-- Joins lines with line feeds between them. -/
def joinLines (pieces : List String) : String := joinWith "\n" pieces

/-- Cuts a text at the first occurrence of a character into what stands before and what stands
after it; without an occurrence all stands before. -/
def cutAt (sep : Char) (s : String) : String × String :=
  let cs := s.toList
  (String.ofList (cs.takeWhile (· ≠ sep)), String.ofList ((cs.dropWhile (· ≠ sep)).drop 1))

/-- Whether a text starts with another. -/
def startsWith (s lead : String) : Bool := lead.toList.isPrefixOf s.toList

/-- Whether a text ends with another. -/
def endsWith (s tail : String) : Bool := tail.toList.isSuffixOf s.toList

/-- The text without its first characters. -/
def dropFirst (n : Nat) (s : String) : String := String.ofList (s.toList.drop n)

/-- Spaces that fill a text of the given length up to a width. -/
def padding (width length : Nat) : String := String.ofList (List.replicate (width - length) ' ')

/-- Fills a text with spaces on the right up to a width. -/
def padRight (width : Nat) (s : String) : String := s ++ padding width s.length

/-- Fills a text with spaces on the left up to a width. -/
def padLeft (width : Nat) (s : String) : String := padding width s.length ++ s

/-- Whether one text stands before another in the order of code points, or is the same. -/
def precedes (a b : String) : Bool := !b.toList.lex a.toList fun c d => c.toNat.blt d.toNat

/-- Sorts texts by code points. -/
def sorted (texts : List String) : List String := texts.mergeSort precedes

end SimUnix.Text
