/-
The written form of stored values: one item or field a line, indented by two spaces a level, with
every character outside printable ASCII escaped.
-/
import SimUnix.Json.Basic

namespace SimUnix.Json

/-- The escape of one sixteen-bit unit. -/
def unitEscape (n : Nat) : List Char := '\\' :: 'u' :: Text.hexDigits 4 n

/-- The way a character is written inside a text: characters beyond the sixteen-bit range take two
units. -/
def escape (c : Char) : List Char :=
  if c = '"' then ['\\', '"']
  else if c = '\\' then ['\\', '\\']
  else if c = '\n' then ['\\', 'n']
  else if c = '\r' then ['\\', 'r']
  else if c = '\t' then ['\\', 't']
  else if c.toNat = 8 then ['\\', 'b']
  else if c.toNat = 12 then ['\\', 'f']
  else if 32 ≤ c.toNat ∧ c.toNat < 127 then [c]
  else if c.toNat < 0x10000 then unitEscape c.toNat
  else
    let n := c.toNat - 0x10000
    unitEscape (0xD800 + n / 0x400) ++ unitEscape (0xDC00 + n % 0x400)

/-- The written form of a text. -/
def writeText (s : String) : List Char := '"' :: s.toList.flatMap escape ++ ['"']

/-- A line feed and the indentation of a level. -/
def newLine (level : Nat) : List Char := '\n' :: List.replicate (2 * level) ' '

mutual
/-- The written form of a value whose first line stands at the given level. -/
def write (level : Nat) : Json → List Char
  | null => "null".toList
  | bool true => "true".toList
  | bool false => "false".toList
  | int n => (toString n).toList
  | str s => writeText s
  | arr [] => ['[', ']']
  | arr (x :: xs) =>
    '[' :: newLine (level + 1) ++ write (level + 1) x ++ writeItems (level + 1) xs ++ newLine level
      ++ [']']
  | obj [] => ['\x7b', '\x7d']
  | obj ((k, x) :: fs) =>
    '\x7b' :: newLine (level + 1) ++ writeText k ++ ':' :: ' ' :: write (level + 1) x
      ++ writeFields (level + 1) fs ++ newLine level ++ ['\x7d']

/-- The items after the first, each after a comma on a line of its own. -/
def writeItems (level : Nat) : List Json → List Char
  | [] => []
  | x :: xs => ',' :: newLine level ++ write level x ++ writeItems level xs

/-- The fields after the first, each after a comma on a line of its own. -/
def writeFields (level : Nat) : List (String × Json) → List Char
  | [] => []
  | (k, x) :: fs =>
    ',' :: newLine level ++ writeText k ++ ':' :: ' ' :: write level x ++ writeFields level fs
end

/-- The written form of a value. -/
def toText (value : Json) : String := String.ofList (write 0 value)

end SimUnix.Json
