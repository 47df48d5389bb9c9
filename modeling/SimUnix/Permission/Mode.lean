/-
The mode language of changing permissions: three octal digits, the nine letters themselves, or a
list of clauses that add, remove or set bits for some classes of users.
-/
import SimUnix.Permission.Basic
import SimUnix.Text.Blank
import SimUnix.Text.Split

namespace SimUnix

/-- What a clause does with the bits it names. -/
inductive Change where
  | add
  | remove
  | set
  deriving Repr, DecidableEq

/-- A clause: a change of some bits for some classes. -/
structure Clause where
  classes : List Class
  change : Change
  bits : List Access
  deriving Repr, DecidableEq

/-- A change of permissions. -/
inductive Mode where
  /-- All nine characters at once. -/
  | exactly (bits : List Char)
  /-- Clauses that act one after the other. -/
  | clauses (list : List Clause)
  deriving Repr, DecidableEq

namespace Mode

/-! ## Reading -/

/-- An octal digit. -/
def isOctal (c : Char) : Bool := '0' ≤ c && c ≤ '7'

/-- The three characters for the bits of an octal digit. -/
def octalTriplet (c : Char) : List Char :=
  Access.all.map fun a => if (c.toNat - 48) / a.weight % 2 = 1 then a.letter else '-'

/-- Three octal digits, possibly after a zero. -/
def octal? (cs : List Char) : Option (List Char) :=
  let digits := if cs.length = 4 ∧ cs.head? = some '0' then cs.drop 1 else cs
  if digits.length = 3 ∧ digits.all isOctal then some (digits.flatMap octalTriplet) else none

/-- The nine letters, each at its place or replaced by a dash. -/
def pattern : List Char := ['r', 'w', 'x', 'r', 'w', 'x', 'r', 'w', 'x']

/-- The nine characters themselves, possibly after a type flag. -/
def literal? (cs : List Char) : Option (List Char) :=
  let nine := if cs.length = 10 then cs.drop 1 else cs
  if nine.length = 9 ∧ (nine.zip pattern).all fun p => p.1 == p.2 || p.1 == '-' then some nine
  else none

/-- The classes that a letter before the sign names. -/
def classes? (c : Char) : Option (List Class) :=
  if c = 'u' then some [.owner]
  else if c = 'g' then some [.group]
  else if c = 'o' then some [.other]
  else if c = 'a' then some Class.all
  else none

/-- The change that a sign stands for. -/
def change? (c : Char) : Option Change :=
  if c = '+' then some .add
  else if c = '-' then some .remove
  else if c = '=' then some .set
  else none

/-- The bit that a letter after the sign names. -/
def bit? (c : Char) : Option Access :=
  if c = 'r' then some .read
  else if c = 'w' then some .write
  else if c = 'x' then some .execute
  else none

/-- Reads a clause: letters for classes, a sign, letters for bits. No class at all means every
class. -/
def clause? (cs : List Char) : Option Clause := do
  let who := cs.takeWhile fun c => (classes? c).isSome
  match cs.dropWhile fun c => (classes? c).isSome with
  | [] => none
  | sign :: rest =>
    let change ← change? sign
    let bits ← rest.mapM bit?
    let named := who.filterMap classes?
    some { classes := if named.isEmpty then Class.all else named.flatten, change, bits }

/-- Reads one clause between commas. -/
def readClause (piece : List Char) : Except BadValue Clause :=
  let trimmed := Text.trimChars piece
  match clause? trimmed with
  | some c => .ok c
  | none => .error (.mode (String.ofList trimmed))

/-- Reads a mode: octal digits first, then the nine characters, then clauses. -/
def parse (mode : String) : Except BadValue Mode :=
  let cs := mode.toList
  match octal? cs with
  | some bits => .ok (.exactly bits)
  | none => match literal? cs with
    | some bits => .ok (.exactly bits)
    | none => ((Text.splitChars ',' cs).mapM readClause).map .clauses

/-! ## Acting on permissions -/

/-- The character that a change leaves at the place of a bit. -/
def newBit (clause : Clause) (access : Access) (old : Char) : Char :=
  match clause.change, clause.bits.contains access with
  | .add, true | .set, true => access.letter
  | .remove, true | .set, false => '-'
  | _, false => old

/-- The effect of a clause on the ten characters, for one class. -/
def applyTo (clause : Clause) (cs : List Char) (c : Class) : List Char :=
  Access.all.foldl
    (fun cs a => cs.set (c.start + a.place) (newBit clause a (cs.getD (c.start + a.place) '-'))) cs

/-- The effect of a clause on the ten characters. -/
def applyClause (cs : List Char) (clause : Clause) : List Char :=
  clause.classes.foldl (applyTo clause) cs

/-- The type flag of a permission string. -/
def typeFlag (permissions : String) : Char := permissions.toList.head?.getD '-'

/-- The permissions that a mode leaves. The type flag stays; clauses start from no bits at all where
the old permissions are not of ten characters. -/
def apply (mode : Mode) (permissions : String) : String :=
  let flag := typeFlag permissions
  match mode with
  | exactly bits => String.ofList (flag :: bits)
  | clauses list =>
    let start :=
      if permissions.length = 10 then permissions.toList else flag :: List.replicate 9 '-'
    String.ofList (list.foldl applyClause start)

end Mode

/-- The permissions that a written mode leaves of the current ones. Permissions that are no text but
count as false are replaced as a whole, but they have no bits to change. -/
def changeMode (mode : String) (current : Json) : Except Fault String :=
  match Mode.parse mode, current with
  | .ok (.exactly bits), current =>
    if current.truthy then (current.asText).map (Mode.exactly bits).apply
    else .ok ((Mode.exactly bits).apply "")
  | .ok m, .str s => .ok (m.apply s)
  | .error e, .str _ => .error (.badValue e)
  | _, _ => .error .wrongShape

end SimUnix
