/-
The stack of identities that a terminal acts under: the user it was opened for at the bottom, the
acting user on top. It is never empty.
-/
import SimUnix.Permission.Basic

namespace SimUnix

/-- A stack of users, split into the top one and those below it, the nearest first. -/
structure Sessions where
  current : String
  below : List String := []
  deriving Repr, DecidableEq

namespace Sessions

/-- The users from the bottom to the top. -/
def toList (s : Sessions) : List String := s.below.reverse ++ [s.current]

/-- The stack of a list given from its top, where there is one. -/
def ofTop? : List String → Option Sessions
  | [] => none
  | top :: rest => some { current := top, below := rest }

/-- The number of identities. -/
def depth (s : Sessions) : Nat := s.below.length + 1

/-- Whether the acting user is root. -/
def isRoot (s : Sessions) : Bool := s.current == rootName

/-- Acts as another user. -/
def push (s : Sessions) (user : String) : Sessions :=
  { current := user, below := s.current :: s.below }

/-- Closes the identity at a position counted from the bottom, or the top one, and gives back the
user it belonged to. The bottom one cannot be closed, nor one above the top. -/
def close (s : Sessions) (position? : Option Int) : Option (String × Sessions) :=
  let stack := s.current :: s.below
  let position := position?.getD (s.depth - 1 : Nat)
  if 1 ≤ position ∧ position < s.depth then
    let fromTop := s.depth - 1 - position.toNat
    match stack[fromTop]?, ofTop? (stack.eraseIdx fromTop) with
    | some user, some rest => some (user, rest)
    | _, _ => none
  else none

/-- Starts again as one user. -/
def reset (_ : Sessions) (user : String) : Sessions := { current := user }

end Sessions

end SimUnix
