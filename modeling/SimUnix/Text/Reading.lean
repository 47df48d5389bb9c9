/-
Reading from the start of a text: the part that was read and the rest of the text, nothing where the
text is not in order, or a fault where it is in order but asks for too much.
-/
import SimUnix.Fault

namespace SimUnix.Text

/-- What reading leads to. The result of reading a part is the part and the rest of the text. -/
abbrev Reading := OptionT (Except Fault)

namespace Reading

/-- A reading that gives up with a fault. -/
def fault {α : Type} (cause : Fault) : Reading α := OptionT.mk (.error cause)

/-- A reading that cannot give up with a fault. -/
def ofOption {α : Type} (result? : Option α) : Reading α := OptionT.mk (.ok result?)

/-- A reading that finds the text in order. -/
def ofExcept {α : Type} (result : Except Fault α) : Reading α := OptionT.mk (result.map some)

/-- The part that was read, if the rest is such that the whole text has been read. -/
def whole? {α : Type} (r : Reading (α × List Char)) (isRest : List Char → Bool) :
    Except Fault (Option α) :=
  r.run.map fun result? => (result?.filter fun x => isRest x.2).map Prod.fst

end Reading

end SimUnix.Text
