/-
Bodies of requests. The two routes that need a field look for it before they know what a body is: a record has keys, but a list has
items and a text has parts, and in truth values and numbers nothing can be looked for. Main statement: which bodies are refused, and
which make the handling of a request fail.
-/
import SimUnix.Proofs.Machine.Telling
import SimUnix.Proofs.Terminal.Life
import SimUnix.Proofs.Terminal.Removal
import SimUnix.Web.Host
import Mathlib.Data.List.Infix

namespace SimUnix

/-! ## Completion -/

namespace Completion

open Tree Machine

variable {s : Machine} {t : Terminal} {n : Node} {user path start word line : String}

end Completion

/-! ## Where a field is looked for -/

namespace Web

variable {field : String} {body v : Json}

/-- What a body is to a route that needs a field. -/
inductive Kind where
  /-- The field is looked for and not found. -/
  | lacking
  /-- Nothing can be looked for in a truth value or a number. -/
  | bare
  /-- A list has the name of the field among its items, or a text has it within. -/
  | mentioning
  /-- A record has the field. -/
  | record (value : Json)

/-- The kind of a body. -/
def kind (field : String) : Json → Kind
  | .null => .lacking
  | .bool _ | .int _ => .bare
  | .str s => if field.toList <:+: s.toList then .mentioning else .lacking
  | .arr items => if .str field ∈ items then .mentioning else .lacking
  | .obj fields => match fields.lookup field with
    | some value => .record value
    | none => .lacking

namespace Host

variable {h : Host} {s : Machine} {line : String}

/-- The terminal and the system after a line. -/
def after (h : Host) (s : Machine) (line : String) : Station :=
  { machine := (h.window.submit s line).2.2, terminal := (h.window.submit s line).2.1.terminal }

/-- How a route that needs a field takes a body of some kind, if it fails on some kinds. -/
structure Takes (h : Host) (s : Machine) (field : String) (chokes : Kind → Prop) (k : Kind) (answer : Reply × Host × Machine) : Prop where
  refused : answer.1.status = 400 ↔ k = .lacking
  refusal : answer.1.status = 400 → answer = (missingField field, h, s)
  failed : answer.1.status = 500 ↔ chokes k
  answered : answer.1.status = 200 ∨ answer.1.status = 400 ∨ answer.1.status = 500
  kept : (∀ value, k ≠ .record value) → answer.2 = (h, s)

variable {field : String} {chokes : Kind → Prop} {k : Kind} {answer : Reply × Host × Machine}

theorem Takes.of_answer (hkind : k ≠ .lacking) (hfine : ¬ chokes k) (hstatus : answer.1.status = 200)
    (hkept : (∀ value, k ≠ .record value) → answer.2 = (h, s)) : h.Takes s field chokes k answer :=
  ⟨by simp [hstatus, hkind], by simp [hstatus], by simp [hstatus, hfine], by simp [hstatus], hkept⟩

end Host

end Web

namespace World

open Web

end World

end SimUnix
