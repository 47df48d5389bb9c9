/-
Recalling earlier lines is a walk along the command lines of a history. It stands behind the last line when the history is opened, after
every line that is typed and when another user's history takes its place. Going up leads one line back and stays at the first one, going
down leads one line on and stays behind the last one, and nothing else moves it; so it never leaves the lines.
-/
import SimUnix.Proofs.Terminal.Scrollback
import Mathlib.Data.List.GetD

namespace SimUnix.History

variable {h h' : History} {a b : Store} {p : Nat} {r : Except Fault Unit} {user current line : String}

/-! ## Positions -/

/-- A history whose recall stands at a position: at a line, or behind the last one. -/
def At (h : History) (p : Nat) : Prop := p ≤ h.commands.length ∧ h.cursor? = if p < h.commands.length then some p else none

theorem at_end (hcursor : h.cursor? = none) : h.At h.commands.length := ⟨Nat.le_refl _, by rw [hcursor, if_neg (Nat.lt_irrefl _)]⟩

theorem At.congr (hat : h.At p) (hcommands : h'.commands = h.commands) (hcursor : h'.cursor? = h.cursor?) : h'.At p := by
  unfold At
  rwa [hcommands, hcursor]

/-- The line that is recalled last, if there is one, is at the position. -/
theorem At.getD (hat : h.At p) : h.cursor?.getD h.commands.length = p := by
  obtain ⟨hle, hcursor⟩ := hat
  rw [hcursor]
  split
  · rfl
  · exact Nat.le_antisymm (Nat.not_lt.1 ‹_›) hle

/-- Without lines there is nothing to recall. -/
theorem up_nil (hnone : h.commands = []) : h.up current = (.str current, h) := by
  unfold up
  rw [hnone]

theorem At.up_line (hat : h.At p) (hsome : h.commands ≠ []) :
    h.commands[p - 1]? = some (h.up current).1 ∧ (h.up current).2 = { h with cursor? := some (p - 1) } := by
  have hle := hat.1
  have hpos := List.length_pos_iff.2 hsome
  have hin : p - 1 < h.commands.length := by omega
  have hup : h.up current = (h.commands.getD (p - 1) "", { h with cursor? := some (p - 1) }) := by
    unfold up
    split
    · rename_i hnone
      exact absurd hnone hsome
    · rename_i first rest hlines
      rw [← hlines, hat.getD]
  rw [hup]
  exact ⟨by rw [List.getElem?_eq_getElem hin, List.getD_eq_getElem _ _ hin], rfl⟩

/-- Going up leads one line back. -/
theorem At.up (hat : h.At p) : (h.up current).2.At (p - 1) := by
  have hle := hat.1
  by_cases hnone : h.commands = []
  · rw [up_nil hnone]
    rw [hnone] at hle
    cases Nat.le_zero.1 hle
    exact hat
  · have hpos := List.length_pos_iff.2 hnone
    rw [(hat.up_line hnone).2]
    exact ⟨Nat.le_trans (Nat.sub_le _ _) hle, (if_pos (show p - 1 < h.commands.length by omega)).symm⟩

theorem At.down_eq (hat : h.At p) : h.down = if hp : p + 1 < h.commands.length then
    (h.commands[p + 1], { h with cursor? := some (p + 1) }) else (.str "", { h with cursor? := none }) := by
  obtain ⟨hle, hcursor⟩ := hat
  unfold down
  by_cases hlast : p < h.commands.length
  · rw [hcursor, if_pos hlast]
    dsimp only
    by_cases hnext : p + 1 < h.commands.length
    · rw [dif_pos hnext, List.getElem?_eq_getElem hnext]
    · rw [dif_neg hnext, List.getElem?_eq_none (Nat.not_lt.1 hnext)]
  · rw [hcursor, if_neg hlast, dif_neg (by omega)]
    dsimp only
    rw [← show h.cursor? = none by rw [hcursor, if_neg hlast]]

/-- Going down leads one line on. -/
theorem At.down (hat : h.At p) : h.down.2.At (min (p + 1) h.commands.length) := by
  rw [hat.down_eq]
  by_cases hnext : p + 1 < h.commands.length
  · rw [dif_pos hnext, Nat.min_eq_left (Nat.le_of_lt hnext)]
    exact ⟨Nat.le_of_lt hnext, (if_pos hnext).symm⟩
  · rw [dif_neg hnext, Nat.min_eq_right (Nat.not_lt.1 hnext)]
    exact at_end rfl

/-! ## Walks -/

/-- A history and its store, and the position at which its recall stands, after it was opened and used, whether or not what was noted
could be written. Going over to another user that fails leaves the lines that were there. -/
inductive Walks : History → Store → Nat → Prop
  | opened {h h' : History} {a b : Store} (run : load.run (h, a) = (.ok (), (h', b))) : Walks h' b h'.commands.length
  | record {h h' : History} {a b : Store} {p : Nat} {r : Except Fault Unit} {line : String} (before : Walks h a p)
      (run : (record line).run (h, a) = (r, (h', b))) : Walks h' b h'.commands.length
  | add {h h' : History} {a b : Store} {p : Nat} {r : Except Fault Unit} {block : Block} (before : Walks h a p)
      (run : (add block).run (h, a) = (r, (h', b))) : Walks h' b p
  | clear {h h' : History} {a b : Store} {p : Nat} {r : Except Fault Unit} (before : Walks h a p)
      (run : History.clear.run (h, a) = (r, (h', b))) : Walks h' b p
  | switch {h h' : History} {a b : Store} {p : Nat} {user : String} (before : Walks h a p) (other : user ≠ h.user)
      (run : (switch user).run (h, a) = (.ok (), (h', b))) : Walks h' b h'.commands.length
  | stay {h h' : History} {a b : Store} {p : Nat} {r : Except Fault Unit} {user : String} (before : Walks h a p)
      (stays : user = h.user ∨ r ≠ .ok ()) (run : (History.switch user).run (h, a) = (r, (h', b))) : Walks h' b p
  | up {h : History} {a : Store} {p : Nat} {current : String} (before : Walks h a p) : Walks (h.up current).2 a (p - 1)
  | down {h : History} {a : Store} {p : Nat} (before : Walks h a p) : Walks h.down.2 a (min (p + 1) h.commands.length)

theorem cursor_load (hrun : load.run (h, a) = (.ok (), (h', b))) : h'.cursor? = none := by
  obtain ⟨-, ⟨hfailed, -⟩ | ⟨-, blocks, commands, -, -, rfl⟩⟩ := load_cases hrun
  · exact absurd rfl hfailed
  · rfl

theorem cursor_typed : (Note.typed h line).cursor? = none := by
  unfold Note.typed withCommand
  split
  · rfl
  · split <;> rfl

/-- Another history is gone over to by loading it, and until its lines are read those that were there remain. -/
theorem switch_lines (stays : user = h.user ∨ r ≠ .ok ()) (hrun : (switch user).run (h, a) = (r, (h', b))) :
    h'.commands = h.commands ∧ h'.cursor? = h.cursor? := by
  unfold switch at hrun
  rw [run_bind, run_get] at hrun
  dsimp only at hrun
  by_cases hsame : user = h.user
  · rw [if_neg (by simpa using hsame)] at hrun
    cases hrun
    exact ⟨rfl, rfl⟩
  · rw [if_pos (by simpa using hsame)] at hrun
    rcases of_run_bind hrun with ⟨e, hsave, rfl⟩ | ⟨_, ⟨h₁, a₁⟩, hsave, hrest⟩
    · obtain ⟨rfl, -⟩ := run_save hsave
      exact ⟨rfl, rfl⟩
    · obtain ⟨rfl, -⟩ := run_save hsave
      have hload : load.run ({ h₁ with user }, a₁) = (r, (h', b)) := hrest
      obtain ⟨-, ⟨-, blocks, rfl⟩ | ⟨hdone, -⟩⟩ := load_cases hload
      · exact ⟨rfl, rfl⟩
      · exact absurd hdone (stays.resolve_left hsame)

/-- A walk never leaves the lines. -/
theorem Walks.at (hw : Walks h a p) : h.At p := by
  induction hw with
  | opened run => exact at_end (cursor_load run)
  | @record h h' a b p r line before run =>
    have hnote := (Note.leaves (n := .line line) run).history
    exact at_end (hnote ▸ cursor_typed)
  | @add h h' a b p r block before run ih =>
    have hnote := (Note.leaves (n := .block block) run).history
    exact ih.congr (hnote ▸ rfl) (hnote ▸ rfl)
  | clear before run ih =>
    have hnote := (Note.leaves (n := .clear) run).history
    exact ih.congr (hnote ▸ rfl) (hnote ▸ rfl)
  | switch before other run =>
    rcases switch_cases run with ⟨hsame, -⟩ | ⟨-, -, -, hload⟩
    · exact absurd hsame other
    · exact at_end (cursor_load hload)
  | stay before stays run ih =>
    obtain ⟨hcommands, hcursor⟩ := switch_lines stays run
    exact ih.congr hcommands hcursor
  | up before ih => exact ih.up
  | down before ih => exact ih.down

/-- Wherever a walk has led, the position is within the lines or behind the last one. Going up recalls the line before it, or the first
one again, and gives the current input back if there is none; going down recalls the line after it, and nothing behind the last one. -/
theorem Walks.recalls (hw : Walks h a p) :
    p ≤ h.commands.length ∧ (∀ i, h.cursor? = some i → i < h.commands.length) ∧
      (∀ current, if h.commands = [] then (h.up current).1 = .str current else h.commands[p - 1]? = some (h.up current).1) ∧
      h.down.1 = h.commands.getD (p + 1) (.str "") := by
  have hat := hw.at
  refine ⟨hat.1, fun i hi => ?_, fun current => ?_, ?_⟩
  · rw [hat.2] at hi
    split at hi
    · cases hi
      assumption
    · cases hi
  · split
    · rw [up_nil ‹_›]
    · exact (hat.up_line ‹_›).1
  · rw [hat.down_eq]
    by_cases hnext : p + 1 < h.commands.length
    · rw [dif_pos hnext, List.getD_eq_getElem _ _ hnext]
    · rw [dif_neg hnext, List.getD_eq_default _ _ (Nat.not_lt.1 hnext)]

theorem recalls_first :
    let store := Store.memory [(Store.inputKey "user", .arr ["a", "b"])]
    let recalled : History := { user := "user", commands := ["a", "b"], cursor? := some 1 }
    Walks recalled store 1 ∧ recalled.commands[0]? = some (recalled.up "c").1 ∧ recalled.down.1 = "" := by
  intro store recalled
  have hopened : Walks { user := "user", commands := ["a", "b"] } store 2 :=
    .opened (show load.run ({ user := "user" }, store) = _ from rfl)
  have hup : Walks recalled store 1 := @Walks.up _ _ _ "c" hopened
  obtain ⟨-, -, hbefore, hafter⟩ := hup.recalls
  exact ⟨hup, hbefore "c", hafter⟩

end SimUnix.History
