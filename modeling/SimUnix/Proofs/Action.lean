/-
Running actions step by step. An action is a state transformer that keeps its state when it fails;
the lemmas say what each building block does to a state, so that a run can be followed by rewriting.
A result that is asked for on the way is taken apart by `bind_ok`.
-/
import SimUnix.Fault
import Mathlib.Data.List.Forall2

namespace SimUnix

/-! ## Results -/

theorem bind_ok {α β : Type} {x : Except Fault α} {f : α → Except Fault β} {b : β} :
    (x >>= f) = .ok b ↔ ∃ a, x = .ok a ∧ f a = .ok b := by
  cases x with
  | error e =>
    constructor
    · intro h
      cases h
    · rintro ⟨_, h, -⟩
      cases h
  | ok a =>
    constructor
    · intro h
      exact ⟨a, rfl, h⟩
    · rintro ⟨_, h, h'⟩
      cases h
      exact h'

theorem bind_error {α β : Type} {x : Except Fault α} {f : α → Except Fault β} {e : Fault} :
    (x >>= f) = .error e ↔ x = .error e ∨ ∃ a, x = .ok a ∧ f a = .error e := by
  cases x with
  | error e' =>
    constructor
    · intro h
      cases h
      exact .inl rfl
    · rintro (h | ⟨_, h, -⟩)
      · cases h
        rfl
      · cases h
  | ok a =>
    constructor
    · intro h
      exact .inr ⟨a, rfl, h⟩
    · rintro (h | ⟨_, h, h'⟩)
      · cases h
      · cases h
        exact h'

/-- Mapping succeeds exactly if it does on every item. -/
theorem mapM_ok {α β : Type} {f : α → Except Fault β} :
    ∀ {xs : List α} {ys : List β}, xs.mapM f = .ok ys ↔ List.Forall₂ (fun x y => f x = .ok y) xs ys
  | [], ys => by
    rw [List.mapM_nil, List.forall₂_nil_left_iff]
    exact ⟨fun h => by cases h; rfl, fun h => h ▸ rfl⟩
  | x :: xs, ys => by
    rw [List.mapM_cons, bind_ok]
    constructor
    · rintro ⟨y, hy, h⟩
      obtain ⟨zs, hzs, h⟩ := bind_ok.1 h
      cases h
      exact .cons hy (mapM_ok.1 hzs)
    · rintro (_ | ⟨hy, hys⟩)
      exact ⟨_, hy, bind_ok.2 ⟨_, mapM_ok.2 hys, rfl⟩⟩

theorem mapM_item {α β : Type} {f : α → Except Fault β} {xs : List α} {ys : List β} (h : xs.mapM f = .ok ys) :
    ∀ x ∈ xs, ∃ y, f x = .ok y := by
  have hall := mapM_ok.1 h
  induction hall with
  | nil => exact nofun
  | cons hy _ ih => exact List.forall_mem_cons.2 ⟨⟨_, hy⟩, ih (mapM_ok.2 ‹_›)⟩

section

variable {σ α β : Type}

/-- An action that may fail and then leaves the state as it is at that point. -/
abbrev Action (σ α : Type) := ExceptT Fault (StateM σ) α

theorem run_pure (a : α) (s : σ) : (pure a : Action σ α).run s = (.ok a, s) := rfl

theorem run_get (s : σ) : (get : Action σ σ).run s = (.ok s, s) := rfl

theorem run_set (s s' : σ) : (set s' : Action σ PUnit).run s = (.ok ⟨⟩, s') := rfl

theorem run_modify (f : σ → σ) (s : σ) : (modify f : Action σ PUnit).run s = (.ok ⟨⟩, f s) := rfl

theorem run_modifyGet (f : σ → α × σ) (s : σ) :
    (modifyGet f : Action σ α).run s = (.ok (f s).1, (f s).2) := rfl

theorem run_bind (m : Action σ α) (f : α → Action σ β) (s : σ) :
    (m >>= f).run s = match m.run s with
      | (.ok a, s') => (f a).run s'
      | (.error e, s') => (.error e, s') := by
  rw [ExceptT.run_bind]
  simp only [bind, StateT.bind]
  rcases (m.run s) with ⟨_ | _, _⟩ <;> rfl

/-- A sequence of two actions ends where the first one fails, or where the second one leads from the end of the first. -/
theorem of_run_bind {m : Action σ α} {f : α → Action σ β} {s s' : σ} {r : Except Fault β} (h : (m >>= f).run s = (r, s')) :
    (∃ e, m.run s = (.error e, s') ∧ r = .error e) ∨ ∃ a s₁, m.run s = (.ok a, s₁) ∧ (f a).run s₁ = (r, s') := by
  rw [run_bind] at h
  rcases hm : m.run s with ⟨_ | a, s₁⟩ <;> rw [hm] at h
  · cases h
    exact .inl ⟨_, rfl, rfl⟩
  · exact .inr ⟨a, s₁, rfl, h⟩

theorem run_map (f : α → β) (m : Action σ α) (s : σ) :
    (f <$> m).run s = match m.run s with
      | (.ok a, s') => (.ok (f a), s')
      | (.error e, s') => (.error e, s') := by
  have hbind : f <$> m = (m >>= fun a => pure (f a) : Action σ β) := (bind_pure_comp f m).symm
  rw [hbind, run_bind]
  rfl

/-- An action under a map runs as it does alone. -/
theorem run_map_of {f : α → β} {m : Action σ α} {s s' : σ} {r : Except Fault β} (h : (f <$> m).run s = (r, s')) :
    ∃ x, m.run s = (x, s') := by
  rw [run_map] at h
  rcases hm : m.run s with ⟨x, s₁⟩
  rw [hm] at h
  cases x <;> cases h <;> exact ⟨_, rfl⟩

theorem run_tryCatch (m : Action σ α) (f : Fault → Action σ α) (s : σ) :
    (tryCatch m f).run s = match m.run s with
      | (.ok a, s') => (.ok a, s')
      | (.error e, s') => (f e).run s' := by
  simp only [tryCatch, tryCatchThe, MonadExceptOf.tryCatch, ExceptT.tryCatch, ExceptT.run, ExceptT.mk, bind,
    StateT.bind]
  rcases (m s) with ⟨_ | _, _⟩ <;> rfl

theorem run_discard (m : Action σ α) (s : σ) :
    (discard m).run s = match m.run s with
      | (.ok _, s') => (.ok ⟨⟩, s')
      | (.error e, s') => (.error e, s') := by
  have hbind : discard m = (m >>= fun _ => pure ⟨⟩ : Action σ PUnit) := rfl
  rw [hbind, run_bind]
  rfl

/-- The result of an action may be found apart from where the action leads. -/
theorem run_of_result {m : Action σ α} {s : σ} {r : Except Fault α} (h : (m.run s).1 = r) : m.run s = (r, (m.run s).2) := Prod.ext h rfl

/-- An action whose result is discarded leads where it leads otherwise. -/
theorem run_discard_of {m : Action σ α} {s s' : σ} {r : Except Fault α} (h : m.run s = (r, s')) :
    ∃ x, (discard m).run s = (x, s') := by
  rw [run_discard, h]
  cases r <;> exact ⟨_, rfl⟩

theorem of_run_discard {m : Action σ α} {s s' : σ} {r : Except Fault PUnit} (h : (discard m).run s = (r, s')) :
    ∃ x, m.run s = (x, s') := by
  rw [run_discard] at h
  rcases hm : m.run s with ⟨x, s₁⟩
  rw [hm] at h
  cases x <;> cases h <;> exact ⟨_, rfl⟩

theorem of_run_discard_ok {m : Action σ α} {s s' : σ} (h : (discard m).run s = (.ok ⟨⟩, s')) : ∃ a, m.run s = (.ok a, s') := by
  rw [run_discard] at h
  rcases hm : m.run s with ⟨x, s₁⟩
  rw [hm] at h
  cases x with
  | error e => cases h
  | ok a =>
    cases h
    exact ⟨a, rfl⟩

/-- A loop that is never left early goes through its items one after the other. -/
theorem run_for_cons (x : α) (xs : List α) (f : α → Action σ PUnit) (s : σ) :
    (forIn (x :: xs) PUnit.unit fun a _ => f a >>= fun _ => pure (.yield PUnit.unit)).run s =
      match (f x).run s with
      | (.ok _, s') => (forIn xs PUnit.unit fun a _ => f a >>= fun _ => pure (.yield PUnit.unit)).run s'
      | (.error e, s') => (.error e, s') := by
  rw [List.forIn_cons, run_bind, run_bind]
  rcases (f x).run s with ⟨_ | _, _⟩ <;> rfl

end

end SimUnix
