/-
Two actions that run in step from related states. Either they come to related states with the same result, or the
one is the shadow of the other: wherever the first one succeeds, the second one succeeds, too, with a related
result, as where what one action names by an id, the other one names by another. The lemmas say of each building
block that it keeps in step, so that a pair of runs can be followed part by part.
-/
import SimUnix.Proofs.Action

namespace SimUnix

variable {σ α β : Type} {R : σ → σ → Prop}

/-! ## Actions in step -/

/-- Two actions that give the same result and keep their states related. -/
def InStep (R : σ → σ → Prop) (m m' : Action σ α) : Prop :=
  ∀ ⦃s s' : σ⦄, R s s' → (m.run s).1 = (m'.run s').1 ∧ R (m.run s).2 (m'.run s').2

namespace InStep

theorem pure (a : α) : InStep R (Pure.pure a) (Pure.pure a) := fun _ _ h => ⟨rfl, h⟩

theorem throw (e : Fault) : InStep R (MonadExcept.throw e : Action σ α) (MonadExcept.throw e) := fun _ _ h => ⟨rfl, h⟩

theorem bind {m m' : Action σ α} {f f' : α → Action σ β} (hm : InStep R m m') (hf : ∀ a, InStep R (f a) (f' a)) :
    InStep R (m >>= f) (m' >>= f') := by
  intro s s' h
  obtain ⟨hresult, hstate⟩ := hm h
  rw [run_bind, run_bind]
  rcases hrun : m.run s with ⟨x, t⟩
  rcases hrun' : m'.run s' with ⟨x', t'⟩
  rw [hrun, hrun'] at hresult hstate
  cases hresult
  cases x with
  | error e => exact ⟨rfl, hstate⟩
  | ok a => exact hf a hstate

theorem map {m m' : Action σ α} {f : α → β} (hm : InStep R m m') : InStep R (f <$> m) (f <$> m') := by
  rw [← bind_pure_comp, ← bind_pure_comp]
  exact hm.bind fun a => pure (f a)

theorem discard {m m' : Action σ α} (hm : InStep R m m') : InStep R (Functor.discard m) (Functor.discard m') := hm.map

/-- Actions that look at their states first. -/
theorem get {f f' : σ → Action σ β} (hf : ∀ {s s'}, R s s' → InStep R (f s) (f' s')) :
    InStep R (MonadState.get >>= f) (MonadState.get >>= f') := fun _ _ h => hf h h

theorem change {f f' : σ → σ} (hf : ∀ {s s'}, R s s' → R (f s) (f' s')) : InStep R (modify f) (modify f') :=
  fun _ _ h => ⟨rfl, hf h⟩

theorem set {t t' : σ} (h : R t t') : InStep R (MonadStateOf.set t : Action σ PUnit) (MonadStateOf.set t') := fun _ _ _ => ⟨rfl, h⟩

theorem cond {c : Prop} [Decidable c] {m₁ m₂ m₁' m₂' : Action σ α} (h₁ : c → InStep R m₁ m₁') (h₂ : ¬ c → InStep R m₂ m₂') :
    InStep R (if c then m₁ else m₂) (if c then m₁' else m₂') := by
  by_cases hc : c
  · rw [if_pos hc, if_pos hc]
    exact h₁ hc
  · rw [if_neg hc, if_neg hc]
    exact h₂ hc

/-- A loop over some items whose parts run in step. -/
theorem loop {f f' : α → Action σ PUnit} (hf : ∀ a, InStep R (f a) (f' a)) : ∀ xs : List α,
    InStep R (forIn xs PUnit.unit fun a _ => f a >>= fun _ => Pure.pure (.yield PUnit.unit))
      (forIn xs PUnit.unit fun a _ => f' a >>= fun _ => Pure.pure (.yield PUnit.unit))
  | [] => pure _
  | x :: xs => by
    rw [List.forIn_cons, List.forIn_cons]
    refine ((hf x).bind fun _ => pure _).bind fun step => ?_
    cases step with
    | done _ => exact pure _
    | yield _ => exact loop hf xs

theorem forM {f f' : α → Action σ PUnit} : ∀ {xs ys : List α}, List.Forall₂ (fun x y => InStep R (f x) (f' y)) xs ys →
    InStep R (xs.forM f) (ys.forM f')
  | _, _, .nil => pure _
  | _, _, .cons hx hxs => hx.bind fun _ => forM hxs

end InStep

/-! ## Shadows -/

variable {γ δ : Type} {Q : α → β → Prop} {S : γ → δ → Prop}

/-- Wherever the first action succeeds, so does the second one, with a related result and a related state. -/
def Shadows (R : σ → σ → Prop) (Q : α → β → Prop) (m : Action σ α) (m' : Action σ β) : Prop :=
  ∀ ⦃s s' t : σ⦄ ⦃a : α⦄, R s s' → m.run s = (.ok a, t) → ∃ b t', m'.run s' = (.ok b, t') ∧ Q a b ∧ R t t'

/-- Results that nobody looks at. -/
def Whatever (_ : α) (_ : β) : Prop := True

namespace Shadows

theorem pure {a : α} {b : β} (h : Q a b) : Shadows R Q (Pure.pure a) (Pure.pure b) := by
  intro s s' t x hR hrun
  cases hrun
  exact ⟨b, s', rfl, h, hR⟩

theorem bind {m : Action σ α} {m' : Action σ β} {f : α → Action σ γ} {f' : β → Action σ δ} (hm : Shadows R Q m m')
    (hf : ∀ {a b}, Q a b → Shadows R S (f a) (f' b)) : Shadows R S (m >>= f) (m' >>= f') := by
  intro s s' t c hR hrun
  rcases of_run_bind hrun with ⟨e, -, he⟩ | ⟨a, s₁, hfirst, hrun⟩
  · cases he
  · obtain ⟨b, s₁', hfirst', hab, hR₁⟩ := hm hR hfirst
    obtain ⟨d, t', hrest, hcd, hRt⟩ := hf hab hR₁ hrun
    refine ⟨d, t', ?_, hcd, hRt⟩
    rw [run_bind, hfirst']
    exact hrest

/-- Actions that look at their states first. -/
theorem get {f : σ → Action σ γ} {f' : σ → Action σ δ} (hf : ∀ {s s'}, R s s' → Shadows R S (f s) (f' s')) :
    Shadows R S (MonadState.get >>= f) (MonadState.get >>= f') := fun _ _ _ _ hR hrun => hf hR hR hrun

theorem change {f f' : σ → σ} (hf : ∀ {s s'}, R s s' → R (f s) (f' s')) :
    Shadows R Whatever (modify f : Action σ PUnit) (modify f') := by
  intro s s' t a hR hrun
  cases hrun
  exact ⟨⟨⟩, f' s', rfl, trivial, hf hR⟩

theorem discard {m : Action σ α} {m' : Action σ β} (hm : Shadows R Q m m') :
    Shadows R Whatever (Functor.discard m) (Functor.discard m') := hm.bind fun _ => pure trivial

theorem cond {c c' : Prop} [Decidable c] [Decidable c'] {m₁ m₂ : Action σ α} {m₁' m₂' : Action σ β} (hc : c ↔ c')
    (h₁ : Shadows R Q m₁ m₁') (h₂ : Shadows R Q m₂ m₂') : Shadows R Q (if c then m₁ else m₂) (if c' then m₁' else m₂') := by
  by_cases h : c
  · rw [if_pos h, if_pos (hc.1 h)]
    exact h₁
  · rw [if_neg h, if_neg fun h' => h (hc.2 h')]
    exact h₂

/-- A loop over some items that is never left early. -/
theorem loop {f g : α → Action σ PUnit} (hf : ∀ a, Shadows R Whatever (f a) (g a)) (xs : List α) :
    Shadows R Whatever (forIn xs PUnit.unit fun a _ => f a >>= fun _ => Pure.pure (.yield PUnit.unit))
      (forIn xs PUnit.unit fun a _ => g a >>= fun _ => Pure.pure (.yield PUnit.unit)) := by
  induction xs with
  | nil => exact pure trivial
  | cons x xs ih =>
    intro s s' t a hR hrun
    rw [run_for_cons] at hrun
    rw [run_for_cons]
    rcases hfirst : (f x).run s with ⟨y, s₁⟩
    rw [hfirst] at hrun
    cases y with
    | error e => cases hrun
    | ok u =>
      obtain ⟨v, s₁', hfirst', -, hR₁⟩ := hf x hR hfirst
      rw [hfirst']
      exact ih hR₁ hrun

/-- A loop over some pairs that is never left early. -/
theorem loopPairs {ι κ : Type} {f g : ι → κ → Action σ PUnit} (hf : ∀ i k, Shadows R Whatever (f i k) (g i k))
    (xs : List (ι × κ)) :
    Shadows R Whatever
      (forIn xs PUnit.unit fun x _ => match x with
        | (i, k) => f i k >>= fun _ => Pure.pure (.yield PUnit.unit))
      (forIn xs PUnit.unit fun x _ => match x with
        | (i, k) => g i k >>= fun _ => Pure.pure (.yield PUnit.unit)) :=
  loop (f := fun x => f x.1 x.2) (g := fun x => g x.1 x.2) (fun x => hf x.1 x.2) xs

end Shadows

end SimUnix
