/-
Jobs as a lawful monad: two programs are equal if they do the same from every station and with every answer, so that they can
be taken apart and put together by the laws of monads. A job comes `Only` to some results if all the results are so that it can
have, whatever is answered and whatever the station is when it goes on.
-/
import SimUnix.Terminal.Job

namespace SimUnix

variable {α β γ : Type}

namespace Progress

theorem bind_pure : ∀ p : Progress α, p.bind (pure : α → Job α) = p
  | done _ _ => rfl
  | failed _ _ => rfl
  | waiting s _ => congrArg (waiting s) (funext fun _ => funext fun _ => bind_pure _)

theorem bind_assoc (f : α → Job β) (g : β → Job γ) : ∀ p : Progress α, (p.bind f).bind g = p.bind fun a => f a >>= g
  | done _ _ => rfl
  | failed _ _ => rfl
  | waiting s _ => congrArg (waiting s) (funext fun _ => funext fun _ => bind_assoc f g _)

/-- Whenever the job comes to an end with a result, the result satisfies `P`. -/
inductive Only (P : α → Prop) : Progress α → Prop
  | done {a : α} {s : Station} (h : P a) : Only P (.done a s)
  | failed {e : Fault} {s : Station} : Only P (.failed e s)
  | waiting {s : Station} {resume : Option String → Station → Progress α} (h : ∀ reply s₁, Only P (resume reply s₁)) :
      Only P (.waiting s resume)

/-- How a job goes on matters only for the results that it can have. -/
theorem Only.bind_congr {P : α → Prop} {p : Progress α} {f g : α → Job β} (h : p.Only P) (hfg : ∀ a, P a → f a = g a) :
    p.bind f = p.bind g := by
  induction h with
  | @done a s h => exact congrFun (hfg a h) s
  | failed => rfl
  | @waiting s resume _ ih => exact congrArg (Progress.waiting s) (funext fun reply => funext fun s₁ => ih reply s₁)

end Progress

instance : LawfulMonad Job := LawfulMonad.mk' Job
  (fun job => funext fun s => (job s).bind_pure)
  (fun _ _ => rfl)
  (fun job f g => funext fun s => (job s).bind_assoc f g)

namespace Job

theorem terminal_bind (f : Terminal → Job α) (s : Station) : (Job.terminal >>= f) s = f s.terminal s := rfl

theorem bind_done {job : Job α} {f : α → Job β} {a : α} {s s' : Station} (h : job s = .done a s') : (job >>= f) s = f a s' := by
  show (job s).bind f = f a s'
  rw [h]
  rfl

/-- Two jobs one after the other are done if both are. -/
theorem done_of_bind {job : Job α} {f : α → Job β} {b : β} {s s' : Station} (h : (job >>= f) s = .done b s') :
    ∃ a s₁, job s = .done a s₁ ∧ f a s₁ = .done b s' := by
  change (job s).bind f = .done b s' at h
  rcases hjob : job s with ⟨a, s₁⟩ | ⟨e, s₁⟩ | ⟨s₁, resume⟩
  · rw [hjob] at h
    exact ⟨a, s₁, rfl, h⟩
  · rw [hjob] at h
    cases h
  · rw [hjob] at h
    cases h

end Job

end SimUnix
