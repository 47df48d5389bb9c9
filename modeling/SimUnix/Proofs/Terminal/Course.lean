/-
What may happen while a job runs. A `Course` is a relation between stations that can be followed step
by step; a job stays `Within` a course if it leads from where it begins to where it ends or waits for
an answer, and from wherever it goes on to the next such point. In the meantime anything may have
happened to the station, but the system is sound.
-/
import SimUnix.Terminal.Window
import SimUnix.Proofs.Machine.Operations

namespace SimUnix

/-- The system of a station is sound. -/
def Station.Sound (s : Station) : Prop := s.machine.Sound

/-- From a station, a relation leads to every point where a job ends or waits. -/
def Progress.Within {α : Type} (R : Station → Station → Prop) : Progress α → Station → Prop
  | done _ s', s => R s s'
  | failed _ s', s => R s s'
  | waiting s' resume, s => R s s' ∧ ∀ reply s₁, s₁.Sound → (resume reply s₁).Within R s₁

/-- A job that stays within a relation, wherever it begins. -/
def Job.Within {α : Type} (R : Station → Station → Prop) (job : Job α) : Prop :=
  ∀ s : Station, s.Sound → (job s).Within R s

theorem Progress.Within.mono {α : Type} {R R' : Station → Station → Prop} (h : ∀ {s s'}, R s s' → R' s s') :
    ∀ {p : Progress α} {s : Station}, p.Within R s → p.Within R' s
  | .done _ _, _, hp => h hp
  | .failed _ _, _, hp => h hp
  | .waiting _ _, _, ⟨hp, hr⟩ => ⟨h hp, fun reply s₁ h₁ => Progress.Within.mono h (hr reply s₁ h₁)⟩

/-- A change of a station that leads along a relation. -/
def Move.Leads {α : Type} (R : Station → Station → Prop) (change : Move α) : Prop :=
  ∀ ⦃s s' : Station⦄ ⦃r : Except Fault α⦄, s.Sound → change.run s = (r, s') → R s s'

/-- A relation that can be followed step by step, from sound systems to sound systems. -/
structure Course (R : Station → Station → Prop) : Prop where
  refl : ∀ s, R s s
  trans : ∀ {s₁ s₂ s₃}, R s₁ s₂ → R s₂ s₃ → R s₁ s₃
  sound : ∀ {s s'}, R s s' → s.Sound → s'.Sound

namespace Course

variable {α β : Type} {R : Station → Station → Prop}

/-! ## Jobs one after the other -/

theorem progress_trans (hR : Course R) {s₁ s₂ : Station} (h : R s₁ s₂) : ∀ {p : Progress α}, p.Within R s₂ → p.Within R s₁
  | .done _ _, hp => hR.trans h hp
  | .failed _ _, hp => hR.trans h hp
  | .waiting _ _, ⟨hp, hr⟩ => ⟨hR.trans h hp, hr⟩

theorem progress_bind (hR : Course R) {f : α → Job β} : ∀ {p : Progress α} {s : Station}, s.Sound → p.Within R s →
    (∀ a, Job.Within R (f a)) → (p.bind f).Within R s
  | .done a s', _, hs, hp, hf => hR.progress_trans hp (hf a s' (hR.sound hp hs))
  | .failed _ _, _, _, hp, _ => hp
  | .waiting _ _, _, _, ⟨hp, hr⟩, hf => ⟨hp, fun reply s₁ h₁ => hR.progress_bind h₁ (hr reply s₁ h₁) hf⟩

theorem bind (hR : Course R) {job : Job α} {f : α → Job β} (hj : job.Within R) (hf : ∀ a, Job.Within R (f a)) :
    Job.Within R (job >>= f) := fun s hs => hR.progress_bind hs (hj s hs) hf

theorem pure (hR : Course R) (a : α) : Job.Within R (Pure.pure a : Job α) := fun s _ => hR.refl s

theorem fail (hR : Course R) (e : Fault) : Job.Within R (Job.fail e : Job α) := fun s _ => hR.refl s

theorem map (hR : Course R) {f : α → β} {job : Job α} (hj : job.Within R) : Job.Within R (f <$> job) :=
  hR.bind hj fun _ => hR.pure _

theorem discard (hR : Course R) {job : Job α} (hj : job.Within R) : Job.Within R (Functor.discard job) := hR.map hj

theorem cond {c : Prop} [Decidable c] {j₁ j₂ : Job α} (h₁ : c → j₁.Within R) (h₂ : ¬ c → j₂.Within R) :
    Job.Within R (if c then j₁ else j₂) := by
  by_cases hc : c
  · rw [if_pos hc]
    exact h₁ hc
  · rw [if_neg hc]
    exact h₂ hc

theorem mapM (hR : Course R) {f : α → Job β} {xs : List α} (hf : ∀ a, Job.Within R (f a)) : Job.Within R (xs.mapM f) := by
  have hloop : ∀ (xs : List α) (ys : List β), Job.Within R (List.mapM.loop f xs ys) := by
    intro xs
    induction xs with
    | nil => exact fun ys => hR.pure _
    | cons x xs ih => exact fun ys => hR.bind (hf x) fun y => ih _
  exact hloop xs []

/-! ## Questions -/

theorem machine (hR : Course R) : Job.Within R Job.machine := fun s _ => hR.refl s

theorem terminal (hR : Course R) : Job.Within R Job.terminal := fun s _ => hR.refl s

theorem ofExcept (hR : Course R) (x : Except Fault α) : Job.Within R (Job.ofExcept x) := by
  cases x with
  | ok a => exact hR.pure a
  | error e => exact hR.fail e

/-- A job that looks at the terminal first. -/
theorem terminal_at {f : Terminal → Job α} {s : Station} (hf : (f s.terminal s).Within R s) :
    ((Job.terminal >>= f) s).Within R s := hf

/-- A job that asks the system first. -/
theorem ask_at (hR : Course R) {question : Machine → Except Fault α} {f : α → Job β} {s : Station}
    (hf : ∀ a, question s.machine = .ok a → (f a s).Within R s) : ((Job.ask question >>= f) s).Within R s := by
  show (Progress.bind (Job.ofExcept (question s.machine) s) f).Within R s
  rcases hq : question s.machine with e | a
  · exact hR.refl s
  · exact hf a hq

/-- A question to the system, whose answer holds of a sound one. -/
theorem asked (hR : Course R) {question : Machine → Except Fault α} {f : α → Job β}
    (hf : ∀ a, (∃ s : Machine, s.Sound ∧ question s = .ok a) → Job.Within R (f a)) :
    Job.Within R (Job.ask question >>= f) := fun s hs => hR.ask_at fun a ha => hf a ⟨s.machine, hs, ha⟩ s hs

theorem ask (hR : Course R) (question : Machine → Except Fault α) : Job.Within R (Job.ask question) :=
  fun s hs => hR.ofExcept _ s hs

/-! ## Changes -/

theorem leads_pure (hR : Course R) (a : α) : Move.Leads R (Pure.pure a) := by
  intro s s' r _ hrun
  cases hrun
  exact hR.refl s

theorem leads_bind (hR : Course R) {m : Move α} {f : α → Move β} (hm : m.Leads R) (hf : ∀ a, (f a).Leads R) :
    Move.Leads R (m >>= f) := by
  intro s s' r hs hrun
  rcases of_run_bind hrun with ⟨e, hfirst, -⟩ | ⟨a, s₁, hfirst, hrun⟩
  · exact hm hs hfirst
  · have h₁ := hm hs hfirst
    exact hR.trans h₁ (hf a (hR.sound h₁ hs) hrun)

theorem leads_read {f : Station → Move β} (hf : ∀ s, (f s).Leads R) : Move.Leads R (get >>= f) :=
  fun s _ _ hs hrun => hf s hs hrun

theorem run_act {action : Act α} {s : Station} : (Move.act action).run s =
    ((action.run s.machine).1, { s with machine := (action.run s.machine).2 }) := by
  unfold Move.act
  rw [run_bind, run_get]
  dsimp only
  rcases action.run s.machine with ⟨_ | _, m⟩ <;> rfl

theorem leads_act {action : Act α} (ha : ∀ {s : Station} {m r}, s.Sound → action.run s.machine = (r, m) → R s { s with machine := m }) :
    Move.Leads R (Move.act action) := by
  intro s s' r hs hrun
  rw [run_act] at hrun
  cases hrun
  exact ha hs rfl

theorem leads_ask (hR : Course R) (question : Machine → Except Fault α) : Move.Leads R (Move.ask question) := by
  refine leads_act fun {s m r} _ hrun => ?_
  rw [Act.run_ask] at hrun
  cases hrun
  exact hR.refl s

theorem leads_terminal {change : Terminal → Terminal} (hc : ∀ s : Station, R s { s with terminal := change s.terminal }) :
    Move.Leads R (Move.terminal change) := by
  intro s s' r _ hrun
  cases hrun
  exact hc s

theorem leads_map (hR : Course R) {f : α → β} {m : Move α} (hm : m.Leads R) : Move.Leads R (f <$> m) := by
  rw [← bind_pure_comp]
  exact hR.leads_bind hm fun _ => hR.leads_pure _

theorem move {change : Move α} (hm : change.Leads R) : Job.Within R (Job.move change) := by
  intro s hs
  show (Job.ofExcept (change.run s).1 (change.run s).2).Within R s
  rcases hrun : change.run s with ⟨r, s'⟩
  cases r <;> exact hm hs hrun

theorem act {action : Act α} (ha : ∀ {s : Station} {m r}, s.Sound → action.run s.machine = (r, m) → R s { s with machine := m }) :
    Job.Within R (Job.act action) := move (leads_act ha)

theorem setTerminal {change : Terminal → Terminal} (hc : ∀ s, R s { s with terminal := change s.terminal }) :
    Job.Within R (Job.setTerminal change) := fun s _ => hc s

/-- A question to the host: the prompt is taken before and given back after it. -/
theorem request (hR : Course R) {message : String} {kind : PromptKind}
    (hc : ∀ s prompt, R s { s with terminal := { s.terminal with prompt } }) : Job.Within R (Job.request message kind) := by
  intro s hs
  unfold Job.request
  rcases s.terminal.prompt.request message kind with e | prompt
  · exact hR.refl s
  · refine ⟨hc s prompt, fun reply s₁ h₁ => ?_⟩
    cases reply with
    | some answer => exact hc s₁ _
    | none => exact hc s₁ _

theorem progress_always (hR : Course R) {cleanup : Move Unit} (hm : cleanup.Leads R) :
    ∀ {p : Progress α} {s : Station}, s.Sound → p.Within R s → (p.always cleanup).Within R s
  | .done a s', s, hs, hp => by
    unfold Progress.always
    rcases hc : cleanup.run s' with ⟨x, s₂⟩
    have h₂ := hR.trans hp (hm (hR.sound hp hs) hc)
    cases x <;> exact h₂
  | .failed e s', s, hs, hp => by
    unfold Progress.always
    rcases hc : cleanup.run s' with ⟨x, s₂⟩
    have h₂ := hR.trans hp (hm (hR.sound hp hs) hc)
    cases x <;> exact h₂
  | .waiting _ _, _, _, ⟨hp, hr⟩ => ⟨hp, fun reply s₁ h₁ => hR.progress_always hm h₁ (hr reply s₁ h₁)⟩

theorem always (hR : Course R) {job : Job α} {cleanup : Move Unit} (hj : job.Within R)
    (hm : cleanup.Leads R) : Job.Within R (job.always cleanup) :=
  fun s hs => hR.progress_always hm hs (hj s hs)

end Course

end SimUnix
