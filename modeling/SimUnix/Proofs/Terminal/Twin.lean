/-
Terminals on systems that differ in a password only. What a job does on both is the same up to the point
where it ends or asks for something, and leaves the systems different in nothing else. The record of a
password lies apart from those of the histories, so that no history is read or written differently.
-/
import SimUnix.Proofs.Machine.Abreast
import SimUnix.Proofs.Terminal.Beside

namespace SimUnix

variable {target : String} {α β : Type}

/-! ## Histories -/

theorem Store.Twin.get_letter {σ τ : Store} {key : String} (h : σ.Twin target τ) (hkey : key.toList[7]? = some 't') :
    τ.get key = σ.get key := by
  have husers : usersKey.toList[7]? = some 'u' := by decide +kernel
  have hfile : (fileName usersKey).toList[7]? = some 'u' := by decide +kernel
  refine h.get (fun he => ?_) fun he => ?_
  · rw [he, husers] at hkey
    cases hkey
  · have hname := fileName_letter hkey
    rw [he, hfile] at hname
    cases hname

/-- The same history, kept in two such stores. -/
structure History.Twin (target : String) (p q : History × Store) : Prop where
  history : q.1 = p.1
  store : p.2.Twin target q.2

/-- A change of a history that no password makes a difference to. -/
abbrev Remember.Blind (target : String) (change : Remember Unit) : Prop := InStep (History.Twin target) change change

namespace History

theorem blind_change (f : History → History) : Remember.Blind target (change f) :=
  InStep.change fun h => ⟨congrArg f h.history, h.store⟩

theorem blind_put (key : String) (value : Json) : Remember.Blind target (save.put key value) := InStep.get fun {p q} h => by
  obtain ⟨history, σ⟩ := p
  obtain ⟨_, τ⟩ := q
  obtain ⟨rfl, hστ⟩ := h
  dsimp only
  rcases hστ.write key value with ⟨e, ha, hb⟩ | ⟨σ', τ', ha, hb, hστ'⟩
  · rw [ha, hb]
    exact .throw e
  · rw [ha, hb]
    exact .set ⟨rfl, hστ'⟩

theorem blind_save : Remember.Blind target save := InStep.get fun h => by
  rw [h.history]
  dsimp only
  split
  · exact .throw _
  · exact (blind_put _ _).bind fun _ => blind_put _ _

theorem blind_load : Remember.Blind target load := InStep.get fun {p q} h => by
  obtain ⟨history, σ⟩ := p
  obtain ⟨_, τ⟩ := q
  obtain ⟨rfl, hστ⟩ := h
  have hblocks : ∀ user, storedBlocks user τ = storedBlocks user σ := by
    intro user
    unfold storedBlocks Store.getFilled
    rw [hστ.get_letter (Store.letter_historyKey user)]
  have hcommands : ∀ user, storedCommands user τ = storedCommands user σ := by
    intro user
    unfold storedCommands Store.getFilled
    rw [hστ.get_letter (Store.letter_inputKey user)]
  simp only [hblocks, hcommands]
  split
  · exact .throw _
  · refine InStep.bind (.set ⟨rfl, hστ⟩) fun _ => ?_
    split
    · exact .throw _
    · exact .set ⟨rfl, hστ⟩

theorem blind_add (b : Block) : Remember.Blind target (add b) := (blind_change _).bind fun _ => blind_save

theorem blind_clear : Remember.Blind target clear := (blind_change _).bind fun _ => blind_save

theorem blind_switch (user : String) : Remember.Blind target (switch user) := InStep.get fun h => by
  rw [h.history]
  exact .cond (fun _ => blind_save.bind fun _ => (blind_change _).bind fun _ => blind_load) fun _ => .pure _

end History

/-! ## Moves -/

/-- The same terminal on two such systems. -/
structure Station.Twin (target : String) (s s' : Station) : Prop where
  terminal : s'.terminal = s.terminal
  machine : s.machine.Twin target s'.machine

/-- A move that no password makes a difference to. -/
abbrev Move.Blind (target : String) (move : Move α) : Prop := InStep (Station.Twin target) move move

namespace Station

theorem Twin.withTerminal {s s' : Station} (h : s.Twin target s') (change : Terminal → Terminal) :
    Twin target { s with terminal := change s.terminal } { s' with terminal := change s'.terminal } :=
  ⟨congrArg change h.terminal, h.machine⟩

theorem blind_terminal (change : Terminal → Terminal) : Move.Blind target (Move.terminal change) :=
  InStep.change fun h => h.withTerminal change

theorem inStep_act {action action' : Act α} (ha : InStep (Machine.Twin target) action action') :
    InStep (Station.Twin target) (Move.act action) (Move.act action') := by
  intro s s' h
  obtain ⟨hresult, hmachine⟩ := ha h.machine
  rw [Course.run_act, Course.run_act]
  exact ⟨hresult, h.terminal, hmachine⟩

theorem blind_history {change : Remember Unit} (hc : Remember.Blind target change) : Move.Blind target (Move.history change) :=
  InStep.get fun {s s'} h => by
    obtain ⟨hresult, hpair⟩ := hc (show History.Twin target (s.terminal.history, s.machine.store)
      (s'.terminal.history, s'.machine.store) from ⟨congrArg Terminal.history h.terminal, h.machine.store⟩)
    rcases hrun : change.run (s.terminal.history, s.machine.store) with ⟨x, history, σ⟩
    rcases hrun' : change.run (s'.terminal.history, s'.machine.store) with ⟨x', history', τ⟩
    rw [hrun, hrun'] at hresult hpair
    cases hresult
    refine InStep.bind (.set ⟨?_, h.machine.withStore hpair.store⟩) fun _ => ?_
    · show { s'.terminal with history := history' } = { s.terminal with history }
      rw [h.terminal, show history' = history from hpair.history]
    · cases x with
      | error e => exact .throw e
      | ok _ => exact .pure _

theorem blind_ask {question : Machine → Except Fault α}
    (hq : ∀ {s s' : Machine}, s.Twin target s' → question s' = question s) : Move.Blind target (Move.ask question) :=
  inStep_act (Act.blind_ask hq)

theorem blind_followUser : Move.Blind target followUser := InStep.get fun h => by
  rw [h.terminal]
  refine (blind_history (History.blind_switch _)).bind fun _ => (blind_ask fun h => h.homePath _).bind fun _ => ?_
  exact blind_terminal _

theorem blind_pushSession {user : String} : Move.Blind target (pushSession user) :=
  (blind_terminal _).bind fun _ => blind_followUser

theorem blind_closeSession {position? : Option Int} : Move.Blind target (closeSession position?) := InStep.get fun h => by
  rw [h.terminal]
  split
  · exact .pure _
  · exact (blind_terminal _).bind fun _ => blind_followUser.bind fun _ => .pure _

end Station

/-! ## Jobs -/

/-- Two jobs that have got equally far on two such stations: done or failed alike, or waiting to go on alike. -/
inductive Progress.Abreast (target : String) : Progress α → Progress α → Prop
  | done {a : α} {s s' : Station} (h : s.Twin target s') : Abreast target (.done a s) (.done a s')
  | failed {e : Fault} {s s' : Station} (h : s.Twin target s') : Abreast target (.failed e s) (.failed e s')
  | waiting {s s' : Station} {resume : Option String → Station → Progress α} (h : s.Twin target s') :
      Abreast target (.waiting s resume) (.waiting s' resume)

namespace Progress.Abreast

variable {p p' : Progress α}

theorem bind {f : α → Job β} (h : p.Abreast target p')
    (hf : ∀ (a : α) ⦃s s' : Station⦄, s.Twin target s' → (f a s).Abreast target (f a s')) :
    (p.bind f).Abreast target (p'.bind f) := by
  cases h with
  | done h => exact hf _ h
  | failed h => exact .failed h
  | waiting h => exact .waiting h

theorem always {cleanup : Move Unit} (h : p.Abreast target p') (hc : Move.Blind target cleanup) :
    (p.always cleanup).Abreast target (p'.always cleanup) := by
  cases h with
  | waiting h => exact .waiting h
  | @done a s s' h =>
    obtain ⟨hresult, hstation⟩ := hc h
    unfold Progress.always
    rcases hrun : cleanup.run s with ⟨x, t⟩
    rcases hrun' : cleanup.run s' with ⟨x', t'⟩
    rw [hrun, hrun'] at hresult hstation
    cases hresult
    cases x with
    | error e => exact .failed hstation
    | ok _ => exact .done hstation
  | @failed e s s' h =>
    obtain ⟨hresult, hstation⟩ := hc h
    unfold Progress.always
    rcases hrun : cleanup.run s with ⟨x, t⟩
    rcases hrun' : cleanup.run s' with ⟨x', t'⟩
    rw [hrun, hrun'] at hresult hstation
    cases hresult
    cases x <;> exact .failed hstation

end Progress.Abreast

/-- Two jobs that get equally far wherever they begin. -/
def Job.Abreast (target : String) (job job' : Job α) : Prop :=
  ∀ ⦃s s' : Station⦄, s.Twin target s' → (job s).Abreast target (job' s')

/-- A job that no password makes a difference to. -/
abbrev Job.Blind (target : String) (job : Job α) : Prop := Job.Abreast target job job

namespace Job.Abreast

theorem pure (a : α) : Job.Blind target (Pure.pure a) := fun _ _ h => .done h

theorem fail (e : Fault) : Job.Blind (α := α) target (Job.fail e) := fun _ _ h => .failed h

theorem bind {job job' : Job α} {f : α → Job β} (hj : Job.Abreast target job job') (hf : ∀ a, Job.Blind target (f a)) :
    Job.Abreast target (job >>= f) (job' >>= f) := fun _ _ h => (hj h).bind hf

theorem discard {job job' : Job α} (hj : Job.Abreast target job job') :
    Job.Abreast target (Functor.discard job) (Functor.discard job') := hj.bind fun _ => pure _

theorem cond {c : Prop} [Decidable c] {j₁ j₂ j₁' j₂' : Job α} (h₁ : c → Job.Abreast target j₁ j₁')
    (h₂ : ¬ c → Job.Abreast target j₂ j₂') : Job.Abreast target (if c then j₁ else j₂) (if c then j₁' else j₂') := by
  by_cases hc : c
  · rw [if_pos hc, if_pos hc]
    exact h₁ hc
  · rw [if_neg hc, if_neg hc]
    exact h₂ hc

theorem mapM {f : α → Job β} (hf : ∀ a, Job.Blind target (f a)) (xs : List α) : Job.Blind target (xs.mapM f) := by
  have hloop : ∀ (xs : List α) (ys : List β), Job.Blind target (List.mapM.loop f xs ys) := by
    intro xs
    induction xs with
    | nil => exact fun ys => pure _
    | cons x xs ih => exact fun ys => (hf x).bind fun y => ih _
  exact hloop xs []

/-- Jobs that look at the system first. -/
theorem machine {f f' : Machine → Job α} (hf : ∀ {s s' : Machine}, s.Twin target s' → Job.Abreast target (f s) (f' s')) :
    Job.Abreast target (Job.machine >>= f) (Job.machine >>= f') := fun _ _ h => hf h.machine h

theorem terminal : Job.Blind target Job.terminal := fun s s' h => by
  show (Progress.done s.terminal s).Abreast target (.done s'.terminal s')
  rw [h.terminal]
  exact .done h

theorem setTerminal (change : Terminal → Terminal) : Job.Blind target (Job.setTerminal change) :=
  fun _ _ h => .done (h.withTerminal change)

theorem ofExcept (x : Except Fault α) : Job.Blind target (Job.ofExcept x) := by
  cases x with
  | ok a => exact pure a
  | error e => exact fail e

theorem ask {question : Machine → Except Fault α} (hq : ∀ {s s' : Machine}, s.Twin target s' → question s' = question s) :
    Job.Blind target (Job.ask question) := fun s s' h => by
  show (Job.ofExcept (question s.machine) s).Abreast target (Job.ofExcept (question s'.machine) s')
  rw [hq h.machine]
  exact ofExcept _ h

theorem move {change change' : Move α} (hm : InStep (Station.Twin target) change change') :
    Job.Abreast target (Job.move change) (Job.move change') := fun s s' h => by
  obtain ⟨hresult, hstation⟩ := hm h
  show (Job.ofExcept (change.run s).1 (change.run s).2).Abreast target (Job.ofExcept (change'.run s').1 (change'.run s').2)
  rw [hresult]
  exact ofExcept _ hstation

theorem act {action action' : Act α} (ha : InStep (Machine.Twin target) action action') :
    Job.Abreast target (Job.act action) (Job.act action') := move (Station.inStep_act ha)

/-- Jobs that ask for something first, whatever they do with the answer. -/
theorem asks (message : String) (kind : PromptKind) {g : String → Job β} {f : β → Job α} :
    Job.Blind target (Job.request message kind >>= g >>= f) := fun s s' h => by
  show (((Job.request message kind s).bind g).bind f).Abreast target (((Job.request message kind s').bind g).bind f)
  unfold Job.request
  rw [h.terminal]
  split
  · exact .failed h
  · exact .waiting ⟨rfl, h.machine⟩

theorem always {job job' : Job α} {cleanup : Move Unit} (hj : Job.Abreast target job job') (hc : Move.Blind target cleanup) :
    Job.Abreast target (job.always cleanup) (job'.always cleanup) := fun _ _ h => (hj h).always hc

end Job.Abreast

end SimUnix
