/-
No one acts as someone else without a password. A terminal that was opened as a user other than root acts
as that user, and for nobody else, until it is given the right password of an account when a command asks
for it.
-/
import SimUnix.Proofs.Terminal.Vigil

namespace SimUnix

open Shell Machine

/-! ## Plain terminals -/

/-- A terminal on which one user acts, who has given no password for acting as root. -/
structure Terminal.Plain (user : String) (t : Terminal) : Prop where
  sessions : t.sessions = { current := user }
  authorized : t.sudoAuthorized = false

namespace Station

/-- A plain terminal on a sound system. -/
structure Plain (user : String) (s : Station) : Prop where
  sound : s.Sound
  terminal : s.terminal.Plain user

/-- A plain terminal stays plain, and a sound system sound. -/
structure Stays (user : String) (s s' : Station) : Prop where
  sound : s.Sound → s'.Sound
  terminal : s.terminal.Plain user → s'.terminal.Plain user

variable {user : String} {s s' : Station}

theorem Stays.plain (h : s.Stays user s') (hs : s.Plain user) : s'.Plain user := ⟨h.sound hs.sound, h.terminal hs.terminal⟩

theorem Still.stays (h : s.Still s') : s.Stays user s' :=
  ⟨h.beside.sound, fun ht => ⟨h.sessions.trans ht.sessions, h.authorized.trans ht.authorized⟩⟩

theorem still_log {level : Level} {source message : String} {who : Json} :
    s.Still { s with machine := s.machine.logged level source message who } := ⟨⟨aside_logged.idle⟩, rfl, rfl⟩

/-- A plain terminal has no session that could be closed. -/
theorem run_closeSession_plain (h : s.terminal.Plain user) : (closeSession none).run s = (.ok false, s) := by
  have hnone : s.terminal.sessions.close none = none := by
    rw [h.sessions]
    rfl
  unfold closeSession
  rw [run_bind, run_get]
  dsimp only
  rw [hnone]
  rfl

/-- Nothing that a command does for a user makes a terminal act for someone else, unless it is its purpose. -/
theorem service_stays {caller : String} : Service caller (Stays user) where
  refl _ := ⟨id, id⟩
  trans h₁ h₂ := ⟨fun h => h₂.sound (h₁.sound h), fun h => h₂.terminal (h₁.terminal h)⟩
  sound h := h.sound
  still h := h.stays
  leave {s s' _} hs hrun := by
    refine ⟨(idle_closeSession hs hrun).beside.sound, fun ht => ?_⟩
    rw [run_closeSession_plain ht] at hrun
    cases hrun
    exact ht
  call {_ c _ _} hs _ hrun := ⟨fun _ => (c.trail hs.linked hrun).sound hs, id⟩
  perform {_ op _ _} hs _ hrun _ := ⟨fun _ => op.sound hs hrun, id⟩

end Station

open Station

/-! ## Jobs without elevation -/

variable {α β : Type} {user : String}

/-- The answer is the password of the account that the command asks about. -/
def Begun.Proves (b : Begun) (answer : String) (s : Machine) : Prop := ∃ a, b.account? = some a ∧ s.accounts.verify a answer = true

/-- As long as no right password is given, the terminal is plain wherever the job ends or waits, and whatever
begins, begins for the user. `last?` is the command that has begun last, and `Q` holds of the result. -/
inductive Watched.Unelevated (user : String) (Q : α → Prop) : Option Begun → Watched α → Prop
  | done {last? : Option Begun} {a : α} {s : Station} (result : Q a) (plain : s.Plain user) : Unelevated user Q last? (.done a s)
  | failed {last? : Option Begun} {e : Fault} {s : Station} (plain : s.Plain user) : Unelevated user Q last? (.failed e s)
  | waiting {last? : Option Begun} {s : Station} {resume : Option String → Station → Watched α} (plain : s.Plain user)
      (rest : ∀ (reply : Option String) (s₁ : Station), s₁.Plain user →
        (∀ b ∈ last?, ∀ answer ∈ reply, ¬ b.Proves answer s₁.machine) → Unelevated user Q last? (resume reply s₁)) :
      Unelevated user Q last? (.waiting s resume)
  | begins {last? : Option Begun} {b : Begun} {p : Watched α} (who : b.ctx.user = user) (rest : Unelevated user Q (some b) p) :
      Unelevated user Q last? (.begins b p)

/-- A watched job without elevation, wherever it begins on a plain terminal. -/
def Watch.Unelevated (user : String) (w : Watch α) : Prop :=
  ∀ last? s, s.Plain user → (w s).Unelevated user (fun _ => True) last?

namespace Watched

variable {Q : α → Prop} {last? : Option Begun}

theorem Unelevated.bind {f : α → Watch β} {Q' : β → Prop} (hf : ∀ a, Q a → ∀ last? s, s.Plain user → (f a s).Unelevated user Q' last?) :
    ∀ {p : Watched α} {last? : Option Begun}, p.Unelevated user Q last? → (p.bind f).Unelevated user Q' last?
  | _, last?, .done result plain => hf _ result last? _ plain
  | _, _, .failed plain => .failed plain
  | _, _, .waiting plain rest => .waiting plain fun reply s₁ hs hno => Unelevated.bind hf (rest reply s₁ hs hno)
  | _, _, .begins who rest => .begins who (Unelevated.bind hf rest)

/-- What stays on a plain terminal is without elevation. -/
theorem unelevated_ofProgress : ∀ {p : Progress α} {s : Station}, p.Within (Stays user) s → s.Plain user →
    (ofProgress p).Unelevated user (fun _ => True) last?
  | .done _ _, _, hp, hs => .done trivial (hp.plain hs)
  | .failed _ _, _, hp, hs => .failed (hp.plain hs)
  | .waiting _ _, _, hp, hs => .waiting (hp.1.plain hs) fun reply s₁ hs₁ _ => unelevated_ofProgress (hp.2 reply s₁ hs₁.sound) hs₁

end Watched

namespace Watch

theorem unelevated_pure (a : α) : (pure a : Watch α).Unelevated user := fun _ _ hs => .done trivial hs

theorem unelevated_ofJob {job : Job α} (h : job.Within (Stays user)) : (ofJob job).Unelevated user :=
  fun _ s hs => Watched.unelevated_ofProgress (h s hs.sound) hs

theorem unelevated_ofStill {job : Job α} (h : job.Within Still) : (ofJob job).Unelevated user :=
  unelevated_ofJob fun s hs => (h s hs).mono Still.stays

theorem unelevated_bind {w : Watch α} {f : α → Watch β} (hw : w.Unelevated user) (hf : ∀ a, (f a).Unelevated user) :
    (w >>= f).Unelevated user := fun last? s hs => Watched.Unelevated.bind (fun a _ => hf a) (hw last? s hs)

/-- A job that looks at the terminal first. -/
theorem unelevated_terminal {f : Terminal → Watch α} (hf : ∀ t, t.Plain user → (f t).Unelevated user) :
    (ofJob Job.terminal >>= f).Unelevated user := fun last? s hs => hf s.terminal hs.terminal last? s hs

end Watch

open Watch

namespace Command

variable {ctx : Context} {b : Begun} {account : String} {Q : α → Prop}

/-- After a question for a password, a job goes on with a wrong one. -/
theorem unelevated_askPassword {message : String} {f : Exchange → Job α} (hb : b.account? = some account)
    (hf : ∀ e s, s.Plain user → s.machine.accounts.verify account e.answer = false →
      (Watched.ofProgress (f e s)).Unelevated user Q (some b)) {s : Station} (hs : s.Plain user) :
    (Watched.ofProgress ((Job.askPassword message >>= f) s)).Unelevated user Q (some b) := by
  have hprompt : ∀ {s : Station} {prompt : Prompt}, s.Plain user → Plain user { s with terminal := { s.terminal with prompt } } :=
    fun hs => ⟨hs.sound, hs.terminal.sessions, hs.terminal.authorized⟩
  show (Watched.ofProgress (Progress.bind (Progress.bind (Job.request message .password s) _) f)).Unelevated user Q (some b)
  unfold Job.request
  rcases s.terminal.prompt.request message .password with e | prompt
  · exact .failed hs
  · refine .waiting (hprompt hs) fun reply s₁ hs₁ hno => ?_
    cases reply with
    | none => exact .failed (hprompt hs₁)
    | some answer =>
      refine hf { answer, shown := .echo s!"{message} {Job.mask}" } _ (hprompt hs₁) ?_
      rw [← Bool.not_eq_true]
      exact fun hyes => hno b rfl answer rfl ⟨account, hb, hyes⟩

theorem unelevated_cond {c : Prop} [Decidable c] {j₁ j₂ : Job α} {s : Station} {last? : Option Begun}
    (h₁ : c → (Watched.ofProgress (j₁ s)).Unelevated user Q last?) (h₂ : ¬ c → (Watched.ofProgress (j₂ s)).Unelevated user Q last?) :
    (Watched.ofProgress ((if c then j₁ else j₂) s)).Unelevated user Q last? := by
  by_cases hc : c
  · rw [if_pos hc]
    exact h₁ hc
  · rw [if_neg hc]
    exact h₂ hc

theorem unelevated_machine {f : Machine → Job α} {s : Station} {last? : Option Begun}
    (hf : (Watched.ofProgress (f s.machine s)).Unelevated user Q last?) :
    (Watched.ofProgress ((Job.machine >>= f) s)).Unelevated user Q last? := hf

/-- No one but root becomes someone else without a password. -/
theorem unelevated_runSu (hu : ctx.user ≠ rootName) {s : Station} (hs : s.Plain user) :
    (Watched.ofProgress (runSu ctx s)).Unelevated user (fun _ => True) (some { ctx, executable := .program .su }) := by
  have hS : Service ctx.user (Stays user) := service_stays
  refine unelevated_machine (unelevated_cond (fun _ => .done trivial hs) fun _ => unelevated_cond (fun _ => .done trivial hs) fun _ => ?_)
  refine unelevated_cond (fun hroot => absurd hroot hu) fun _ => unelevated_askPassword rfl (fun e s₁ hs₁ hwrong => ?_) hs
  refine unelevated_machine (unelevated_cond (fun hright => ?_) fun _ => ?_)
  · rw [hwrong] at hright
    cases hright
  · exact Watched.unelevated_ofProgress (hS.bind hS.log (fun _ => hS.pure _) s₁ hs₁.sound) hs₁

/-- No one but root is allowed to act as root without a password. -/
theorem unelevated_authorizeSudo (hu : ctx.user ≠ rootName) {s : Station} (hs : s.Plain user) :
    (Watched.ofProgress (authorizeSudo ctx s)).Unelevated user (fun r => r.2.isSome = true)
      (some { ctx, executable := .program .asRoot }) := by
  refine unelevated_cond (fun hroot => absurd hroot hu) fun _ => unelevated_machine (unelevated_cond (fun _ => ?_) fun _ => ?_)
  · exact .done rfl (still_log.stays.plain hs)
  · refine unelevated_cond (fun _ => .done rfl hs) fun _ => ?_
    show (Watched.ofProgress ((if s.terminal.sudoAuthorized then _ else _ : Job _) s)).Unelevated user _ _
    refine unelevated_cond (fun hallowed => ?_) fun _ => unelevated_askPassword rfl (fun e s₁ hs₁ hwrong => ?_) hs
    · rw [hs.terminal.authorized] at hallowed
      cases hallowed
    · refine unelevated_machine (unelevated_cond (fun hright => ?_) fun _ => .done rfl hs₁)
      rw [hwrong] at hright
      cases hright

theorem unelevated_watchSudo (hu : ctx.user ≠ rootName) {run : Watch Outcome} {s : Station} (hs : s.Plain user) :
    (watchSudo ctx run s).Unelevated user (fun _ => True) (some { ctx, executable := .program .asRoot }) := by
  unfold watchSudo
  split
  · exact .done trivial hs
  · refine Watched.Unelevated.bind (fun ⟨shown, refusal?⟩ hrefused last? s hs => ?_) (unelevated_authorizeSudo hu hs)
    cases refusal? with
    | some refusal => exact .done trivial hs
    | none => cases hrefused

end Command

/-! ## Lines without elevation -/

namespace Shell

variable {ctx : Context}

theorem unelevated_watchCommand (hu : ctx.user ≠ rootName) {runAgain : Step → Watch Outcome} {c : Command} {s : Station}
    (hs : s.Plain user) : (watchCommand runAgain ctx c s).Unelevated user (fun _ => True) (some { ctx, executable := .program c }) := by
  by_cases hroot : c = .asRoot
  · cases hroot
    exact Command.unelevated_watchSudo hu hs
  · rw [watchCommand_of_ne hroot]
    by_cases hsu : c = .su
    · cases hsu
      exact Command.unelevated_runSu hu hs
    · exact unelevated_ofJob (served_runCommand service_stays hsu hroot) _ s hs

theorem unelevated_watchStepIn (hu : user ≠ rootName) {input : List String} {cwd : String} {toScreen : Bool} :
    ∀ {depth : Nat} {step : Step}, (watchStepIn input cwd toScreen depth step).Unelevated user
  | 0, _ => unelevated_ofJob ((service_stays : Service user (Stays user)).fail _)
  | depth + 1, step => by
    have hS : Service user (Stays user) := service_stays
    refine unelevated_terminal fun t ht => unelevated_bind (unelevated_ofJob (hS.ask _)) fun found => ?_
    cases found with
    | error why => exact unelevated_pure _
    | ok executable =>
      refine unelevated_bind (unelevated_ofJob (hS.ask _)) fun args last? s hs => ?_
      have hacting : t.user = user := by
        unfold Terminal.user
        rw [ht.sessions]
      refine .begins hacting ?_
      cases executable with
      | app id => exact unelevated_ofJob (within_launch hS.toChore) _ s hs
      | program c => exact unelevated_watchCommand (hacting ▸ hu) hs

theorem unelevated_watchOne (hu : user ≠ rootName) {flow : Flow} {toScreen : Bool} {step : Step} :
    (watchOne flow toScreen step).Unelevated user := by
  have hS : Service user (Stays user) := service_stays
  refine unelevated_terminal fun t ht => unelevated_bind (unelevated_watchStepIn hu) fun o => ?_
  refine unelevated_bind (unelevated_ofJob ?_) fun _ => unelevated_pure _
  unfold settleDirectory
  split
  · exact Course.setTerminal fun _ => hS.still (still_terminal rfl rfl)
  · exact hS.pure _

theorem unelevated_watchSteps (hu : user ≠ rootName) : ∀ {steps : List Step} {flow : Flow}, (watchSteps flow steps).Unelevated user
  | [], _ => unelevated_pure _
  | [step], flow => by
    unfold watchSteps
    refine unelevated_bind (unelevated_watchOne hu) fun o => ?_
    split
    · exact unelevated_ofJob fun s hs => redirect_within hs service_stays.toScribe
    · exact unelevated_pure _
  | step :: next :: rest, flow => by
    unfold watchSteps
    exact unelevated_bind (unelevated_watchOne hu) fun o => unelevated_watchSteps hu

theorem unelevated_watchPipelines (hu : user ≠ rootName) : ∀ {pipelines : List Pipeline} {r : Result},
    (watchPipelines r pipelines).Unelevated user
  | [], _ => unelevated_pure _
  | p :: rest, r => by
    unfold watchPipelines
    refine unelevated_bind (unelevated_watchSteps hu) fun o => ?_
    dsimp only
    split
    · exact unelevated_pure _
    · exact unelevated_watchPipelines hu

theorem unelevated_watchExecute (hu : user ≠ rootName) {line : String} : (watchExecute line).Unelevated user := by
  unfold watchExecute
  refine unelevated_terminal fun t _ => ?_
  dsimp only
  exact unelevated_watchPipelines hu

end Shell

namespace Window

theorem unelevated_watchStart (hu : user ≠ rootName) {line : String} : (watchStart line).Unelevated user := by
  unfold watchStart
  refine unelevated_bind (unelevated_ofStill still_receive) fun prompt => ?_
  split
  · exact unelevated_ofStill still_pass
  · refine unelevated_bind (unelevated_watchExecute hu) fun r => ?_
    exact unelevated_ofStill still_conclude

end Window

/-! ## Runs without elevation -/

/-- A vigil over a terminal on which no one has become anyone else, as long as no right password is given. -/
structure Vigil.Unelevated (user : String) (v : Vigil) : Prop where
  terminal : v.terminal.Plain user
  begun : ∀ b ∈ v.begun, b.ctx.user = user
  waits : ∀ resume, v.waiting? = some resume → ∀ (reply : Option String) (s : Station), s.Plain user →
    (∀ b ∈ v.begun.getLast?, ∀ answer ∈ reply, ¬ b.Proves answer s.machine) →
      (resume reply s).Unelevated user (fun _ => True) v.begun.getLast?

namespace Vigil

variable {v v' : Vigil} {s s' : Machine}

theorem follow_proven : ∀ {p : Watched Finished} {v : Vigil}, (v.follow p).2.1.proven = v.proven
  | .done _ _, _ => rfl
  | .failed _ _, _ => rfl
  | .waiting _ _, _ => rfl
  | .begins _ rest, _ => follow_proven (p := rest)

/-- Where no right password has been given, the answer was none. -/
theorem not_proves_of_hear {answer : String} (h : (v.hear s answer).proven = []) :
    v.proven = [] ∧ ∀ b ∈ v.begun.getLast?, ¬ b.Proves answer s := by
  obtain ⟨hbefore, hnow⟩ := List.append_eq_nil_iff.1 h
  refine ⟨hbefore, fun b hb ⟨a, ha, hright⟩ => ?_⟩
  have haccount : v.account? = some a := by
    unfold account?
    rw [hb]
    exact ha
  rw [haccount, Option.filter_some_pos (p := (s.accounts.verify · answer)) hright] at hnow
  cases hnow

theorem unelevated_follow {r : Except Fault Response} : ∀ {p : Watched Finished} {v : Vigil}, (∀ b ∈ v.begun, b.ctx.user = user) →
    p.Unelevated user (fun _ => True) v.begun.getLast? → v.follow p = (r, v', s') → v'.Unelevated user
  | _, v, hbegun, .done _ plain, h => by
    cases h
    exact ⟨plain.terminal, hbegun, fun _ hw => by cases hw⟩
  | _, v, hbegun, .failed plain, h => by
    cases h
    exact ⟨plain.terminal, hbegun, fun _ hw => by cases hw⟩
  | _, v, hbegun, .waiting plain rest, h => by
    cases h
    refine ⟨plain.terminal, hbegun, fun _ hw => ?_⟩
    cases hw
    exact rest
  | _, v, hbegun, .begins (b := b) who rest, h => by
    refine unelevated_follow (v := { v with begun := v.begun ++ [b] }) (fun b' hb' => ?_) ?_ h
    · rcases List.mem_append.1 hb' with hb' | hb'
      · exact hbegun b' hb'
      · cases List.mem_singleton.1 hb'
        exact who
    · dsimp only
      rw [List.getLast?_concat]
      exact rest

theorem next_waiting {resume : Option String → Station → Watched Finished} (h : v.next? = some resume) : v.waiting? = some resume := by
  unfold next? at h
  split at h
  · exact h
  · cases h

theorem proven_submit {line : String} (h : (v.submit s line).2.1.proven = []) : v.proven = [] := by
  unfold submit at h
  split at h
  · rw [follow_proven] at h
    exact (not_proves_of_hear h).1
  · rwa [follow_proven] at h

/-- A command line proves nothing. -/
theorem proven_start {line : String} (h : v.waiting? = none) : (v.submit s line).2.1.proven = v.proven := by
  have hnext : v.next? = none := by
    unfold next?
    rw [h, ite_self]
  unfold submit
  rw [hnext]
  exact follow_proven

theorem proven_abandon : (v.abandon s).2.1.proven = v.proven := by
  unfold abandon
  split
  · exact follow_proven
  · rfl

/-- A line, or a wrong answer, makes no one act as someone else. -/
theorem unelevated_submit (hu : user ≠ rootName) (h : v.Unelevated user) (hs : s.Sound) {line : String}
    (hno : (v.submit s line).2.1.proven = []) : (v.submit s line).2.1.Unelevated user := by
  have hplain : Station.Plain user { machine := s, terminal := v.terminal } := ⟨hs, h.terminal⟩
  unfold submit at hno ⊢
  split at hno
  · rename_i resume hnext
    rw [follow_proven] at hno
    have hwrong := (not_proves_of_hear hno).2
    have hrest := h.waits resume (next_waiting hnext) (some line) _ hplain fun b hb answer hanswer => by
      cases hanswer
      exact hwrong b hb
    exact unelevated_follow (v := v.hear s line) h.begun hrest rfl
  · exact unelevated_follow h.begun (Window.unelevated_watchStart hu _ _ hplain) rfl

theorem unelevated_abandon (h : v.Unelevated user) (hs : s.Sound) : (v.abandon s).2.1.Unelevated user := by
  have hplain : Station.Plain user { machine := s, terminal := v.terminal } := ⟨hs, h.terminal⟩
  unfold abandon
  split
  · rename_i resume hnext
    have hrest : (v.follow (resume none { machine := s, terminal := v.terminal })).2.1.Unelevated user :=
      unelevated_follow h.begun (h.waits resume (next_waiting hnext) none _ hplain fun _ _ _ hanswer => by cases hanswer) rfl
    exact ⟨hrest.terminal, hrest.begun, fun _ hw => by cases hw⟩
  · exact h

theorem Unelevated.stays {t : Terminal} (h : v.Unelevated user) (ht : t.Plain user) :
    Vigil.Unelevated user { v with terminal := t } := ⟨ht, h.begun, h.waits⟩

end Vigil

namespace World

variable {i : Nat} {w : World} {v : Vigil}

theorem plain_openTerminal {s : Machine} {user? : Option Json} {launches closes : Bool} {t : Terminal}
    (h : s.openTerminal user? launches closes = .ok t) : t.Plain t.user := by
  obtain ⟨_, -, h⟩ := bind_ok.1 h
  obtain ⟨_, -, h⟩ := bind_ok.1 h
  obtain ⟨_, -, h⟩ := bind_ok.1 h
  obtain ⟨_, -, h⟩ := bind_ok.1 h
  cases h
  exact ⟨rfl, rfl⟩

theorem Follows.vigil_unelevated (h : Follows user i w v) (hu : user ≠ rootName) (hno : v.proven = []) : v.Unelevated user := by
  have hS : Service user (Stays user) := service_stays
  induction h with
  | opens _ run who _ => exact ⟨who ▸ plain_openTerminal run, fun _ hb => (by cases hb), fun _ hw => (by cases hw)⟩
  | elsewhere _ _ _ ih => exact ih hno
  | @start w v r s before run ih =>
    have hs : Station.Sound { machine := w.machine, terminal := v.terminal } := before.reachable.1.sound.machine
    have hstart := Window.within_start hS (fun hs hrun => ⟨fun _ => steady_sound.checkIntegrity hs hrun, id⟩) hs run
    exact (ih hno).stays (hstart.terminal (ih hno).terminal)
  | @submit w v v' line r s before run ih =>
    have hv : (v.submit w.machine line).2.1 = v' := by rw [run]
    rw [← hv] at hno ⊢
    exact Vigil.unelevated_submit hu (ih (Vigil.proven_submit hno)) before.reachable.1.sound.machine hno
  | @abandon w v v' b s before run ih =>
    have hv : (v.abandon w.machine).2.1 = v' := by rw [run]
    rw [← hv] at hno ⊢
    exact Vigil.unelevated_abandon (ih (Vigil.proven_abandon.symm.trans hno)) before.reachable.1.sound.machine
  | @interrupt w v input r s before run ih =>
    have hs : Station.Sound { machine := w.machine, terminal := v.terminal } := before.reachable.1.sound.machine
    exact (ih hno).stays ((Window.within_interrupt hS hs run).terminal (ih hno).terminal)

/-- No elevation without a password. As long as a terminal that was opened as a user other than root has not
been given the right password of an account that a command asked about, that user is the only one who acts
on it, may not act as root, and is the one for whom every command has begun. -/
theorem Follows.unelevated (h : Follows user i w v) (hu : user ≠ rootName) (hno : v.proven = []) :
    w.windows[i]? = some v.window ∧ v.window.terminal.sessions.toList = [user] ∧ v.window.terminal.sudoAuthorized = false ∧
      ∀ b ∈ v.begun, b.ctx.user = user := by
  have hv := h.vigil_unelevated hu hno
  refine ⟨h.reachable.2, ?_, hv.terminal.authorized, hv.begun⟩
  rw [show v.window.terminal.sessions = { current := user } from hv.terminal.sessions]
  rfl

/-- A world whose system has not been started yet. -/
def unstarted : World := { machine := Machine.create (.memory []) "aurora" {} { stem := "n" } { seconds := 0 } }

/-- A terminal that was opened as alice before the system was started. -/
def aliceTerminal : Terminal :=
  { sessions := { current := "alice" }, cwd := "/", env := Environment.forSession "alice" "/home/alice" "/",
    history := { user := "alice" }, launches := true, closes := true }

theorem follows_opened {terminal : Terminal} (h : unstarted.machine.openTerminal (some (.str user)) true true = .ok terminal)
    (hu : terminal.user = user) :
    Follows user 0 { unstarted with windows := [{ terminal }] } { terminal } := .opens (.first Store.empty_memory) h hu rfl

/-- A terminal after a line has been given up that was typed on it. -/
def givenUp (v : Vigil) (s : Machine) (line : String) : Vigil :=
  ((v.submit s line).2.1.abandon (v.submit s line).2.2).2.1

theorem Follows.givenUp (h : Follows user i w v) (line : String) : ∃ w', Follows user i w' (givenUp v w.machine line) :=
  ⟨_, .abandon (.submit h (show v.submit w.machine line = (_, _, _) from rfl)) rfl⟩

theorem proven_givenUp {s : Machine} {line : String} (h : v.waiting? = none) : (givenUp v s line).proven = v.proven :=
  Vigil.proven_abandon.trans (Vigil.proven_start h)

/-- On a system that has been started, alice has given up an attempt to act as root. -/
theorem follows_alice : ∃ w v, Follows "alice" 0 w v ∧ v.proven = [] := by
  have hopen : Follows "alice" 0 { unstarted with windows := [{ terminal := aliceTerminal }] } { terminal := aliceTerminal } :=
    follows_opened rfl rfl
  have hboot := Follows.elsewhere hopen (hopen.reachable.1.perform .boot) rfl
  obtain ⟨w, hw⟩ := hboot.givenUp "su"
  exact ⟨w, _, hw, proven_givenUp rfl⟩

theorem unelevated_alice : "alice" ≠ rootName ∧ ∃ w v, Follows "alice" 0 w v ∧ v.proven = [] ∧
    w.windows[0]? = some v.window ∧ v.window.terminal.sessions.toList = ["alice"] ∧
      v.window.terminal.sudoAuthorized = false ∧ ∀ b ∈ v.begun, b.ctx.user = "alice" := by
  obtain ⟨w, v, hw, hno⟩ := follows_alice
  exact ⟨by decide, w, v, hw, hno, hw.unelevated (by decide) hno⟩

end World

end SimUnix
