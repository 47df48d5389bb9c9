/-
What is typed for a password shows nowhere. Answers to `su` and `sudo` that are both right or both wrong
lead to the same in everything; and new passwords, which `passwd` asks for twice, lead to systems that
differ in nothing but that password, in the table of users and its record.
-/
import SimUnix.Proofs.Terminal.Blind
import SimUnix.Proofs.Terminal.Elevation

namespace SimUnix

open Shell Machine

variable {α β : Type}

/-! ## Jobs that ask for nothing -/

/-- A job that is over, one way or the other. -/
inductive Progress.Over : Progress α → Prop
  | done {a : α} {s : Station} : Over (.done a s)
  | failed {e : Fault} {s : Station} : Over (.failed e s)

namespace Progress.Over

variable {p : Progress α}

theorem bind {f : α → Job β} (h : p.Over) (hf : ∀ a s, (f a s).Over) : (p.bind f).Over := by
  cases h with
  | done => exact hf _ _
  | failed => exact .failed

theorem always {cleanup : Move Unit} (h : p.Over) : (p.always cleanup).Over := by
  unfold Progress.always
  cases h with
  | done =>
    dsimp only
    split
    · exact .done
    · exact .failed
  | failed =>
    dsimp only
    split <;> exact .failed

end Progress.Over

/-- A job that never waits for an answer. -/
def Job.Silent (job : Job α) : Prop := ∀ s, (job s).Over

namespace Job.Silent

theorem pure (a : α) : Silent (Pure.pure a : Job α) := fun _ => .done

theorem bind {job : Job α} {f : α → Job β} (hj : job.Silent) (hf : ∀ a, (f a).Silent) : Silent (job >>= f) :=
  fun s => (hj s).bind hf

theorem cond {c : Prop} [Decidable c] {j₁ j₂ : Job α} (h₁ : j₁.Silent) (h₂ : j₂.Silent) : Silent (if c then j₁ else j₂) := by
  split
  · exact h₁
  · exact h₂

theorem machine : Silent Job.machine := fun _ => .done

theorem terminal : Silent Job.terminal := fun _ => .done

theorem setTerminal (change : Terminal → Terminal) : Silent (Job.setTerminal change) := fun _ => .done

theorem ofExcept (x : Except Fault α) : Silent (Job.ofExcept x) := by
  intro s
  cases x with
  | ok a => exact .done
  | error e => exact .failed

theorem ask (question : Machine → Except Fault α) : Silent (Job.ask question) := fun s => ofExcept _ s

theorem move (change : Move α) : Silent (Job.move change) := fun _ => ofExcept _ _

theorem act (action : Act α) : Silent (Job.act action) := move _

end Job.Silent

/-! ## Discreet jobs -/

/-- The user whose password a command changes. -/
def Begun.target? (b : Begun) : Option String :=
  match b.executable with
  | .program .passwd => some (b.ctx.args.headD b.ctx.user)
  | _ => none

/-- The question for a new password, when it is asked again. -/
def retyping : Prompt := { active := true, message := "Retype new password:", kind := .password }

/-- A command that has asked something goes on so that its answer does not show. -/
structure Begun.Conceals (b : Begun) (message : String) (resume : Option String → Station → Watched α) : Prop where
  /-- Passwords that are both right or both wrong lead to the same. -/
  alike : ∀ account, b.account? = some account → ∀ (s : Station) (x y : String),
    s.machine.accounts.verify account x = s.machine.accounts.verify account y → resume (some x) s = resume (some y) s
  /-- A new password is asked for again, whatever it is, and leads to the same but for the password. -/
  twins : ∀ target, b.target? = some target → message = "New password:" → ∀ (s : Station) (x y : String), ∃ again again',
    resume (some x) s = .waiting { s with terminal := { s.terminal with prompt := retyping } } again ∧
    resume (some y) s = .waiting { s with terminal := { s.terminal with prompt := retyping } } again' ∧
    ∀ s₁, (again (some x) s₁).progress.Abreast target (again' (some y) s₁).progress

/-- Whatever a job asks, it conceals the answer. `last?` is the command that has begun last. -/
inductive Watched.Discreet : Option Begun → Watched α → Prop
  | done {last? : Option Begun} {a : α} {s : Station} : Discreet last? (.done a s)
  | failed {last? : Option Begun} {e : Fault} {s : Station} : Discreet last? (.failed e s)
  | waiting {last? : Option Begun} {s : Station} {resume : Option String → Station → Watched α}
      (now : ∀ b ∈ last?, b.Conceals s.terminal.prompt.message resume)
      (rest : ∀ reply s₁, Discreet last? (resume reply s₁)) : Discreet last? (.waiting s resume)
  | begins {last? : Option Begun} {b : Begun} {p : Watched α} (rest : Discreet (some b) p) : Discreet last? (.begins b p)

/-- A watched job that conceals all answers, and that no password makes a difference to before it asks. -/
structure Watch.Discreet (w : Watch α) : Prop where
  conceals : ∀ last? s, (w s).Discreet last?
  blind : ∀ target, Job.Blind target w.job

namespace Begun.Conceals

variable {b : Begun} {message : String} {resume : Option String → Station → Watched α}

theorem bind {f : α → Watch β} (h : b.Conceals message resume) (hf : ∀ a, (f a).Discreet) :
    b.Conceals message fun reply s => (resume reply s).bind f where
  alike account ha s x y hxy := congrArg (Watched.bind · f) (h.alike account ha s x y hxy)
  twins target ht hm s x y := by
    obtain ⟨again, again', hx, hy, htwins⟩ := h.twins target ht hm s x y
    refine ⟨_, _, congrArg (Watched.bind · f) hx, congrArg (Watched.bind · f) hy, fun s₁ => ?_⟩
    rw [Watched.progress_bind, Watched.progress_bind]
    exact (htwins s₁).bind fun a => (hf a).blind target

theorem always {cleanup : Move Unit} (h : b.Conceals message resume) (hc : ∀ target, Move.Blind target cleanup) :
    b.Conceals message fun reply s => (resume reply s).always cleanup where
  alike account ha s x y hxy := congrArg (Watched.always cleanup) (h.alike account ha s x y hxy)
  twins target ht hm s x y := by
    obtain ⟨again, again', hx, hy, htwins⟩ := h.twins target ht hm s x y
    refine ⟨_, _, congrArg (Watched.always cleanup) hx, congrArg (Watched.always cleanup) hy, fun s₁ => ?_⟩
    rw [Watched.progress_always, Watched.progress_always]
    exact (htwins s₁).always (hc target)

end Begun.Conceals

namespace Watched

/-- A job that is over conceals everything. -/
theorem discreet_over {p : Progress α} {last? : Option Begun} (h : p.Over) : (ofProgress p).Discreet last? := by
  cases h with
  | done => exact .done
  | failed => exact .failed

variable {p : Watched α} {last? : Option Begun}

theorem Discreet.bind {f : α → Watch β} (h : p.Discreet last?) (hf : ∀ a, (f a).Discreet) : (p.bind f).Discreet last? := by
  induction h with
  | done => exact (hf _).conceals _ _
  | failed => exact .failed
  | waiting now _ ih => exact .waiting (fun b hb => (now b hb).bind hf) ih
  | begins _ ih => exact .begins ih

theorem Discreet.always {cleanup : Move Unit} (h : p.Discreet last?) (hc : ∀ target, Move.Blind target cleanup) :
    (p.always cleanup).Discreet last? := by
  induction h with
  | done => exact discreet_over (Progress.Over.always .done)
  | failed => exact discreet_over (Progress.Over.always .failed)
  | waiting now _ ih => exact .waiting (fun b hb => (now b hb).always hc) ih
  | begins _ ih => exact .begins ih

/-- What is asked for that is no password need not be concealed. -/
theorem discreet_ofProgress (h : ∀ b ∈ last?, b.account? = none ∧ b.target? = none) : ∀ p : Progress α, (ofProgress p).Discreet last?
  | .done _ _ => .done
  | .failed _ _ => .failed
  | .waiting s resume => by
    refine .waiting (fun b hb => ⟨fun account ha => ?_, fun target ht => ?_⟩) fun reply s₁ => discreet_ofProgress h _
    · rw [(h b hb).1] at ha
      cases ha
    · rw [(h b hb).2] at ht
      cases ht

end Watched

namespace Watch

theorem Discreet.pure (a : α) : (Pure.pure a : Watch α).Discreet := ⟨fun _ _ => .done, fun _ => .pure a⟩

theorem Discreet.ofJob {job : Job α} (hs : job.Silent) (hb : ∀ target, Job.Blind target job) : (Watch.ofJob job).Discreet :=
  ⟨fun _ s => Watched.discreet_over (hs s), fun target => by
    rw [job_ofJob]
    exact hb target⟩

theorem Discreet.bind {w : Watch α} {f : α → Watch β} (hw : w.Discreet) (hf : ∀ a, (f a).Discreet) : (w >>= f).Discreet :=
  ⟨fun last? s => (hw.conceals last? s).bind hf, fun target => by
    rw [job_bind]
    exact (hw.blind target).bind fun a => (hf a).blind target⟩

theorem Discreet.always {w : Watch α} {cleanup : Move Unit} (hw : w.Discreet) (hc : ∀ target, Move.Blind target cleanup) :
    (w.always cleanup).Discreet :=
  ⟨fun last? s => (hw.conceals last? s).always hc, fun target => by
    rw [job_always]
    exact (hw.blind target).always (hc target)⟩

/-- What a command goes on with has only to conceal what that command asks. -/
theorem Discreet.begins {b : Begun} {w : Watch α} (hw : ∀ s, (w s).Discreet (some b)) (hb : ∀ target, Job.Blind target w.job) :
    (Watch.begins b >>= fun _ => w).Discreet :=
  ⟨fun _ s => .begins (hw s), fun target => by
    rw [job_begins]
    exact hb target⟩

theorem Discreet.terminal : (Watch.ofJob Job.terminal).Discreet := .ofJob .terminal fun _ => .terminal

end Watch

open Watch

/-! ## Discreet commands -/

namespace Command

variable {ctx : Context} {b : Begun}

/-- After a question for a password, a command has to conceal what it goes on with. -/
theorem discreet_askPassword {message : String} {f : Exchange → Job α}
    (halike : ∀ account, b.account? = some account → ∀ (shown : Line) (s : Station) (x y : String),
      s.machine.accounts.verify account x = s.machine.accounts.verify account y → f ⟨x, shown⟩ s = f ⟨y, shown⟩ s)
    (htwins : ∀ target, b.target? = some target → message = "New password:" → ∀ (shown : Line) (s : Station) (x y : String),
      s.terminal.prompt.active = false → ∃ again again',
      f ⟨x, shown⟩ s = .waiting { s with terminal := { s.terminal with prompt := retyping } } again ∧
      f ⟨y, shown⟩ s = .waiting { s with terminal := { s.terminal with prompt := retyping } } again' ∧
      ∀ s₁, (again (some x) s₁).Abreast target (again' (some y) s₁))
    (hrest : ∀ e s, (Watched.ofProgress (f e s)).Discreet (some b)) (s : Station) :
    (Watched.ofProgress ((Job.askPassword message >>= f) s)).Discreet (some b) := by
  show (Watched.ofProgress (Progress.bind (Progress.bind (Job.request message .password s) _) f)).Discreet (some b)
  unfold Job.request
  cases hprompt : s.terminal.prompt.request message .password with
  | error e => exact .failed
  | ok prompt =>
    have hmessage : prompt.message = message := by
      unfold Prompt.request at hprompt
      split at hprompt
      · cases hprompt
      · cases hprompt
        rfl
    refine .waiting (fun b' hb => ?_) fun reply s₁ => ?_
    · cases hb
      refine ⟨fun account ha s x y hxy => congrArg Watched.ofProgress (halike account ha _ _ x y hxy), fun target ht hm s x y => ?_⟩
      obtain ⟨again, again', hx, hy, habreast⟩ := htwins target ht (hmessage ▸ hm) (.echo s!"{message} {Job.mask}")
        { s with terminal := { s.terminal with prompt := s.terminal.prompt.settle } } x y rfl
      refine ⟨_, _, congrArg Watched.ofProgress hx, congrArg Watched.ofProgress hy, fun s₁ => ?_⟩
      rw [Watched.progress_ofProgress, Watched.progress_ofProgress]
      exact habreast s₁
    · cases reply with
      | none => exact .failed
      | some answer => exact hrest _ _

theorem discreet_cond {c : Prop} [Decidable c] {j₁ j₂ : Job α} {last? : Option Begun} {s : Station}
    (h₁ : (Watched.ofProgress (j₁ s)).Discreet last?) (h₂ : (Watched.ofProgress (j₂ s)).Discreet last?) :
    (Watched.ofProgress ((if c then j₁ else j₂) s)).Discreet last? := by
  split
  · exact h₁
  · exact h₂

/-- What only looks at whether the answer is a password goes on alike after two answers. -/
theorem alike_verify {account : String} {right wrong : Job α} {s : Station} {x y : String}
    (h : s.machine.accounts.verify account x = s.machine.accounts.verify account y) :
    (Job.machine >>= fun s => if s.accounts.verify account x then right else wrong) s =
      (Job.machine >>= fun s => if s.accounts.verify account y then right else wrong) s := by
  show (if s.machine.accounts.verify account x then right else wrong : Job α) s = (if _ then right else wrong : Job α) s
  rw [h]

theorem discreet_runSu (s : Station) : (Watched.ofProgress (runSu ctx s)).Discreet (some { ctx, executable := .program .su }) := by
  have hlog : ∀ {level : Level} {source message : String}, (Job.act (Act.log level source message ctx.user)).Silent := .act _
  have hsucceed : ∀ {target : String} {o : Outcome}, Job.Silent (do
      Job.act (Act.log .info "auth" s!"su to {target}" ctx.user)
      Job.move (Station.pushSession target)
      pure o) := hlog.bind fun _ => (Job.Silent.move _).bind fun _ => .pure _
  refine discreet_cond .done (discreet_cond .done (discreet_cond (Watched.discreet_over (hsucceed s)) ?_))
  refine discreet_askPassword (fun account ha shown s x y hxy => ?_) (fun target ht => by cases ht) (fun e s => ?_) s
  · cases ha
    exact alike_verify hxy
  · refine Watched.discreet_over ((Job.Silent.machine.bind fun m => .cond hsucceed ?_) s)
    exact hlog.bind fun _ => .pure _

theorem discreet_authorizeSudo (s : Station) :
    (Watched.ofProgress (authorizeSudo ctx s)).Discreet (some { ctx, executable := .program .asRoot }) := by
  refine discreet_cond .done (discreet_cond .done (discreet_cond .done ?_))
  show (Watched.ofProgress ((if s.terminal.sudoAuthorized then _ else _ : Job _) s)).Discreet _
  refine discreet_cond .done (discreet_askPassword (fun account ha shown s x y hxy => ?_) (fun target ht => by cases ht) (fun e s => ?_) s)
  · cases ha
    exact alike_verify hxy
  · refine Watched.discreet_over ((Job.Silent.machine.bind fun m => .cond ?_ (.pure _)) s)
    exact (Job.Silent.setTerminal _).bind fun _ => .pure _

theorem discreet_watchSudo {run : Watch Outcome} (hrun : run.Discreet) (s : Station) :
    (watchSudo ctx run s).Discreet (some { ctx, executable := .program .asRoot }) := by
  unfold watchSudo
  split
  · exact .done
  · refine Watched.Discreet.bind (discreet_authorizeSudo s) fun ⟨shown, refusal?⟩ => ?_
    cases refusal? with
    | some refusal => exact .pure _
    | none =>
      refine Discreet.bind (.ofJob (.act _) fun _ => blind_log) fun _ => Discreet.terminal.bind fun t => ?_
      refine Discreet.bind (.ofJob (.move _) fun _ => blind_pushSession) fun _ => ?_
      exact (hrun.always fun _ => Station.blind_closeSession.discard).bind fun _ => .pure _

/-- A question that can be asked waits, and its answers lead to jobs that get equally far. -/
theorem askPassword_waits {target message : String} {f f' : Exchange → Job α} {s : Station} {x y : String}
    (hfree : s.terminal.prompt.active = false) (hf : ∀ shown, Job.Abreast target (f ⟨x, shown⟩) (f' ⟨y, shown⟩)) :
    ∃ again again', (Job.askPassword message >>= f) s =
        .waiting { s with terminal := { s.terminal with prompt := { active := true, message, kind := .password } } } again ∧
      (Job.askPassword message >>= f') s =
        .waiting { s with terminal := { s.terminal with prompt := { active := true, message, kind := .password } } } again' ∧
      ∀ s₁, (again (some x) s₁).Abreast target (again' (some y) s₁) := by
  show ∃ again again', Progress.bind (Progress.bind (Job.request message .password s) _) f = _ ∧
    Progress.bind (Progress.bind (Job.request message .password s) _) f' = _ ∧ _
  unfold Job.request Prompt.request
  rw [hfree]
  exact ⟨_, _, rfl, rfl, fun s₁ => hf _ ⟨rfl, .refl _⟩⟩

/-- Whatever the new password is, it is asked for again, and makes a difference to nothing else. -/
theorem discreet_runPasswd (s : Station) :
    (Watched.ofProgress (runPasswd ctx s)).Discreet (some { ctx, executable := .program .passwd }) := by
  refine discreet_cond .done ?_
  cases refusal? ctx "passwd" s.machine with
  | some refusal => exact .done
  | none =>
    refine discreet_askPassword (fun account ha => by cases ha) (fun target ht _ shown s x y hfree => ?_) (fun first s => ?_) s
    · cases ht
      refine askPassword_waits hfree fun shown₁ => ?_
      show Job.Abreast _ (if (x != x) = true then _ else _) (if (y != y) = true then _ else _)
      rw [if_neg (by simp), if_neg (by simp)]
      exact (Job.Abreast.act (inStep_updateUser x y)).bind fun _ => .cond (fun _ => .pure _) fun _ => .pure _
    · refine discreet_askPassword (fun account ha => by cases ha) (fun target _ hm => absurd hm (by decide)) (fun second s => ?_) s
      exact Watched.discreet_over (Job.Silent.cond (.pure _) ((Job.Silent.act _).bind fun _ => .cond (.pure _) (.pure _)) s)

end Command

/-! ## Discreet lines -/

namespace Shell

variable {ctx : Context}

theorem discreet_watchCommand {runAgain : Step → Watch Outcome} (hagain : ∀ step, (runAgain step).Discreet) {c : Command} (s : Station) :
    (watchCommand runAgain ctx c s).Discreet (some { ctx, executable := .program c }) := by
  by_cases hroot : c = .asRoot
  · cases hroot
    exact Command.discreet_watchSudo (hagain _) s
  rw [watchCommand_of_ne hroot]
  by_cases hsu : c = .su
  · cases hsu
    exact Command.discreet_runSu s
  by_cases hpasswd : c = .passwd
  · cases hpasswd
    exact Command.discreet_runPasswd s
  refine Watched.discreet_ofProgress (fun b hb => ?_) _
  cases hb
  constructor
  · unfold Begun.account?
    split
    · rename_i heq
      cases heq
      exact absurd rfl hsu
    · rename_i heq
      cases heq
      exact absurd rfl hroot
    · rfl
  · unfold Begun.target?
    split
    · rename_i heq
      cases heq
      exact absurd rfl hpasswd
    · rfl

theorem discreet_watchStepIn {input : List String} {cwd : String} {toScreen : Bool} : ∀ {depth : Nat} {step : Step},
    (watchStepIn input cwd toScreen depth step).Discreet
  | 0, _ => .ofJob (fun _ => .failed) fun _ => .fail _
  | depth + 1, step => by
    have hagain : ∀ step, (watchStepIn input cwd toScreen depth step).Discreet := fun step => discreet_watchStepIn
    refine Discreet.terminal.bind fun t => .bind (.ofJob (.ask _) fun _ => .ask fun h => resolve_twin h ..) fun found => ?_
    cases found with
    | error why => exact .pure _
    | ok executable =>
      refine .bind (.ofJob (.ask _) fun _ => .ask fun h => expandGlobs_twin h ..) fun args => ?_
      cases executable with
      | app id =>
        refine .begins (fun s => Watched.discreet_ofProgress (fun b hb => ?_) _) fun target => ?_
        · cases hb
          exact ⟨rfl, rfl⟩
        · rw [job_ofJob]
          exact blind_launch
      | program c =>
        refine .begins (fun s => discreet_watchCommand hagain s) fun target => ?_
        rw [job_watchCommand]
        exact blind_runCommand fun step => (hagain step).blind target

theorem discreet_watchOne {flow : Flow} {toScreen : Bool} {step : Step} : (watchOne flow toScreen step).Discreet := by
  refine Discreet.terminal.bind fun t => discreet_watchStepIn.bind fun o => .bind (.ofJob ?_ fun _ => blind_settleDirectory) fun _ => .pure _
  unfold settleDirectory
  split
  · exact .setTerminal _
  · exact .pure _

theorem silent_redirect {target : Target} {o : Outcome} {shown : List Line} : (redirect target o shown).Silent := by
  refine Job.Silent.terminal.bind fun t => (Job.Silent.ask _).bind fun path => ?_
  dsimp only
  refine (Job.Silent.ask _).bind fun existing? => .cond (.pure _) ?_
  split
  · refine .cond ((Job.Silent.pure _).bind fun _ => ?_) ((Job.Silent.act _).bind fun _ => ?_)
    all_goals exact .cond (.pure _) (.pure _)
  · exact (Job.Silent.act _).bind fun _ => .cond (.pure _) (.pure _)

theorem discreet_watchSteps : ∀ {steps : List Step} {flow : Flow}, (watchSteps flow steps).Discreet
  | [], _ => .pure _
  | [step], flow => by
    unfold watchSteps
    refine discreet_watchOne.bind fun o => ?_
    split
    · exact .ofJob silent_redirect fun _ => blind_redirect
    · exact .pure _
  | step :: next :: rest, flow => by
    unfold watchSteps
    exact discreet_watchOne.bind fun o => discreet_watchSteps

theorem discreet_watchPipelines : ∀ {pipelines : List Pipeline} {r : Result}, (watchPipelines r pipelines).Discreet
  | [], _ => .pure _
  | p :: rest, r => by
    unfold watchPipelines
    refine discreet_watchSteps.bind fun o => ?_
    dsimp only
    split
    · exact .pure _
    · exact discreet_watchPipelines

end Shell

namespace Window

theorem silent_history {change : Remember Unit} : (Job.move (Move.history change)).Silent := .move _

theorem silent_conclude {line prompt : String} {r : Result} : (conclude line prompt r).Silent := by
  unfold conclude
  dsimp only
  split
  · refine silent_history.bind fun _ => ?_
    split
    · exact silent_history.bind fun _ => .pure _
    · exact .pure _
  · split
    · exact silent_history.bind fun _ => .pure _
    · exact .pure _

/-- Whatever a line asks on its way, it conceals the answer. -/
theorem discreet_watchStart {line : String} {last? : Option Begun} (s : Station) : (watchStart line s).Discreet last? := by
  have hreceive : (receive line).Silent := silent_history.bind fun _ s => Job.Silent.ofExcept _ s
  refine Watched.Discreet.bind (Watched.discreet_over (hreceive s)) fun prompt => ?_
  split
  · exact .ofJob (silent_history.bind fun _ => .pure _) fun _ => blind_pass
  · have hexecute : (watchExecute line).Discreet := Discreet.terminal.bind fun t => discreet_watchPipelines
    exact hexecute.bind fun r => .ofJob silent_conclude fun _ => blind_conclude

end Window

/-! ## Answers -/

namespace Window

/-- What a line leads to on two systems: the same, but for the password of a user. -/
structure Twins (target : String) (x y : Except Fault Response × Window × Machine) : Prop where
  response : y.1 = x.1
  window : y.2.1 = x.2.1
  machine : x.2.2.Twin target y.2.2

theorem twins_settle {target : String} {p p' : Progress Finished} (h : p.Abreast target p') : Twins target (settle p) (settle p') := by
  have hsame : ∀ {s s' : Station}, s.Twin target s' → s' = { s with machine := s'.machine } := fun {s s'} h => by
    rw [← h.terminal]
  cases h with
  | done h =>
    rw [hsame h]
    exact ⟨rfl, rfl, h.machine⟩
  | failed h =>
    rw [hsame h]
    exact ⟨rfl, rfl, h.machine⟩
  | waiting h =>
    rw [hsame h]
    exact ⟨rfl, rfl, h.machine⟩

end Window

/-! ## Discreet vigils -/

namespace Station

/-- What a terminal does without a command leaves the question alone that waits on it. -/
structure Asking (s s' : Station) : Prop where
  sound : s.Sound → s'.Sound
  prompt : s'.terminal.prompt = s.terminal.prompt

theorem course_asking : Course Asking where
  refl _ := ⟨id, rfl⟩
  trans h₁ h₂ := ⟨fun h => h₂.sound (h₁.sound h), h₂.prompt.trans h₁.prompt⟩
  sound h := h.sound

theorem asking_history {change : Remember Unit} (hc : change.Harmless) : (Move.history change).Leads Asking := by
  intro s s' r hs hrun
  refine ⟨(still_history hc hs hrun).beside.sound, ?_⟩
  unfold Move.history at hrun
  rw [run_bind, run_get] at hrun
  rcases hstep : change.run (s.terminal.history, s.machine.store) with ⟨x, h', store'⟩
  dsimp only at hrun
  rw [hstep] at hrun
  dsimp only at hrun
  rw [run_bind, run_set] at hrun
  cases x <;> cases hrun <;> rfl

theorem asking_start : start.Leads Asking := by
  refine Window.leads_start course_asking (Course.leads_read fun s => ?_) fun hs hrun =>
    ⟨fun _ => Machine.steady_sound.checkIntegrity hs hrun, rfl⟩
  split
  · exact course_asking.leads_bind (Course.leads_terminal fun _ => ⟨id, rfl⟩) fun _ => asking_history History.harmless_add
  · exact course_asking.leads_pure _

theorem asking_interrupt {input : String} : (interrupt input).Leads Asking := by
  refine Course.leads_read fun s => ?_
  split
  · intro s s' r _ hrun
    cases hrun
    exact course_asking.refl s
  · exact course_asking.leads_bind (asking_history History.harmless_add) fun _ =>
      course_asking.leads_bind (asking_history History.harmless_record) fun _ => course_asking.leads_pure _

end Station

/-- A vigil over a terminal whose waiting command conceals its answer. -/
def Vigil.Discreet (v : Vigil) : Prop :=
  ∀ resume, v.waiting? = some resume → (∀ b ∈ v.begun.getLast?, b.Conceals v.terminal.prompt.message resume) ∧
    ∀ reply s, (resume reply s).Discreet v.begun.getLast?

namespace Vigil

/-- The user whose password was asked for last in order to change it, if the command that began last does so. -/
def target? (v : Vigil) : Option String := v.begun.getLast?.bind Begun.target?

variable {v : Vigil} {s : Machine}

theorem discreet_idle (h : v.waiting? = none) : v.Discreet := fun resume hw => by
  rw [h] at hw
  cases hw

theorem discreet_follow : ∀ {p : Watched Finished} {v : Vigil}, p.Discreet v.begun.getLast? → (v.follow p).2.1.Discreet
  | .done _ _, _, _ => discreet_idle rfl
  | .failed _ _, _, _ => discreet_idle rfl
  | .waiting _ _, _, .waiting now rest => fun _ hw => by
    cases hw
    exact ⟨now, rest⟩
  | .begins b p, v, .begins rest => discreet_follow (p := p) (v := { v with begun := v.begun ++ [b] }) (by
    rw [List.getLast?_concat]
    exact rest)

theorem discreet_submit (h : v.Discreet) {line : String} : (v.submit s line).2.1.Discreet := by
  unfold submit
  split
  · rename_i resume hnext
    exact discreet_follow (v := v.hear s line) ((h resume (next_waiting hnext)).2 _ _)
  · exact discreet_follow (Window.discreet_watchStart _)

theorem discreet_abandon (h : v.Discreet) : (v.abandon s).2.1.Discreet := by
  unfold abandon
  split
  · exact discreet_idle rfl
  · exact h

/-- A question that waits goes on waiting while the terminal does something else. -/
theorem Discreet.asking (h : v.Discreet) {t : Terminal} (ht : t.prompt = v.terminal.prompt) : Discreet { v with terminal := t } :=
  fun resume hw => by
    rw [ht]
    exact h resume hw

end Vigil

namespace World

variable {user : String} {i : Nat} {w : World} {v : Vigil}

theorem Follows.vigil_discreet (h : Follows user i w v) : v.Discreet := by
  induction h with
  | opens => exact Vigil.discreet_idle rfl
  | elsewhere _ _ _ ih => exact ih
  | @start w v r s before run ih =>
    have hs : Station.Sound { machine := w.machine, terminal := v.terminal } := before.reachable.1.sound.machine
    exact ih.asking (Station.asking_start hs run).prompt
  | @submit w v v' line r s before run ih =>
    have hv : (v.submit w.machine line).2.1 = v' := by rw [run]
    exact hv ▸ Vigil.discreet_submit ih
  | @abandon w v v' b s before run ih =>
    have hv : (v.abandon w.machine).2.1 = v' := by rw [run]
    exact hv ▸ Vigil.discreet_abandon ih
  | @interrupt w v input r s before run ih =>
    have hs : Station.Sound { machine := w.machine, terminal := v.terminal } := before.reachable.1.sound.machine
    exact ih.asking (Station.asking_interrupt hs run).prompt

/-- What is typed for a password shows nowhere. Where `su` or `sudo` waits for a password, two answers that are
both right or both wrong lead to the same response, terminal and system. Where `passwd` waits for a new one,
two answers lead to the same question on the same system, and then, when each is repeated, whatever has become
of the terminal and the system in the meantime, to the same response and terminal, and to systems that differ
in nothing but the password, in the table of users and its record. -/
theorem Follows.discreet (h : Follows user i w v) (hwaits : v.next?.isSome = true) :
    w.Reachable ∧ w.windows[i]? = some v.window ∧
    (∀ account, v.account? = some account → ∀ x y : String,
      w.machine.accounts.verify account x = w.machine.accounts.verify account y →
        v.window.submit w.machine x = v.window.submit w.machine y) ∧
    ∀ target, v.target? = some target → v.window.terminal.prompt.message = "New password:" → ∀ x y : String, ∃ u u',
      v.window.submit w.machine x = (.ok (.asks "Retype new password:" .password), u, w.machine) ∧
      v.window.submit w.machine y = (.ok (.asks "Retype new password:" .password), u', w.machine) ∧
      u.terminal.prompt.active = true ∧ u'.terminal = u.terminal ∧
      ∀ (t : Terminal) (s : Machine), t.prompt.active = true →
        Window.Twins target (Window.submit { u with terminal := t } s x) (Window.submit { u' with terminal := t } s y) := by
  obtain ⟨resume, hnext⟩ := Option.isSome_iff_exists.1 hwaits
  have hsubmit : ∀ line, v.window.submit w.machine line =
      Window.settle (resume (some line) { machine := w.machine, terminal := v.terminal }).progress := by
    intro line
    unfold Window.submit
    rw [Vigil.next_window, hnext]
    rfl
  obtain ⟨hnow, -⟩ := h.vigil_discreet resume (Vigil.next_waiting hnext)
  refine ⟨h.reachable.1, h.reachable.2, fun account haccount x y hxy => ?_, fun target htarget hmessage x y => ?_⟩
  · obtain ⟨b, hb, haccount⟩ := Option.bind_eq_some_iff.1 haccount
    rw [hsubmit, hsubmit, (hnow b hb).alike account haccount _ x y hxy]
  · obtain ⟨b, hb, htarget⟩ := Option.bind_eq_some_iff.1 htarget
    obtain ⟨again, again', hx, hy, htwins⟩ := (hnow b hb).twins target htarget hmessage
      { machine := w.machine, terminal := v.terminal } x y
    rw [hsubmit, hsubmit, hx, hy]
    refine ⟨_, _, rfl, rfl, rfl, rfl, fun t s ht => ?_⟩
    rw [Window.submit_waiting ht rfl, Window.submit_waiting ht rfl]
    exact Window.twins_settle (htwins _)

/-- A terminal that was opened as root before the system was started. -/
def rootTerminal : Terminal :=
  { sessions := { current := rootName }, cwd := "/", env := Environment.forSession rootName "/root" "/",
    history := { user := rootName }, launches := true, closes := true }

theorem Follows.typed (h : Follows user i w v) (line : String) {P : Vigil → Prop} (hP : P (v.submit w.machine line).2.1) :
    ∃ w' v', Follows user i w' v' ∧ P v' :=
  ⟨_, _, .submit h (show v.submit w.machine line = (_, _, _) from rfl), hP⟩

/-- After `su` has been typed for alice, it waits for root's password. -/
theorem follows_su : ∃ w v, Follows "alice" 0 w v ∧ v.next?.isSome = true ∧ v.account? = some rootName := by
  have hopened : Follows "alice" 0 { unstarted with windows := [{ terminal := aliceTerminal }] } { terminal := aliceTerminal } :=
    follows_opened rfl rfl
  exact hopened.typed "su" (P := fun v => v.next?.isSome = true ∧ v.account? = some rootName) (by decide +kernel)

/-- After `passwd` has been typed for root, it waits for a new password. -/
theorem follows_passwd : ∃ w v, Follows rootName 0 w v ∧ v.next?.isSome = true ∧ v.target? = some rootName ∧
    v.window.terminal.prompt.message = "New password:" := by
  have hopened : Follows rootName 0 { unstarted with windows := [{ terminal := rootTerminal }] } { terminal := rootTerminal } :=
    follows_opened rfl rfl
  exact hopened.typed "passwd" (P := fun v => v.next?.isSome = true ∧ v.target? = some rootName ∧
    v.window.terminal.prompt.message = "New password:") (by decide +kernel)

/-- Alice has typed `su`, and root has typed `passwd`. -/
theorem discreet_prompts :
    (∃ w v, Follows "alice" 0 w v ∧ v.next?.isSome = true ∧ v.account? = some rootName ∧ ∀ x y : String,
      w.machine.accounts.verify rootName x = w.machine.accounts.verify rootName y →
        v.window.submit w.machine x = v.window.submit w.machine y) ∧
    ∃ w v, Follows rootName 0 w v ∧ v.next?.isSome = true ∧ v.target? = some rootName ∧
      v.window.terminal.prompt.message = "New password:" ∧ ∀ x y : String, ∃ u u',
        v.window.submit w.machine x = (.ok (.asks "Retype new password:" .password), u, w.machine) ∧
        v.window.submit w.machine y = (.ok (.asks "Retype new password:" .password), u', w.machine) ∧
        u.terminal.prompt.active = true ∧ u'.terminal = u.terminal ∧
        ∀ (t : Terminal) (s : Machine), t.prompt.active = true →
          Window.Twins rootName (Window.submit { u with terminal := t } s x) (Window.submit { u' with terminal := t } s y) := by
  constructor
  · obtain ⟨w, v, h, hwaits, haccount⟩ := follows_su
    exact ⟨w, v, h, hwaits, haccount, (h.discreet hwaits).2.2.1 rootName haccount⟩
  · obtain ⟨w, v, h, hwaits, htarget, hmessage⟩ := follows_passwd
    exact ⟨w, v, h, hwaits, htarget, hmessage, (h.discreet hwaits).2.2.2 rootName htarget hmessage⟩

end World

end SimUnix
