/-
Lines that reset the system, `reset` and `sudo reset`, from their start to their end. Whatever is answered while they
ask, and whatever has happened to the system by then: where the finished line says that the system has been reset, it
was reset when the user agreed, and what the store holds now is what the terminal has written since.
-/
import SimUnix.Proofs.Terminal.Bounded

namespace SimUnix

/-! ## What jobs come to -/

/-- What a job comes to is in a relation to the station from which it has gone on last, or begun. Whatever is answered
in the meantime, the system is as it has to be when the job goes on. -/
inductive Progress.Yields {α : Type} (P : Machine → Prop) (Q : Station → α → Station → Prop) : Progress α → Station → Prop
  | done {a : α} {s s' : Station} (h : Q s a s') : Progress.Yields P Q (.done a s') s
  | failed {e : Fault} {s s' : Station} : Progress.Yields P Q (.failed e s') s
  | waiting {s s' : Station} {resume : Option String → Station → Progress α}
      (h : ∀ reply s₁, P s₁.machine → Progress.Yields P Q (resume reply s₁) s₁) : Progress.Yields P Q (.waiting s' resume) s

variable {α β : Type} {P : Machine → Prop} {Q : Station → α → Station → Prop} {R : Station → β → Station → Prop} {s s₀ : Station}

namespace Progress

theorem Yields.mono {R : Station → α → Station → Prop} {p : Progress α} (hQ : ∀ {s a s'}, Q s a s' → R s a s') (h : p.Yields P Q s) :
    p.Yields P R s := by
  induction h with
  | done h => exact .done (hQ h)
  | failed => exact .failed
  | waiting _ ih => exact .waiting ih

theorem Yields.bind {f : α → Job β} {p : Progress α} (h : p.Yields P Q s)
    (hf : ∀ s₁ a s', Q s₁ a s' → (f a s').Yields P R s₁) : (p.bind f).Yields P R s := by
  induction h with
  | done h => exact hf _ _ _ h
  | failed => exact .failed
  | waiting _ ih => exact .waiting ih

/-- A job with something to do when it is over. -/
theorem Yields.always {R : Station → α → Station → Prop} {cleanup : Move Unit} {p : Progress α} (h : p.Yields P Q s)
    (hc : ∀ {s₁ a s' s''}, Q s₁ a s' → cleanup.run s' = (.ok (), s'') → R s₁ a s'') : (p.always cleanup).Yields P R s := by
  induction h with
  | @done a s s' h =>
    unfold Progress.always
    rcases hrun : cleanup.run s' with ⟨e | u, s''⟩
    · exact .failed
    · exact .done (hc h hrun)
  | @failed e s s' =>
    unfold Progress.always
    rcases cleanup.run s' with ⟨e | u, s''⟩
    · exact .failed
    · exact .failed
  | waiting _ ih => exact .waiting ih

end Progress

namespace Job

theorem yields_bind {job : Job α} {f : α → Job β} (hj : (job s₀).Yields P Q s)
    (hf : ∀ s₁ a s', Q s₁ a s' → (f a s').Yields P R s₁) : ((job >>= f) s₀).Yields P R s := hj.bind hf

/-- A change of the station that comes first. If it fails, so does the job. -/
theorem yields_move {change : Move α} {f : α → Job β} (hf : ∀ a s', change.run s₀ = (.ok a, s') → (f a s').Yields P R s) :
    ((Job.move change >>= f) s₀).Yields P R s := by
  show (Progress.bind (Job.ofExcept (change.run s₀).1 (change.run s₀).2) f).Yields P R s
  rcases hrun : change.run s₀ with ⟨e | a, s'⟩
  · exact .failed
  · exact hf a s' hrun

theorem yields_machine {f : Machine → Job β} (hf : (f s₀.machine s₀).Yields P R s) : ((Job.machine >>= f) s₀).Yields P R s := hf

theorem yields_terminal {f : Terminal → Job β} (hf : (f s₀.terminal s₀).Yields P R s) : ((Job.terminal >>= f) s₀).Yields P R s := hf

/-- A question to the system that comes first. -/
theorem yields_ask {question : Machine → Except Fault α} {f : α → Job β}
    (hf : ∀ a, question s₀.machine = .ok a → (f a s₀).Yields P R s) : ((Job.ask question >>= f) s₀).Yields P R s := by
  show (Progress.bind (Job.ofExcept (question s₀.machine) s₀) f).Yields P R s
  rcases hasked : question s₀.machine with e | a
  · exact .failed
  · exact hf a hasked

/-- A question to the host: the job goes on if there is an answer, and the system is as it has to be by then. What is
shown of the question is an echo. -/
theorem yields_asks {message : String} {kind : PromptKind} {text : String → String} :
    ((Job.request message kind >>= fun answer => pure { answer, shown := .echo (text answer) } : Job Exchange) s₀).Yields P
      (fun s e s' => (P s.machine ∧ s'.machine = s.machine ∧ s'.terminal.history = s.terminal.history) ∧ ∃ t, e.shown = .echo t) s := by
  show (Progress.bind (Job.request message kind s₀) _).Yields P _ s
  unfold Job.request
  rcases s₀.terminal.prompt.request message kind with e | prompt
  · exact .failed
  · refine .waiting fun reply s₁ h₁ => ?_
    cases reply with
    | none => exact .failed
    | some answer => exact .done ⟨⟨h₁, rfl, rfl⟩, _, rfl⟩

end Job

/-! ## Commands -/

/-- What a reset that has been carried through says. -/
def Command.restoredLine : Line := .text "System restored to factory defaults."

/-- An outcome that says that the system has been reset. -/
def Outcome.Restored (o : Outcome) : Prop := o.error = false ∧ Command.restoredLine ∈ o.output

theorem Outcome.not_restored {o : Outcome} (h : o.error = true) : ¬ o.Restored := by
  rintro ⟨herror, -⟩
  rw [h] at herror
  cases herror

namespace Station

/-- What says that the system has been reset is true of the system that was there when the user agreed. -/
def Told (s : Station) (o : Outcome) (s' : Station) : Prop := o.Restored → s.Erased [] s' ∧ o.clearScreen = false

/-- The same, and the terminal still holds its history. -/
def ToldAtOnce (s : Station) (o : Outcome) (s' : Station) : Prop :=
  o.Restored → (s.Erased [] s' ∧ o.clearScreen = false) ∧ s'.terminal.history = s.terminal.history

end Station

namespace Command

open Station

theorem yields_runReset {ctx : Context} : (runReset ctx s₀).Yields Machine.Awake ToldAtOnce s := by
  unfold runReset
  split
  · exact .done fun hrestored => absurd hrestored (Outcome.not_restored rfl)
  refine Job.yields_bind Job.yields_asks ?_
  rintro s₁ e s₂ ⟨⟨hawake, hmachine, hhistory⟩, text, hshown⟩
  split
  · refine Job.yields_move fun _ s₃ hrun => .done fun _ => ?_
    rw [Course.run_act] at hrun
    obtain ⟨hok, rfl⟩ := Prod.mk.inj hrun
    have hreset : Machine.reset.run s₁.machine = (.ok (), (Machine.reset.run s₂.machine).2) := by
      rw [← hmachine]
      exact Prod.ext hok rfl
    exact ⟨⟨erased_reset hawake hreset hhistory, rfl⟩, hhistory⟩
  · refine .done fun ⟨_, hsaid⟩ => ?_
    simp [Outcome.after, Outcome.ok, restoredLine, hshown] at hsaid

/-- What `sudo` has shown and decided says nothing of a reset: the lines do not, and a refusal is an error. -/
structure Unrelated (x : List Line × Option Outcome) : Prop where
  shown : restoredLine ∉ x.1
  refusal : ∀ o, x.2 = some o → o.error = true

theorem unrelated_granted {shown : List Line} (h : restoredLine ∉ shown) : Unrelated (shown, none) := ⟨h, fun _ ho => by cases ho⟩

theorem unrelated_refused {shown : List Line} {text : String} (h : restoredLine ∉ shown) : Unrelated (shown, some (.fail text)) := by
  refine ⟨h, fun o ho => ?_⟩
  cases ho
  rfl

theorem yields_authorizeSudo {ctx : Context} : (authorizeSudo ctx s₀).Yields P (fun _ x _ => Unrelated x) s := by
  unfold authorizeSudo
  split
  · exact .done (unrelated_granted List.not_mem_nil)
  refine Job.yields_machine ?_
  split
  · exact Job.yields_move fun _ s₁ _ => .done (unrelated_refused List.not_mem_nil)
  split
  · exact .done (unrelated_refused List.not_mem_nil)
  refine Job.yields_terminal ?_
  split
  · exact .done (unrelated_granted List.not_mem_nil)
  refine Job.yields_bind Job.yields_asks ?_
  rintro s₁ e s₂ ⟨-, text, hshown⟩
  have hecho : restoredLine ∉ [e.shown] := by simp [restoredLine, hshown]
  refine Job.yields_machine ?_
  split
  · exact .done (unrelated_granted hecho)
  · exact .done (unrelated_refused hecho)

/-- With `sudo` in front of it, a command runs in a session as root, which is closed before the line goes on. -/
theorem yields_runSudo {ctx : Context} {run : Job Outcome} (hrun : ∀ s₀ s, (run s₀).Yields Machine.Awake ToldAtOnce s) :
    (runSudo ctx run s₀).Yields Machine.Awake Told s := by
  unfold runSudo
  split
  · exact .done fun hrestored => absurd hrestored (Outcome.not_restored rfl)
  refine Job.yields_bind yields_authorizeSudo ?_
  rintro s₁ ⟨shown, refusal?⟩ s₂ hunrelated
  cases refusal? with
  | some refusal => exact .done fun hrestored => absurd hrestored (Outcome.not_restored (hunrelated.refusal refusal rfl))
  | none =>
    refine Job.yields_move fun _ s₃ _ => Job.yields_terminal (Job.yields_move fun _ s₄ _ => ?_)
    have hclosed : (run.always (discard (closeSession (some s₃.terminal.sessions.depth))) s₄).Yields Machine.Awake Told s₁ :=
      (hrun s₄ s₁).always fun hheld hclose hrestored =>
        have h := hheld hrestored
        ⟨h.1.1.close h.2 hclose, h.1.2⟩
    refine Job.yields_bind hclosed fun s₅ o s₆ htold => .done ?_
    rintro ⟨herror, hsaid⟩
    exact htold ⟨herror, (List.mem_append.1 hsaid).resolve_left hunrelated.shown⟩

end Command

namespace Shell

open Station

variable {input args : List String} {cwd : String} {toScreen : Bool} {depth : Nat} {step : Step}

/-- The steps that reset the system: `reset`, and `sudo reset`. -/
inductive Resets : Step → Prop
  | plain {args : List String} : Resets { command := "reset", args }
  | asRoot {args : List String} : Resets { command := "sudo", args := "reset" :: args }

theorem resolve_program {m : Machine} {word user : String} {c : Command} (hbuiltin : Command.builtin? word = none)
    (hplain : word.toList.contains '/' = false) (hprogram : Command.program? word = some c) :
    resolve m word user cwd = .ok (.ok (.program c)) := by
  unfold resolve
  rw [hbuiltin, hplain, hprogram]
  rfl

theorem resolve_reset {m : Machine} {user : String} : resolve m "reset" user cwd = .ok (.ok (.program .reset)) :=
  resolve_program (by decide) (by decide) (by decide)

theorem resolve_sudo {m : Machine} {user : String} : resolve m "sudo" user cwd = .ok (.ok (.program .asRoot)) :=
  resolve_program (by decide) (by decide) (by decide)

/-- A word without a star stays as it is when patterns are expanded. -/
theorem expandGlobs_word {m : Machine} {word user : String} {found : List String} (hword : isGlob word = false)
    (h : expandGlobs m (word :: args) cwd user = .ok found) : ∃ rest, found = word :: rest := by
  unfold expandGlobs at h
  rcases hnames : namesIn m (word :: args) cwd user with e | names
  · rw [hnames] at h
    cases h
  · rw [hnames] at h
    cases h
    exact ⟨expandArgs names args, by simp [expandArgs, hword]⟩

theorem yields_plain : (runStepIn input cwd toScreen (depth + 1) { command := "reset", args } s₀).Yields Machine.Awake ToldAtOnce s := by
  refine Job.yields_terminal (Job.yields_ask fun found hfound => ?_)
  cases resolve_reset.symm.trans hfound
  exact Job.yields_ask fun args _ => Command.yields_runReset

theorem yields_sudo :
    (runStepIn input cwd toScreen (depth + 2) { command := "sudo", args := "reset" :: args } s₀).Yields Machine.Awake Told s := by
  refine Job.yields_terminal (Job.yields_ask fun found hfound => ?_)
  cases resolve_sudo.symm.trans hfound
  refine Job.yields_ask fun args' hargs => ?_
  obtain ⟨rest, rfl⟩ := expandGlobs_word (by decide) hargs
  exact Command.yields_runSudo fun s₁ s₂ => yields_plain

theorem yields_runStep (h : Resets step) : (runStep input cwd toScreen step s₀).Yields Machine.Awake Told s := by
  cases h with
  | @plain args =>
    have hheld : (runStepIn input cwd toScreen (319 + 1) { command := "reset", args } s₀).Yields Machine.Awake ToldAtOnce s := yields_plain
    exact hheld.mono fun h hrestored => (h hrestored).1
  | @asRoot args =>
    show (runStepIn input cwd toScreen (318 + 2) { command := "sudo", args := "reset" :: args } s₀).Yields Machine.Awake Told s
    exact yields_sudo

theorem yields_runOne {flow : Flow} (h : Resets step) : (runOne flow toScreen step s₀).Yields Machine.Awake Told s := by
  refine Job.yields_terminal (Job.yields_bind (yields_runStep h) fun s₁ o s₂ htold => ?_)
  have hmoved : ∀ path, s₁.Told o { s₂ with terminal := s₂.terminal.changeDirectory path } := fun path hrestored =>
    ⟨(htold hrestored).1.congr rfl rfl, (htold hrestored).2⟩
  cases o.cwd? with
  | none => exact .done htold
  | some path => exact .done (hmoved path)

theorem yields_runSteps (h : Resets step) : (runSteps {} [step] s₀).Yields Machine.Awake Told s := by
  have htarget : step.target? = none := by cases h <;> rfl
  unfold runSteps
  refine Job.yields_bind (yields_runOne h) fun s₁ o s₂ htold => ?_
  rw [htarget]
  exact .done htold

/-- A line of which the one command resets the system. -/
theorem yields_runPipelines {operator? : Option Control} (h : Resets step) :
    (runPipelines {} [{ steps := [step], operator? }] s₀).Yields Machine.Awake
      (fun s r s' => r.error = false → Command.restoredLine ∈ r.output → s.Erased [] s' ∧ r.clearScreen = false) s := by
  unfold runPipelines
  refine Job.yields_bind (yields_runSteps h) fun s₁ o s₂ htold => ?_
  have hall : (Result.add {} o).error = false → Command.restoredLine ∈ (Result.add {} o).output →
      s₁.Erased [] s₂ ∧ (Result.add {} o).clearScreen = false := by
    intro herror hsaid
    refine htold ⟨herror, ?_⟩
    unfold Result.add at hsaid
    split at hsaid <;> exact hsaid
  dsimp only
  split <;> exact .done hall

end Shell

/-! ## Lines -/

/-- A finished line that says that the system has been reset. -/
def Finished.Restored (f : Finished) : Prop := f.block.error = false ∧ Command.restoredLine ∈ f.block.output

namespace Window

open Station Shell

/-- What a finished line that says so leaves: the system has been reset, and since then the terminal has taken down
nothing but the block of the line, which it has written into the store with its history. -/
def Left (s : Station) (f : Finished) (s' : Station) : Prop :=
  f.Restored → s.Erased [.block f.block] s' ∧ s'.terminal.history.ShownIn s'.machine.store

theorem yields_conclude {line prompt : String} {r : Result}
    (h : r.error = false → Command.restoredLine ∈ r.output → s.Erased [] s₀ ∧ r.clearScreen = false) :
    (conclude line prompt r s₀).Yields P Left s := by
  unfold conclude
  dsimp only
  cases hscreen : r.clearScreen with
  | true =>
    -- a line that clears the screen does not say so
    have hsilent : r.error = false → Command.restoredLine ∉ r.output := fun herror hsaid =>
      Bool.false_ne_true ((h herror hsaid).2.symm.trans hscreen)
    refine Job.yields_move fun _ s₁ _ => ?_
    split
    · exact Job.yields_move fun _ s₂ _ => .done fun hrestored => absurd hrestored.2 (hsilent hrestored.1)
    · exact .done fun hrestored => absurd hrestored.2 (hsilent hrestored.1)
  | false =>
    refine Job.yields_move fun _ s₁ hrun => .done ?_
    rintro ⟨herror, hsaid⟩
    obtain ⟨hn, hmachine⟩ := noted (n := .block _) hrun
    exact ⟨(h herror hsaid).1.note hn hmachine, hn.shown fun hsilent => hsilent⟩

theorem yields_receive {line : String} : (receive line s₀).Yields P (fun _ _ s' => s'.terminal.env = s₀.terminal.env) s := by
  refine Job.yields_move fun _ s₁ hrun => ?_
  rw [run_history] at hrun
  obtain ⟨-, rfl⟩ := Prod.mk.inj hrun
  show Progress.Yields P _ (Job.ofExcept (Station.promptText _) _) s
  rcases Station.promptText _ with e | prompt
  · exact .failed
  · exact .done rfl

/-- A line that resets the system, from its start. -/
theorem yields_startLine {line : String} {step : Step} {operator? : Option Control} (h : Resets step)
    (hline : parse (s₀.terminal.env.expand line) = [{ steps := [step], operator? }]) : (startLine line s₀).Yields Machine.Awake Left s := by
  refine Job.yields_bind yields_receive fun s₁ prompt s₂ henv => ?_
  split
  · exact Job.yields_move fun _ s₃ _ => .done fun hrestored => absurd hrestored.2 List.not_mem_nil
  · have hexecute : (execute line s₂).Yields Machine.Awake
        (fun s r s' => r.error = false → Command.restoredLine ∈ r.output → s.Erased [] s' ∧ r.clearScreen = false) s₁ := by
      unfold execute
      refine Job.yields_terminal ?_
      rw [henv, hline]
      exact yields_runPipelines h
    exact Job.yields_bind hexecute fun s₃ r s₄ hsaid => yields_conclude hsaid

/-- Whenever the command that waits goes on with a system that is awake, a line that says that the system has been reset
leaves what such a line leaves. -/
def Resetting (w : Window) : Prop :=
  ∀ resume, w.waiting? = some resume → ∀ reply s, s.machine.Awake → (resume reply s).Yields Machine.Awake Left s

variable {w w' : Window} {m m' : Machine} {r : Except Fault Response} {line : String}

theorem settle_yields {p : Progress Finished} (hp : p.Yields Machine.Awake Left s) (h : settle p = (r, w, m)) :
    w.Resetting ∧ ∀ f closed, r = .ok (.finished f closed) → Left s f { machine := m, terminal := w.terminal } := by
  cases hp with
  | done hleft =>
    cases h
    refine ⟨fun _ hw => (by cases hw), fun f closed hr => ?_⟩
    cases hr
    exact hleft
  | failed =>
    cases h
    exact ⟨fun _ hw => (by cases hw), fun f closed hr => by cases hr⟩
  | waiting hresume =>
    cases h
    refine ⟨fun _ hw => ?_, fun f closed hr => by cases hr⟩
    cases hw
    exact hresume

/-- A line that resets the system waits for answers only in this way. -/
theorem resetting_start {step : Step} {operator? : Option Control} (idle : w.waiting? = none) (h : Resets step)
    (hline : parse (w.terminal.env.expand line) = [{ steps := [step], operator? }]) (run : w.submit m line = (r, w', m')) :
    w'.Resetting := by
  rw [submit_idle idle] at run
  have hstart : (startLine line { machine := m, terminal := w.terminal }).Yields Machine.Awake Left
      { machine := m, terminal := w.terminal } := yields_startLine h hline
  exact (settle_yields hstart run).1

/-- An answer to such a line. -/
theorem Resetting.submit (hw : w.Resetting) (waits : w.terminal.prompt.active = true) (hbusy : w.busy = true) (hm : m.Awake)
    (run : w.submit m line = (r, w', m')) : w'.Resetting ∧ ∀ f closed, r = .ok (.finished f closed) →
      Left { machine := m, terminal := w.terminal } f { machine := m', terminal := w'.terminal } := by
  obtain ⟨resume, hresume⟩ := Option.isSome_iff_exists.1 hbusy
  rw [submit_waiting waits hresume] at run
  exact settle_yields (hw resume hresume _ _ hm) run

/-- A window with a line that resets the system on its way: it has been typed, and some answers may have been given, while anything
has happened to the system. -/
inductive Resets : Window → Prop
  | typed {w w' : Window} {m m' : Machine} {line : String} {step : Step} {operator? : Option Control} {r : Except Fault Response}
      (idle : w.waiting? = none) (resets : Shell.Resets step)
      (parsed : parse (w.terminal.env.expand line) = [{ steps := [step], operator? }]) (run : w.submit m line = (r, w', m')) : Resets w'
  | answered {w w' : Window} {m m' : Machine} {answer : String} {r : Except Fault Response} (before : Resets w)
      (waits : w.terminal.prompt.active = true) (busy : w.busy = true) (awake : m.Awake) (run : w.submit m answer = (r, w', m')) : Resets w'

theorem Resets.resetting (h : w.Resets) : w.Resetting := by
  induction h with
  | typed idle resets parsed run => exact resetting_start idle resets parsed run
  | answered _ waits busy awake run ih => exact (ih.submit waits busy awake run).1

/-- When such a line is done and says that the system has been reset, so it was, and nothing but its block has been noted since. -/
theorem Resets.left {answer : String} {f : Finished} {closed : Bool} (h : w.Resets) (waits : w.terminal.prompt.active = true)
    (busy : w.busy = true) (awake : m.Awake) (run : w.submit m answer = (.ok (.finished f closed), w', m')) (restored : f.Restored) :
    Station.Erased [.block f.block] { machine := m, terminal := w.terminal } { machine := m', terminal := w'.terminal } ∧
      w'.terminal.history.ShownIn m'.store :=
  (h.resetting.submit waits busy awake run).2 f closed rfl restored

end Window

/-! ## Agreeing -/

/-- A job that asks, and comes to something when the answer agrees and the system is reset. The history of the terminal stays. -/
def Progress.Offers (h : History) (answer : String) (a : α) (p : Progress α) : Prop := ∃ s' resume, p = .waiting s' resume ∧
  s'.terminal.prompt.active = true ∧ s'.terminal.history = h ∧ ∀ s new, Machine.reset.run s.machine = (.ok (), new) →
    ∃ s'', resume (some answer) s = .done a s'' ∧ s''.machine = new ∧ s''.terminal.history = s.terminal.history

section Offers

open Shell

variable {h : History} {answer : String} {a : α} {b : β}

theorem Progress.Offers.bind {f : α → Job β} {p : Progress α} (hp : p.Offers h answer a) (hf : ∀ s, f a s = .done b s) :
    (p.bind f).Offers h answer b := by
  obtain ⟨s', resume, rfl, hactive, hheld, hgoes⟩ := hp
  refine ⟨s', _, rfl, hactive, hheld, fun s new hreset => ?_⟩
  obtain ⟨s'', hdone, hmachine, hhistory⟩ := hgoes s new hreset
  refine ⟨s'', ?_, hmachine, hhistory⟩
  show (resume (some answer) s).bind f = _
  rw [hdone]
  exact hf s''

/-- What a line that resets the system says when the user has agreed. -/
def Command.agreed (answer : String) : Outcome :=
  (Outcome.ok ["System restored to factory defaults."]).after [.echo s!"This will erase all data. Continue? [y/N] {answer}"]

variable {s : Station} {ctx : Context} {input : List String} {cwd : String} {toScreen : Bool} {depth : Nat}

theorem offers_runReset (hroot : ctx.user = rootName) (hidle : s.terminal.prompt.active = false) (hyes : Command.isYes answer = true) :
    (Command.runReset ctx s).Offers s.terminal.history answer (Command.agreed answer) := by
  unfold Command.runReset
  rw [if_neg (by simp [hroot])]
  show (Progress.bind (Progress.bind (Job.request _ .text s) _) _).Offers s.terminal.history answer _
  unfold Job.request Prompt.request
  rw [hidle]
  refine ⟨_, _, rfl, rfl, rfl, fun s new hreset => ?_⟩
  show ∃ s'', (if Command.isYes answer = true then _ else _ : Job Outcome) _ = .done _ s'' ∧ _
  rw [if_pos hyes]
  have hrun : (Move.act Machine.reset).run { s with terminal := { s.terminal with prompt := s.terminal.prompt.settle } } =
      (.ok (), { machine := new, terminal := { s.terminal with prompt := s.terminal.prompt.settle } }) := by
    rw [Course.run_act, hreset]
  refine ⟨{ machine := new, terminal := { s.terminal with prompt := s.terminal.prompt.settle } }, ?_, rfl, rfl⟩
  show (Progress.bind (Job.ofExcept ((Move.act Machine.reset).run _).1 ((Move.act Machine.reset).run _).2) _) = _
  rw [hrun]
  rfl

theorem offers_terminal {f : Terminal → Job α} (hf : (f s.terminal s).Offers h answer a) : ((Job.terminal >>= f) s).Offers h answer a := hf

theorem offers_ask {γ : Type} {question : Machine → Except Fault γ} {f : γ → Job α} (found : γ) (hfound : question s.machine = .ok found)
    (hf : (f found s).Offers h answer a) : ((Job.ask question >>= f) s).Offers h answer a := by
  show (Progress.bind (Job.ofExcept (question s.machine) s) f).Offers h answer a
  rw [hfound]
  exact hf

theorem offers_runStepIn (hroot : s.terminal.user = rootName) (hidle : s.terminal.prompt.active = false)
    (hyes : Command.isYes answer = true) :
    (runStepIn input cwd toScreen (depth + 1) { command := "reset" } s).Offers s.terminal.history answer (Command.agreed answer) :=
  offers_terminal (offers_ask _ resolve_reset (offers_ask [] rfl (offers_runReset hroot hidle hyes)))

theorem offers_runSteps (hroot : s.terminal.user = rootName) (hidle : s.terminal.prompt.active = false) (hyes : Command.isYes answer = true) :
    (runSteps {} [{ command := "reset" }] s).Offers s.terminal.history answer (Command.agreed answer) := by
  have hstep : (runStep [] s.terminal.cwd true { command := "reset" } s).Offers s.terminal.history answer (Command.agreed answer) := by
    show (runStepIn [] s.terminal.cwd true (319 + 1) { command := "reset" } s).Offers s.terminal.history answer _
    exact offers_runStepIn hroot hidle hyes
  have hone : (runOne {} true { command := "reset" } s).Offers s.terminal.history answer (Command.agreed answer) := hstep.bind fun _ => rfl
  exact hone.bind fun _ => rfl

theorem offers_execute {line : String} {operator? : Option Control} (hroot : s.terminal.user = rootName)
    (hidle : s.terminal.prompt.active = false) (hyes : Command.isYes answer = true)
    (hline : parse (s.terminal.env.expand line) = [{ steps := [{ command := "reset" }], operator? }]) :
    (execute line s).Offers s.terminal.history answer { output := (Command.agreed answer).output } := by
  unfold execute
  refine offers_terminal ?_
  rw [hline]
  unfold runPipelines
  refine (offers_runSteps hroot hidle hyes).bind fun s => ?_
  dsimp only
  split <;> rfl

/-- Once it has been taken, the line asks, and what is left to be done when the user has agreed is to put its block into the
scrollback. -/
theorem offers_startLine {line prompt : String} {r : Result} {s₁ : Station} (hreceive : Window.receive line s = .done prompt s₁)
    (hblank : Text.allBlank line = false) (hoffers : (execute line s₁).Offers h answer r) :
    ∃ s' resume, Window.startLine line s = .waiting s' resume ∧ s'.terminal.prompt.active = true ∧ s'.terminal.history = h ∧
      ∀ s new, Machine.reset.run s.machine = (.ok (), new) → ∃ s'', resume (some answer) s = Window.conclude line prompt r s'' ∧
        s''.machine = new ∧ s''.terminal.history = s.terminal.history := by
  obtain ⟨s', resume, hwaits, hactive, hheld, hgoes⟩ := hoffers
  have hstart : Window.startLine line s = (execute line s₁).bind fun r => Window.conclude line prompt r := by
    rw [Window.startLine_eq, hreceive]
    show (if Text.allBlank line = true then Window.pass prompt else Window.runLine line prompt) s₁ = _
    rw [if_neg fun hb => Bool.false_ne_true (hblank.symm.trans hb)]
    rfl
  rw [hwaits] at hstart
  refine ⟨s', _, hstart, hactive, hheld, fun s new hreset => ?_⟩
  obtain ⟨s'', hdone, hmachine, hhistory⟩ := hgoes s new hreset
  refine ⟨s'', ?_, hmachine, hhistory⟩
  show (resume (some answer) s).bind _ = _
  rw [hdone]
  rfl

end Offers

/-- The block of a line can be put into the scrollback if the store takes the names of the records of the user whose history is open. -/
theorem Window.concludes (line prompt : String) {r : Shell.Result} {s : Station} (hscreen : r.clearScreen = false)
    (htakes : s.machine.store.takesName (Store.draftName (Store.historyKey s.terminal.history.user)) = true)
    (hlegible : ∀ bl ∈ s.terminal.history.blocks, bl.Legible) (hshown : ∃ lines, ({ output := r.output } : Block).plainOutput = .ok lines) :
    ∃ f s', conclude line prompt r s = .done f s' ∧ f.block.error = r.error ∧ f.block.output = r.output ∧
      s'.terminal.history.user = s.terminal.history.user := by
  let block : Block := { command := .str line, output := r.output, error := r.error, prompt := .str prompt }
  have hblocks : ∀ bl ∈ (History.Note.on s.terminal.history (.block block)).blocks, bl.Legible := by
    intro bl hbl
    rcases List.mem_append.1 (History.mem_newest hbl) with hold | hnew
    · exact hlegible bl hold
    · cases List.mem_singleton.1 hnew
      exact ⟨⟨line, rfl⟩, ⟨prompt, rfl⟩, hshown⟩
  obtain ⟨store, hsave, -⟩ : ∃ store, History.save.run (History.Note.on s.terminal.history (.block block), s.machine.store) =
      (.ok (), (History.Note.on s.terminal.history (.block block), store)) ∧ _ := History.save_shows rfl htakes hblocks
  have hadd : (History.Note.block block).write.run (s.terminal.history, s.machine.store) =
      (.ok (), (History.Note.on s.terminal.history (.block block), store)) := hsave
  have hrun : ((Move.history (History.Note.block block).write).run s).1 = .ok () := by rw [Station.run_history, hadd]
  have howner : ((Move.history (History.Note.block block).write).run s).2.terminal.history.user = s.terminal.history.user := by
    rw [Station.run_history, hadd]
    exact History.Note.on_user
  refine ⟨{ block, code? := some r.code, cleared := r.clearScreen }, ((Move.history (History.Note.block block).write).run s).2, ?_, rfl, rfl,
    howner⟩
  unfold conclude
  rw [hscreen]
  show Progress.bind (Job.ofExcept ((Move.history (History.Note.block block).write).run s).1
    ((Move.history (History.Note.block block).write).run s).2) _ = _
  rw [hrun]
  rfl

theorem Store.stable_takesName {name : String} : Store.Stable fun store => store.takesName name = true where
  set htakes := Store.takesName_set.trans htakes
  delete {store key} htakes := by
    cases store with
    | memory => rfl
    | files => exact htakes

theorem Machine.takes_holding (s : Machine) (key : String) (value : Json) {name : String} :
    (s.holding key value).store.takesName name = s.store.takesName name := Store.takesName_set

namespace World

/-- Wherever a system has got to, with others beside it on its store: when a line that resets it is done, the store holds the records of
the new state and what was never the system's. Of what has been typed before, nothing is left but what the terminal of the line itself
held: that is written again. -/
theorem Hosted.erased {w : World} {v v' : Window} {m : Machine} {answer : String} {f : Finished} {closed : Bool} (h : w.Hosted)
    (running : w.machine.phase = .running) (clock : w.machine.now.Proper) (hv : v.Resets)
    (waits : v.terminal.prompt.active = true) (busy : v.busy = true)
    (run : v.submit w.machine answer = (.ok (.finished f closed), v', m)) (restored : f.Restored) :
    Station.Erased [.block f.block] { machine := w.machine, terminal := v.terminal } { machine := m, terminal := v'.terminal } ∧
      v'.terminal.history.ShownIn m.store ∧
      ∀ user, Store.safeKey user ≠ Store.safeKey v.terminal.history.user → Store.safeKey user ≠ Store.safeKey v'.terminal.history.user →
        ∀ record, m.store.get (Store.historyKey user) ≠ .ok (some record) ∧ m.store.get (Store.inputKey user) ≠ .ok (some record) := by
  have hawake : w.machine.Awake := ⟨h.attended.1.machine, h.attended.2, running, clock⟩
  obtain ⟨herased, hshown⟩ := hv.left waits busy hawake run restored
  exact ⟨herased, hshown, fun user hheld hopen record => herased.gone hheld hopen⟩

/-- Root's terminal, on which some lines have been typed. -/
def typedTerminal (lines : List Json) : Terminal :=
  { sessions := { current := rootName }, cwd := Path.root, env := Shell.Environment.forSession rootName "/root" Path.root,
    history := { user := rootName, commands := lines } }

/-- A system that has not been started, and the terminal there. -/
def typedStation : Station :=
  { machine := Machine.create (.memory []) "aurora" {} { stem := "n" } { seconds := 0 }, terminal := typedTerminal [.str "echo secret"] }

/-- The terminal on which something has been done. -/
def doneOn {α : Type} : Progress α → Option Terminal
  | .done _ s => some s.terminal
  | _ => none

theorem received_reset : ∃ prompt s, Window.receive "reset" typedStation = .done prompt s ∧
    s.terminal = typedTerminal [.str "echo secret", .str "reset"] := by
  have hreceived : doneOn (Window.receive "reset" typedStation) = some (typedTerminal [.str "echo secret", .str "reset"]) := by
    decide +kernel
  rcases @Window.received "reset" typedStation with ⟨e, s, hfailed⟩ | ⟨prompt, s, hdone, -⟩
  · rw [hfailed] at hreceived
    cases hreceived
  · rw [hdone] at hreceived
    exact ⟨prompt, s, hdone, Option.some.inj hreceived⟩

theorem parse_reset {lines : List Json} :
    Shell.parse ((typedTerminal lines).env.expand "reset") = [{ steps := [{ command := "reset" }], operator? := none }] := by
  show Shell.parse ((Shell.Environment.forSession rootName "/root" Path.root).expand "reset") = _
  decide +kernel

theorem awake_shared : shared.machine.Awake :=
  ⟨hosted_shared.attended.1.machine, hosted_shared.attended.2, running_shared, clock_shared⟩

theorem takes_shared {name : String} : shared.machine.store.takesName name = true := by
  have hafter : ∀ {s : Machine} (op : Machine.Operation), s.Stocked (·.takesName name = true) → (op.after s).Stocked (·.takesName name = true) :=
    fun op h => op.stocked Store.stable_takesName h Prod.mk.eta.symm
  have hfresh : Machine.fresh.store.takesName name = true :=
    (hafter .boot ⟨Machine.sound_create Store.empty_memory.restores, rfl⟩).stock
  unfold shared
  rw [Machine.takes_holding]
  unfold fresh
  exact hfresh

theorem exists_agreed : ∃ (v v' : Window) (m : Machine) (f : Finished) (closed : Bool), v.Resets ∧ v.terminal.prompt.active = true ∧
    v.busy = true ∧ v.terminal.history = (typedTerminal [.str "echo secret", .str "reset"]).history ∧
    v'.terminal.history.user = rootName ∧ v.submit shared.machine "y" = (.ok (.finished f closed), v', m) ∧ f.Restored := by
  obtain ⟨prompt, s₁, hreceive, hterminal⟩ := received_reset
  have hoffers : (Shell.execute "reset" s₁).Offers s₁.terminal.history "y" { output := (Command.agreed "y").output } :=
    offers_execute (hterminal ▸ rfl) (hterminal ▸ rfl) (by decide +kernel) (hterminal ▸ parse_reset)
  obtain ⟨s', resume, hstart, hactive, hheld, hgoes⟩ := offers_startLine hreceive (by decide +kernel) hoffers
  replace hheld : s'.terminal.history = (typedTerminal [.str "echo secret", .str "reset"]).history :=
    hheld.trans (congrArg Terminal.history hterminal)
  obtain ⟨new, hreset, -⟩ := awake_shared.renewed
  obtain ⟨s₂, hresume, hnew, hhistory⟩ := hgoes { machine := shared.machine, terminal := s'.terminal } new hreset
  have hopen : s₂.terminal.history = (typedTerminal [.str "echo secret", .str "reset"]).history :=
    hhistory.trans hheld
  have htakes : s₂.machine.store.takesName (Store.draftName (Store.historyKey s₂.terminal.history.user)) = true := by
    rw [hnew]
    exact (Machine.stocked_reset Store.stable_takesName ⟨awake_shared.sound, takes_shared⟩ hreset).stock
  obtain ⟨f, s₃, hdone, herror, houtput, howner⟩ := Window.concludes "reset" prompt
    (r := { output := (Command.agreed "y").output }) rfl htakes (by rw [hopen]; exact nofun) ⟨_, rfl⟩
  have hsubmit : Window.submit { terminal := typedTerminal [.str "echo secret"] } typedStation.machine "reset" =
      Window.settle (.waiting s' resume) := (Window.submit_idle rfl).trans (congrArg Window.settle hstart)
  have hresets : Window.Resets { terminal := s'.terminal, waiting? := some resume } :=
    .typed (w := { terminal := typedTerminal [.str "echo secret"] }) rfl .plain parse_reset hsubmit
  have hanswer : Window.submit { terminal := s'.terminal, waiting? := some resume } shared.machine "y" = Window.settle (.done f s₃) :=
    (Window.submit_waiting hactive rfl).trans (congrArg Window.settle (hresume.trans hdone))
  refine ⟨_, _, _, f, _, hresets, hactive, rfl, hheld, howner.trans (congrArg History.user hopen), hanswer, herror, ?_⟩
  rw [houtput]
  exact List.mem_cons_of_mem _ List.mem_cons_self

theorem erased_shared : ∃ (v v' : Window) (m : Machine) (f : Finished) (closed : Bool), shared.Hosted ∧ shared.machine.phase = .running ∧
    shared.machine.now.Proper ∧ v.Resets ∧ v.terminal.prompt.active = true ∧ v.busy = true ∧
    v.submit shared.machine "y" = (.ok (.finished f closed), v', m) ∧ f.Restored ∧
    Station.Erased [.block f.block] { machine := shared.machine, terminal := v.terminal } { machine := m, terminal := v'.terminal } := by
  obtain ⟨v, v', m, f, closed, hresets, hactive, hbusy, -, -, hsubmit, hrestored⟩ := exists_agreed
  exact ⟨v, v', m, f, closed, hosted_shared, running_shared, clock_shared, hresets, hactive, hbusy, hsubmit, hrestored,
    (hosted_shared.erased running_shared clock_shared hresets hactive hbusy hsubmit hrestored).1⟩

/-- What has been typed on the terminal before the line is in the store when the system has been reset. -/
theorem typed_kept : ¬ ∀ (w : World) (v v' : Window) (m : Machine) (answer : String) (f : Finished) (closed : Bool), w.Hosted →
    w.machine.phase = .running → w.machine.now.Proper → v.Resets → v.terminal.prompt.active = true → v.busy = true →
    v.submit w.machine answer = (.ok (.finished f closed), v', m) → f.Restored →
      ∀ lines, m.store.get (Store.inputKey rootName) = .ok (some (.arr lines)) → .str "echo secret" ∉ lines := by
  intro hall
  obtain ⟨v, v', m, f, closed, hresets, hactive, hbusy, hheld, howner, hsubmit, hrestored⟩ := exists_agreed
  obtain ⟨herased, hshown⟩ := hresets.left hactive hbusy awake_shared hsubmit hrestored
  have htexts : ∀ c ∈ v.terminal.history.commands, ∃ t, c = .str t := by
    rw [hheld]
    exact List.forall_mem_cons.2 ⟨⟨_, rfl⟩, List.forall_mem_singleton.2 ⟨_, rfl⟩⟩
  have hlines := herased.lines hshown htexts fun hother => absurd (howner.trans (congrArg History.user hheld).symm) hother
  rw [hheld] at hlines
  exact hall _ _ _ _ _ _ _ hosted_shared running_shared clock_shared hresets hactive hbusy hsubmit hrestored _ hlines List.mem_cons_self

end World

end SimUnix
