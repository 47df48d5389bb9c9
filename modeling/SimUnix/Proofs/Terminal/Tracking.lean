/-
Who acts on a terminal and where it is stands in several places: the top of its sessions, its variables, the owner of its history and
its working directory. They are brought in step when a session is opened or closed and when the directory is changed, also while a
command waits for an answer. Only where a session is opened or closed and the history of the user who acts then cannot be written or
read, they part: the session is there already. The working directory and its variable never do.
-/
import SimUnix.Proofs.Terminal.Closing
import SimUnix.Proofs.Terminal.Scrollback

namespace SimUnix

open Shell History

variable {α β : Type}

/-! ## Variables -/

namespace Shell.Environment

variable {env : Environment} {name other value : String}

theorem get?_set_self : (env.set name value).get? name = some value := by
  unfold get? set
  rw [List.lookup_cons_self]

theorem get?_set_other (h : other ≠ name) : (env.set name value).get? other = env.get? other := by
  unfold get? set
  have hfilter : ∀ vars : List (String × String), (vars.filter (·.1 != name)).lookup other = vars.lookup other := by
    intro vars
    induction vars with
    | nil => rfl
    | cons v vars ih =>
      by_cases hkey : v.1 = name
      · rw [List.filter_cons_of_neg (by simpa using hkey), List.lookup_cons, beq_false_of_ne (hkey ▸ h)]
        exact ih
      · rw [List.filter_cons_of_pos (by simpa using hkey), List.lookup_cons, List.lookup_cons, ih]
  rw [List.lookup_cons, beq_false_of_ne h]
  exact hfilter _

end Shell.Environment

/-! ## Terminals in step -/

namespace Terminal

/-- The variable for the working directory is right. -/
def Located (t : Terminal) : Prop := t.env.get? "PWD" = some t.cwd

/-- The variable for the acting user is right, and the history is that user's. -/
structure Named (t : Terminal) : Prop where
  name : t.env.get? "USER" = some t.user
  history : t.history.user = t.user

variable {t t' : Terminal}

theorem located_changeDirectory {path : String} : (t.changeDirectory path).Located := Environment.get?_set_self

theorem Named.changeDirectory {path : String} (h : t.Named) : (t.changeDirectory path).Named :=
  ⟨(Environment.get?_set_other (by decide)).trans h.name, h.history⟩

end Terminal

namespace Station

/-- The variables of a terminal and its history stay in step, or those of the acting user do not, for a reason. -/
structure Tracks (reason : Prop) (s s' : Station) : Prop where
  sound : s.Sound → s'.Sound
  located : s.terminal.Located → s'.terminal.Located
  named : s.terminal.Named → s'.terminal.Named ∨ reason

/-- A change that ends with the terminal in step: it has done nothing, or the acting user has been followed. If it fails, that user
could not be followed. -/
structure Mends (r : Except Fault α) (s s' : Station) : Prop where
  sound : s.Sound → s'.Sound
  located : s.terminal.Located → s'.terminal.Located
  named : ∀ a, r = .ok a → s' = s ∨ s'.terminal.Named
  failed : ∀ e, r = .error e → Stumbles e

/-- The sessions of the terminal, its directory, variables and history are left alone, and a sound system stays sound. -/
structure Rests (s s' : Station) : Prop where
  sound : s.Sound → s'.Sound
  sessions : s'.terminal.sessions = s.terminal.sessions
  directory : s'.terminal.cwd = s.terminal.cwd
  environment : s'.terminal.env = s.terminal.env
  history : s'.terminal.history.user = s.terminal.history.user

variable {s s' s₁ s₂ s₃ : Station} {reason reason' : Prop}

theorem Tracks.refl : Tracks reason s s := ⟨id, id, .inl⟩

theorem Tracks.trans (h₁ : Tracks False s₁ s₂) (h₂ : Tracks reason s₂ s₃) : Tracks reason s₁ s₃ :=
  ⟨fun h => h₂.sound (h₁.sound h), fun h => h₂.located (h₁.located h), fun h => h₂.named ((h₁.named h).resolve_right id)⟩

theorem Tracks.mono (h : Tracks reason s s') (himp : reason → reason') : Tracks reason' s s' :=
  ⟨h.sound, h.located, fun hn => (h.named hn).imp_right himp⟩

theorem Rests.tracks (h : s.Rests s') : Tracks reason s s' := by
  refine ⟨h.sound, fun hl => ?_, fun hn => .inl ⟨?_, ?_⟩⟩
  · unfold Terminal.Located
    rw [h.environment, h.directory]
    exact hl
  · rw [h.environment, hn.name, Terminal.user, Terminal.user, h.sessions]
  · rw [h.history, hn.history, Terminal.user, Terminal.user, h.sessions]

/-- What a change mends is in step after it, whatever came before. -/
theorem Mends.after {r : Except Fault α} {a : α} (h : Mends r s₁ s₂) (hr : r = .ok a) (hbefore : Tracks reason s s₁) :
    Tracks reason s s₂ := by
  refine ⟨fun hs => h.sound (hbefore.sound hs), fun hl => h.located (hbefore.located hl), fun hn => ?_⟩
  rcases h.named a hr with rfl | hnamed
  · exact hbefore.named hn
  · exact .inl hnamed

theorem Mends.stumbles {r : Except Fault α} {e : Fault} (h : Mends r s₁ s₂) (hr : r = .error e) (hbefore : Tracks reason s s₁) :
    Tracks (Stumbles e) s s₂ :=
  ⟨fun hs => h.sound (hbefore.sound hs), fun hl => h.located (hbefore.located hl), fun _ => .inr (h.failed e hr)⟩

/-- Most of what commands do leaves all of this alone. -/
theorem chore_rests (user : String) : Chore user Rests where
  refl _ := ⟨id, rfl, rfl, rfl, rfl⟩
  trans h₁ h₂ := ⟨fun h => h₂.sound (h₁.sound h), h₂.sessions.trans h₁.sessions, h₂.directory.trans h₁.directory,
    h₂.environment.trans h₁.environment, h₂.history.trans h₁.history⟩
  sound h := h.sound
  quiet h := ⟨h.beside.sound, h.sessions, h.directory, h.environment, congrArg History.user h.history⟩
  call {_ c _ _} hs _ hrun := ⟨fun _ => (c.trail hs.linked hrun).sound hs, rfl, rfl, rfl, rfl⟩
  perform {_ op _ _} hs _ hrun _ := ⟨fun _ => op.sound hs hrun, rfl, rfl, rfl, rfl⟩

/-- A note is taken for the user whose history is open. -/
theorem rests_note {n : Note} : (Move.history n.write).Leads Rests := by
  intro s s' r hs hrun
  have hharmless : Remember.Harmless n.write := by
    cases n with
    | line => exact History.harmless_record
    | block => exact History.harmless_add
    | clear => exact History.harmless_clear
  have hsound := (still_history hharmless hs hrun).beside.sound
  rw [run_history] at hrun
  rcases hwrite : n.write.run (s.terminal.history, s.machine.store) with ⟨r', h, store⟩
  rw [hwrite] at hrun
  cases hrun
  exact ⟨hsound, rfl, rfl, rfl, by rw [(Note.leaves hwrite).history, Note.on_user]⟩

/-- Following the acting user does not touch the directory, and the variables only when all else has succeeded. -/
theorem follow_variables {r : Except Fault Unit} (hrun : followUser.run s = (r, s')) : s'.terminal.cwd = s.terminal.cwd ∧
    ((∃ e, r = .error e) ∧ s'.terminal.env = s.terminal.env ∨
      r = .ok () ∧ ∃ home, s'.terminal.env = (s.terminal.env.set "USER" s.terminal.user).set "HOME" home) := by
  unfold followUser at hrun
  rw [run_bind, run_get] at hrun
  dsimp only at hrun
  rw [run_bind, run_history] at hrun
  rcases hswitch : (switch s.terminal.user).run (s.terminal.history, s.machine.store) with ⟨x, h, store⟩
  rw [hswitch] at hrun
  cases x with
  | error e =>
    cases hrun
    exact ⟨rfl, .inl ⟨⟨_, rfl⟩, rfl⟩⟩
  | ok =>
    dsimp only at hrun
    rw [run_bind, run_ask] at hrun
    dsimp only at hrun
    split at hrun
    · rename_i hasked
      obtain ⟨-, rfl⟩ := Prod.mk.inj hasked
      cases hrun
      exact ⟨rfl, .inr ⟨rfl, _, rfl⟩⟩
    · rename_i hasked
      obtain ⟨-, rfl⟩ := Prod.mk.inj hasked
      cases hrun
      exact ⟨rfl, .inl ⟨⟨_, rfl⟩, rfl⟩⟩

theorem follow_located {r : Except Fault Unit} (hrun : followUser.run s = (r, s')) (hl : s.terminal.Located) : s'.terminal.Located := by
  obtain ⟨hcwd, ⟨-, henv⟩ | ⟨-, home, henv⟩⟩ := follow_variables hrun
  · unfold Terminal.Located
    rw [henv, hcwd]
    exact hl
  · unfold Terminal.Located
    rw [henv, hcwd, Environment.get?_set_other (by decide), Environment.get?_set_other (by decide)]
    exact hl

/-- Once the acting user has been followed, the terminal is in step, whatever it was before. -/
theorem follow_named (hrun : followUser.run s = (.ok (), s')) : s'.terminal.Named := by
  obtain ⟨huser, hhistory⟩ := follow_history hrun
  obtain ⟨-, ⟨⟨e, he⟩, -⟩ | ⟨-, home, henv⟩⟩ := follow_variables hrun
  · cases he
  · refine ⟨?_, hhistory.trans huser.symm⟩
    rw [henv, Environment.get?_set_other (by decide), Environment.get?_set_self, huser]

theorem mends_pushSession {user : String} {r : Except Fault Unit} (hs : s.Sound) (hrun : (pushSession user).run s = (r, s')) :
    Mends r s s' := by
  have hfollow : followUser.run { s with terminal := { s.terminal with sessions := s.terminal.sessions.push user } } = (r, s') := hrun
  refine ⟨fun _ => (abides_followUser (by exact hs) hfollow).sound (by exact hs), fun hl => follow_located hfollow hl, ?_, ?_⟩
  · rintro ⟨⟩ rfl
    exact .inr (follow_named hfollow)
  · rintro e rfl
    exact ⟨_, _, hfollow⟩

theorem mends_closeSession {position? : Option Int} {r : Except Fault Bool} (hs : s.Sound)
    (hrun : (closeSession position?).run s = (r, s')) : Mends r s s' := by
  rcases hclose : s.terminal.sessions.close position? with _ | ⟨who, sessions⟩
  · unfold closeSession at hrun
    rw [run_bind, run_get] at hrun
    dsimp only at hrun
    rw [hclose] at hrun
    cases hrun
    exact ⟨id, id, fun _ _ => .inl rfl, nofun⟩
  · obtain ⟨hsound, -, hfailed⟩ := run_close_of hs hclose hrun
    unfold closeSession at hrun
    rw [run_bind, run_get] at hrun
    dsimp only at hrun
    rw [hclose] at hrun
    have hrest : (followUser >>= fun _ => pure true).run { s with terminal := { s.terminal with sessions } } = (r, s') := hrun
    rcases of_run_bind hrest with ⟨e, hfollow, rfl⟩ | ⟨⟨⟩, s₁, hfollow, hrest⟩
    · exact ⟨fun _ => hsound, fun hl => follow_located hfollow hl, nofun, hfailed⟩
    · cases hrest
      exact ⟨fun _ => hsound, fun hl => follow_located hfollow hl, fun _ _ => .inr (follow_named hfollow), hfailed⟩

theorem mends_close {position? : Option Int} {r : Except Fault Unit} (hs : s.Sound)
    (hrun : (discard (closeSession position?)).run s = (r, s')) : Mends r s s' := by
  rw [run_discard] at hrun
  rcases hclose : (closeSession position?).run s with ⟨e | closed, s₁⟩ <;> (rw [hclose] at hrun; cases hrun)
  · obtain ⟨hsound, hlocated, -, hfailed⟩ := mends_closeSession hs hclose
    exact ⟨hsound, hlocated, nofun, fun e' he => by cases he; exact hfailed e rfl⟩
  · obtain ⟨hsound, hlocated, hnamed, -⟩ := mends_closeSession hs hclose
    exact ⟨hsound, hlocated, fun _ _ => hnamed closed rfl, nofun⟩

end Station

/-! ## Jobs -/

open Station

/-- Wherever a job ends or waits, the terminal is in step if it was where the job began or has gone on; if it fails, the user who
acts then may be one who could not be followed. -/
def Progress.Tracks : Progress α → Station → Prop
  | done _ s', s => Station.Tracks False s s'
  | failed e s', s => Station.Tracks (Stumbles e) s s'
  | waiting s' resume, s => Station.Tracks False s s' ∧ ∀ reply s₁, s₁.Sound → (resume reply s₁).Tracks s₁

/-- A job that does so wherever it begins. -/
structure Job.Tracks (job : Job α) : Prop where
  run : ∀ s : Station, s.Sound → (job s).Tracks s

namespace Progress

variable {s s₁ s₂ : Station}

theorem Tracks.after (h : Station.Tracks False s₁ s₂) : ∀ {p : Progress α}, p.Tracks s₂ → p.Tracks s₁
  | done _ _, hp => h.trans hp
  | failed _ _, hp => h.trans hp
  | waiting _ _, ⟨hp, hr⟩ => ⟨h.trans hp, hr⟩

theorem Tracks.bind {f : α → Job β} : ∀ {p : Progress α} {s : Station}, s.Sound → p.Tracks s → (∀ a, (f a).Tracks) →
    (p.bind f).Tracks s
  | done a s', _, hs, hp, hf => Tracks.after hp ((hf a).run s' (hp.sound hs))
  | failed _ _, _, _, hp, _ => hp
  | waiting _ _, _, _, ⟨hp, hr⟩, hf => ⟨hp, fun reply s₁ h₁ => Tracks.bind h₁ (hr reply s₁ h₁) hf⟩

/-- When a job is cleaned up by closing a session, the terminal is in step after it, even if the job has failed. -/
theorem Tracks.always {position? : Option Int} : ∀ {p : Progress α} {s : Station}, s.Sound → p.Tracks s →
    (p.always (discard (closeSession position?))).Tracks s
  | done a s', s, hs, hp => by
    unfold Progress.always
    rcases hc : (discard (closeSession position?)).run s' with ⟨_ | _, s₂⟩
    · exact (mends_close (hp.sound hs) hc).stumbles rfl hp
    · exact (mends_close (hp.sound hs) hc).after rfl hp
  | failed e s', s, hs, hp => by
    -- the job's own fault does not matter any more if the session has been closed: the acting user has been followed since
    unfold Progress.always
    rcases hc : (discard (closeSession position?)).run s' with ⟨_ | _, s₂⟩
    · exact (mends_close (hp.sound hs) hc).stumbles rfl hp
    · exact (mends_close (hp.sound hs) hc).after rfl hp
  | waiting _ _, _, _, ⟨hp, hr⟩ => ⟨hp, fun reply s₁ h₁ => Tracks.always h₁ (hr reply s₁ h₁)⟩

/-- What leaves the terminal alone leaves it in step. -/
theorem Tracks.of_rests : ∀ {p : Progress α} {s : Station}, p.Within Rests s → p.Tracks s
  | done _ _, _, hp => hp.tracks
  | failed _ _, _, hp => hp.tracks
  | waiting _ _, _, ⟨hp, hr⟩ => ⟨hp.tracks, fun reply s₁ h₁ => Tracks.of_rests (hr reply s₁ h₁)⟩

end Progress

namespace Job

variable {s : Station}

theorem tracks_rests {job : Job α} (h : job.Within Rests) : job.Tracks := ⟨fun s hs => .of_rests (h s hs)⟩

theorem tracks_bind {job : Job α} {f : α → Job β} (hj : job.Tracks) (hf : ∀ a, (f a).Tracks) : (job >>= f).Tracks :=
  ⟨fun s hs => .bind hs (hj.run s hs) hf⟩

theorem tracks_pure (a : α) : (pure a : Job α).Tracks := ⟨fun _ _ => Station.Tracks.refl⟩

theorem tracks_cond {c : Prop} [Decidable c] {j₁ j₂ : Job α} (h₁ : j₁.Tracks) (h₂ : j₂.Tracks) :
    (if c then j₁ else j₂).Tracks := by
  split
  · exact h₁
  · exact h₂

theorem tracks_mends {change : Move α} (hm : ∀ {s s' r}, s.Sound → change.run s = (r, s') → Mends r s s') :
    (move change).Tracks := by
  refine ⟨fun s hs => ?_⟩
  show (Job.ofExcept (change.run s).1 (change.run s).2).Tracks s
  rcases hrun : change.run s with ⟨_ | _, s'⟩
  · exact (hm hs hrun).stumbles rfl (Station.Tracks.refl : Station.Tracks False s s)
  · exact (hm hs hrun).after rfl .refl

end Job

open Job

/-! ## Commands -/

namespace Command

variable {ctx : Context}

theorem tracks_log {level : Level} {source message : String} {who : Json} : (Job.act (Act.log level source message who)).Tracks :=
  tracks_rests (chore_rests "").log

theorem tracks_asked {message : String} : (Job.askPassword message).Tracks :=
  tracks_rests (chore_rests "").askPassword

theorem tracks_machine : Job.machine.Tracks := ⟨fun _ _ => Station.Tracks.refl⟩

theorem tracks_terminal : Job.terminal.Tracks := ⟨fun _ _ => Station.Tracks.refl⟩

theorem tracks_runSu : (runSu ctx).Tracks := by
  have hsucceed : ∀ {target : String} {o : Outcome}, Job.Tracks (do
      Job.act (Act.log .info "auth" s!"su to {target}" ctx.user)
      Job.move (Station.pushSession target)
      pure o) := tracks_bind tracks_log fun _ => tracks_bind (tracks_mends mends_pushSession) fun _ => tracks_pure _
  refine tracks_bind tracks_machine fun s => ?_
  refine tracks_cond (tracks_pure _) (tracks_cond (tracks_pure _) (tracks_cond hsucceed ?_))
  refine tracks_bind tracks_asked fun e => tracks_bind tracks_machine fun s => ?_
  exact tracks_cond hsucceed (tracks_bind tracks_log fun _ => tracks_pure _)

/-- The session as root is closed whatever the command comes to. -/
theorem tracks_runSudo {run : Job Outcome} (hrun : run.Tracks) : (runSudo ctx run).Tracks := by
  have hauthorize : (authorizeSudo ctx).Tracks :=
    tracks_rests (within_authorizeSudo (chore_rests _) fun _ => ⟨id, rfl, rfl, rfl, rfl⟩)
  refine tracks_cond (tracks_pure _) (tracks_bind hauthorize fun ⟨shown, refusal?⟩ => ?_)
  cases refusal? with
  | some refusal => exact tracks_pure _
  | none =>
    refine tracks_bind tracks_log fun _ => tracks_bind tracks_terminal fun t => ?_
    refine tracks_bind (tracks_mends mends_pushSession) fun _ => tracks_bind ⟨fun s hs => ?_⟩ fun _ => tracks_pure _
    exact Progress.Tracks.always hs (hrun.run s hs)

theorem tracks_closeTop : closeTop.Tracks := tracks_bind (tracks_mends mends_closeSession) fun _ => tracks_pure _

theorem tracks_closeWindow : closeWindow.Tracks := tracks_rests (within_closeWindow (chore_rests ""))

theorem tracks_runExit : (runExit ctx).Tracks := by
  refine tracks_bind tracks_terminal fun t => tracks_cond ?_ ?_
  · exact tracks_bind tracks_closeWindow fun _ => tracks_cond (tracks_pure _) (tracks_pure _)
  · exact tracks_bind tracks_closeTop fun _ => tracks_pure _

theorem tracks_runLogout : (runLogout ctx).Tracks := by
  refine tracks_bind tracks_terminal fun t => tracks_cond ?_ ?_
  · exact tracks_bind tracks_closeTop fun _ => tracks_pure _
  · refine tracks_bind (tracks_rests ((chore_rests ctx.user).act_beside .logout trivial fun _ _ => still_logout)) fun _ => ?_
    exact tracks_bind (tracks_bind tracks_closeWindow fun _ => tracks_pure _) fun _ => tracks_pure _

end Command

/-! ## Lines -/

namespace Shell

open Command

variable {ctx : Context} {input : List String} {cwd : String} {toScreen : Bool}

theorem tracks_runCommand {runAgain : Step → Job Outcome} (hagain : ∀ step, (runAgain step).Tracks) {c : Command} :
    (runCommand runAgain ctx c).Tracks := by
  by_cases hsu : c = .su
  · cases hsu
    exact tracks_runSu
  by_cases hroot : c = .asRoot
  · cases hroot
    exact tracks_runSudo (hagain _)
  by_cases hexit : c = .exit
  · cases hexit
    exact @tracks_runExit ctx
  by_cases hlogout : c = .logout
  · cases hlogout
    exact @tracks_runLogout ctx
  exact tracks_rests (chore_runCommand (chore_rests _) hsu hroot hexit hlogout)

/-- Whatever a step runs, the terminal stays in step. The induction is on how deep commands run one another. -/
theorem tracks_runStepIn : ∀ {depth : Nat} {step : Step}, (runStepIn input cwd toScreen depth step).Tracks
  | 0, _ => ⟨fun _ _ => Station.Tracks.refl⟩
  | depth + 1, step => by
    refine tracks_bind tracks_terminal fun t => tracks_bind (tracks_rests ((chore_rests "").ask _)) fun found => ?_
    cases found with
    | error why => exact tracks_pure _
    | ok executable =>
      refine tracks_bind (tracks_rests ((chore_rests "").ask _)) fun args => ?_
      cases executable with
      | app id => exact tracks_rests (within_launch (chore_rests ""))
      | program c => exact tracks_runCommand fun _ => tracks_runStepIn

/-- A step may ask for another directory; its variable changes with it. -/
theorem tracks_runOne {flow : Flow} {step : Step} : (runOne flow toScreen step).Tracks := by
  refine tracks_bind tracks_terminal fun t => tracks_bind tracks_runStepIn fun o => ?_
  cases o.cwd? with
  | none => exact tracks_bind (tracks_pure _) fun _ => tracks_pure _
  | some path =>
    refine tracks_bind ⟨fun s hs => ?_⟩ fun _ => tracks_pure _
    -- whether the variable was right before does not matter, for it is written anew
    exact ⟨fun _ => hs, fun _ => Terminal.located_changeDirectory, fun hn => .inl hn.changeDirectory⟩

theorem tracks_runSteps {flow : Flow} : ∀ {steps : List Step}, (runSteps flow steps).Tracks
  | [] => tracks_pure _
  | [step] => by
    unfold runSteps
    refine tracks_bind tracks_runOne fun o => ?_
    split
    · exact tracks_rests fun s hs => redirect_within hs (chore_rests _).toScribe
    · exact tracks_pure _
  | step :: next :: rest => by
    unfold runSteps
    exact tracks_bind tracks_runOne fun o => tracks_runSteps

theorem tracks_runPipelines {r : Result} : ∀ {pipelines : List Pipeline}, (runPipelines r pipelines).Tracks
  | [] => tracks_pure _
  | p :: rest => by
    unfold runPipelines
    refine tracks_bind tracks_runSteps fun o => ?_
    dsimp only
    exact tracks_cond (tracks_pure _) tracks_runPipelines

theorem tracks_execute {line : String} : (execute line).Tracks := tracks_bind tracks_terminal fun _ => tracks_runPipelines

end Shell

namespace Window

variable {line : String}

theorem tracks_note {n : Note} : (Job.move (Move.history n.write)).Tracks := tracks_rests (Course.move rests_note)

theorem tracks_conclude {prompt : String} {r : Result} : (conclude line prompt r).Tracks := by
  unfold conclude
  dsimp only
  split
  · refine tracks_bind (tracks_note (n := .clear)) fun _ => ?_
    split
    · exact tracks_bind (tracks_note (n := .block _)) fun _ => tracks_pure _
    · exact tracks_pure _
  · split
    · exact tracks_bind (tracks_note (n := .block _)) fun _ => tracks_pure _
    · exact tracks_pure _

theorem tracks_receive : (receive line).Tracks := by
  exact tracks_bind (tracks_note (n := .line _)) fun _ => tracks_rests fun s hs => (chore_rests "").ofExcept _ s hs

/-- A line leaves the terminal in step, from the time when it is typed until its block is shown. -/
theorem tracks_startLine : (startLine line).Tracks := by
  refine tracks_bind tracks_receive fun prompt => ?_
  split
  · exact tracks_bind (tracks_note (n := .block _)) fun _ => tracks_pure _
  · exact tracks_bind tracks_execute fun r => tracks_conclude

end Window

/-! ## Terminals in use -/

namespace Window

variable {v v' : Window} {s s' : Machine} {faults : List Fault}

/-- Whenever the command that waits goes on, it keeps the terminal in step. -/
def Tracks (v : Window) : Prop := ∀ resume, v.waiting? = some resume → ∀ reply s, s.Sound → (resume reply s).Tracks s

/-- The fault with which something has ended, if it has. -/
def faultsOf : Except Fault α → List Fault
  | .ok _ => []
  | .error e => [e]

/-- One of some faults is such as comes up while the acting user is followed. -/
def Stumbled (faults : List Fault) : Prop := ∃ e ∈ faults, Stumbles e

/-- The fault to which the command that waits comes when it is given up, if it does. -/
def abandoned (v : Window) (s : Machine) : List Fault :=
  match if v.terminal.prompt.active then v.waiting? else none with
  | some resume => faultsOf (settle (resume none { machine := s, terminal := v.terminal })).1
  | none => []

theorem tracks_settle {p : Progress Finished} {s : Station} {r : Except Fault Response} {m : Machine} (hp : p.Tracks s)
    (hrun : settle p = (r, v, m)) : Station.Tracks (Stumbled (faultsOf r)) s { machine := m, terminal := v.terminal } ∧ v.Tracks := by
  cases p with
  | done f s' =>
    cases hrun
    exact ⟨hp.mono False.elim, nofun⟩
  | failed e s' =>
    cases hrun
    exact ⟨hp.mono fun he => ⟨e, List.mem_singleton_self e, he⟩, nofun⟩
  | waiting s' resume =>
    cases hrun
    refine ⟨hp.1.mono False.elim, fun resume' hw => ?_⟩
    cases hw
    exact hp.2

theorem tracks_submit {line : String} {r : Except Fault Response} (hs : s.Sound) (hv : v.Tracks) (hrun : v.submit s line = (r, v', s')) :
    Station.Tracks (Stumbled (faultsOf r)) { machine := s, terminal := v.terminal } { machine := s', terminal := v'.terminal } ∧
      v'.Tracks := by
  unfold submit at hrun
  dsimp only at hrun
  split at hrun
  · rename_i resume hresume
    refine tracks_settle (hv resume ?_ _ _ hs) hrun
    split at hresume
    · exact hresume
    · cases hresume
  · exact tracks_settle (tracks_startLine.run _ hs) hrun

theorem tracks_abandon {b : Bool} (hs : s.Sound) (hv : v.Tracks) (hrun : v.abandon s = (b, v', s')) :
    Station.Tracks (Stumbled (v.abandoned s)) { machine := s, terminal := v.terminal }
      { machine := s', terminal := v'.terminal } ∧ v'.Tracks := by
  unfold abandon at hrun
  unfold abandoned
  rcases hresume : (if v.terminal.prompt.active then v.waiting? else none) with _ | resume
  · rw [hresume] at hrun
    cases hrun
    exact ⟨.refl, hv⟩
  · have hwaits : v.waiting? = some resume := by
      split at hresume
      · exact hresume
      · cases hresume
    rcases hsettle : settle (resume none { machine := s, terminal := v.terminal }) with ⟨r, v₁, s₁⟩
    obtain ⟨htracks, -⟩ := tracks_settle (hv resume hwaits none { machine := s, terminal := v.terminal } hs) hsettle
    rw [hresume] at hrun
    dsimp only at hrun ⊢
    rw [hsettle] at hrun ⊢
    cases hrun
    exact ⟨htracks, nofun⟩

theorem rests_showDiagnostic : Station.showDiagnostic.Leads Rests := by
  refine Course.leads_read fun s => ?_
  split
  · exact (chore_rests "").leads_bind (Course.leads_terminal fun _ => ⟨id, rfl, rfl, rfl, rfl⟩) fun _ => rests_note (n := .block _)
  · exact (chore_rests "").leads_pure _

theorem rests_start : Station.start.Leads Rests := by
  refine leads_start (chore_rests "").toCourse rests_showDiagnostic fun hs hrun => ?_
  exact ⟨fun _ => Machine.steady_sound.checkIntegrity hs hrun, rfl, rfl, rfl, rfl⟩

theorem rests_interrupt {input : String} : (Station.interrupt input).Leads Rests := by
  refine Course.leads_read fun s => ?_
  split
  · intro s s' r _ hrun
    cases hrun
    exact (chore_rests "").refl s
  · refine (chore_rests "").leads_bind (rests_note (n := .block _)) fun _ => ?_
    exact (chore_rests "").leads_bind (rests_note (n := .line _)) fun _ => (chore_rests "").leads_pure _

/-- A terminal is opened in step. -/
theorem opened_tracks {user? : Option Json} {launches closes : Bool} {t : Terminal} (hrun : s.openTerminal user? launches closes = .ok t) :
    t.Located ∧ t.Named := by
  obtain ⟨_, -, hrun⟩ := bind_ok.1 hrun
  obtain ⟨home, -, hrun⟩ := bind_ok.1 hrun
  obtain ⟨_, -, hrun⟩ := bind_ok.1 hrun
  obtain ⟨_, -, hrun⟩ := bind_ok.1 hrun
  cases hrun
  have howner : (load.run ({ user := (s.actor user?).plain }, s.store)).2.1.user = (s.actor user?).plain := (load_keeps rfl).1
  exact ⟨rfl, rfl, howner⟩

/-- A terminal that is in use, its system, and the faults that what was typed there has come to: it has been opened and started, lines,
answers and interruptions have been typed, and commands given up while they waited, in any order. Meanwhile anything may have happened to
the system, as long as it is sound. -/
inductive Used : Window → Machine → List Fault → Prop
  | opened {s : Machine} {user? : Option Json} {launches closes : Bool} {terminal : Terminal} (sound : s.Sound)
      (run : s.openTerminal user? launches closes = .ok terminal) : Used { terminal } s []
  | meanwhile {v : Window} {s s' : Machine} {faults : List Fault} (before : Used v s faults) (sound : s'.Sound) : Used v s' faults
  | start {v : Window} {s : Machine} {faults : List Fault} {r : Except Fault Unit} {s' : Station} (before : Used v s faults)
      (run : Station.start.run { machine := s, terminal := v.terminal } = (r, s')) :
      Used { v with terminal := s'.terminal } s'.machine faults
  | submit {v v' : Window} {s s' : Machine} {faults : List Fault} {line : String} {r : Except Fault Response} (before : Used v s faults)
      (run : v.submit s line = (r, v', s')) : Used v' s' (faults ++ faultsOf r)
  | abandon {v v' : Window} {s s' : Machine} {faults : List Fault} {b : Bool} (before : Used v s faults)
      (run : v.abandon s = (b, v', s')) : Used v' s' (faults ++ v.abandoned s)
  | interrupt {v : Window} {s : Machine} {faults : List Fault} {input : String} {r : Except Fault Block} {s' : Station}
      (before : Used v s faults) (run : (Station.interrupt input).run { machine := s, terminal := v.terminal } = (r, s')) :
      Used { v with terminal := s'.terminal } s'.machine faults

/-- A window whose command tracks, on a sound system, in step as far as the faults so far leave it. -/
structure Kept (v : Window) (s : Machine) (faults : List Fault) : Prop where
  sound : s.Sound
  tracks : v.Tracks
  located : v.terminal.Located
  named : v.terminal.Named ∨ Stumbled faults

theorem Kept.after {more : List Fault} (h : Kept v s faults)
    (hstep : Station.Tracks (Stumbled more) { machine := s, terminal := v.terminal } { machine := s', terminal := v'.terminal })
    (hv : v'.Tracks) : Kept v' s' (faults ++ more) := by
  refine ⟨hstep.sound h.sound, hv, hstep.located h.located, ?_⟩
  -- the faults only become more, so one that has come up already remains the reason
  rcases h.named with hn | ⟨e, he, hstumbles⟩
  · refine (hstep.named hn).imp_right fun ⟨e, he, hstumbles⟩ => ⟨e, List.mem_append_right _ he, hstumbles⟩
  · exact .inr ⟨e, List.mem_append_left _ he, hstumbles⟩

theorem Kept.rests (h : Kept v s faults)
    (hrests : Rests { machine := s, terminal := v.terminal } { machine := s', terminal := v'.terminal }) (hv : v'.Tracks) :
    Kept v' s' faults := by
  have hkept : Kept v' s' (faults ++ []) := h.after hrests.tracks hv
  rwa [List.append_nil] at hkept

theorem Used.kept (h : Used v s faults) : Kept v s faults := by
  induction h with
  | opened sound run =>
    obtain ⟨hlocated, hnamed⟩ := opened_tracks run
    exact ⟨sound, nofun, hlocated, .inl hnamed⟩
  | meanwhile _ sound ih => exact ⟨sound, ih.tracks, ih.located, ih.named⟩
  | start _ run ih => exact ih.rests (rests_start (by exact ih.sound) run) ih.tracks
  | submit _ run ih =>
    obtain ⟨hstep, hv⟩ := tracks_submit ih.sound ih.tracks run
    exact ih.after hstep hv
  | abandon _ run ih =>
    obtain ⟨hstep, hv⟩ := tracks_abandon ih.sound ih.tracks run
    exact ih.after hstep hv
  | interrupt _ run ih => exact ih.rests (rests_interrupt (by exact ih.sound) run) ih.tracks

/-- At all times, also while a command waits, someone acts on a terminal, and the variable for its directory is right. Unless a line has
ended with a fault that comes up while the acting user is followed, the variable for that user is right, too, and the history is that
user's. -/
theorem Used.in_step (h : Used v s faults) : ∃ user, v.terminal.sessions.toList.getLast? = some user ∧
    v.terminal.env.get? "PWD" = some v.terminal.cwd ∧
    ((∀ e ∈ faults, ¬ Stumbles e) → v.terminal.env.get? "USER" = some user ∧ v.terminal.history.user = user) := by
  have hkept := h.kept
  refine ⟨v.terminal.user, List.getLast?_concat, hkept.located, fun hcalm => ?_⟩
  rcases hkept.named with hn | ⟨e, he, hstumbles⟩
  · exact ⟨hn.name, hn.history⟩
  · exact absurd hstumbles (hcalm e he)

/-- A system that root and a user share. It has not been started, and keeps its records in files. -/
def shared (files : Keyed String String) : Machine :=
  { Machine.create (.files { path := "data", files }) "aurora" {} { stem := "n" } { seconds := 0 } with
    accounts := { users := [(.str rootName, { name := .str rootName, uid := .int 0, gid := .int 0, home := "/root" }),
      (.str "user", { name := "user", uid := .int 1000, gid := .int 1000, home := "/home" })], groups := [] } }

/-- The window in which root has gone on as the user there, the system, and the faults to which that has come. -/
def afterSu (files : Keyed String String) : Option (Window × Machine × List Fault) :=
  match (shared files).openTerminal (some (.str rootName)) true true with
  | .ok terminal =>
    let (r, v, s) := submit { terminal } (shared files) "su user"
    some (v, s, faultsOf r)
  | .error _ => none

theorem sound_shared {files : Keyed String String} (hunique : files.keys.Nodup)
    (hnew : files.get? (Store.fileName Store.treeKey) = none) : (shared files).Sound := by
  refine ⟨Machine.linked_empty.1, .inl Machine.linked_empty.2, hunique, fun hrecord => ?_⟩
  have hrecord : (Store.files { path := "data", files }).get Store.treeKey = .ok (some _) := hrecord
  rw [Store.get_files, hnew] at hrecord
  cases hrecord

theorem used_afterSu {files : Keyed String String} (hunique : files.keys.Nodup)
    (hnew : files.get? (Store.fileName Store.treeKey) = none) (h : afterSu files = some (v, s, faults)) : Used v s faults := by
  unfold afterSu at h
  split at h
  · rename_i terminal hopened
    cases h
    exact .submit (.opened (sound_shared hunique hnew) hopened) rfl
  · cases h

theorem in_step_su : ∃ v s, Used v s [] ∧ v.terminal.sessions.toList.getLast? = some "user" ∧
    v.terminal.env.get? "USER" = some "user" := by
  have hsu : (afterSu []).map (fun x => (x.1.terminal.sessions.toList, x.2.2)) = some ([rootName, "user"], []) := by decide +kernel
  rcases hafter : afterSu [] with _ | ⟨v, s, faults⟩
  · rw [hafter] at hsu
    cases hsu
  · rw [hafter] at hsu
    obtain ⟨hsessions, rfl⟩ : v.terminal.sessions.toList = [rootName, "user"] ∧ faults = [] := Prod.mk.inj (Option.some.inj hsu)
    have hused : Used v s [] := used_afterSu (by decide) rfl hafter
    obtain ⟨user, htop, -, hcalm⟩ := hused.in_step
    obtain rfl : "user" = user := by
      rw [hsessions] at htop
      exact Option.some.inj htop
    exact ⟨v, s, hused, htop, (hcalm nofun).1⟩

/-- The file for the user's scrollback, with text in it that is none. -/
def unreadable : Keyed String String := [(Store.fileName (Store.historyKey "user"), "\x7b")]

/-- Who acts on a terminal is not always whom its variables name. -/
theorem out_of_step : ¬ ∀ v s faults, Used v s faults → v.terminal.env.get? "USER" = v.terminal.sessions.toList.getLast? := by
  intro hall
  have hsu : (afterSu unreadable).map (fun x => (x.1.terminal.sessions.toList, x.1.terminal.env.get? "USER")) =
      some ([rootName, "user"], some rootName) := by decide +kernel
  rcases hafter : afterSu unreadable with _ | ⟨v, s, faults⟩
  · rw [hafter] at hsu
    cases hsu
  · rw [hafter] at hsu
    obtain ⟨hsessions, hname⟩ : v.terminal.sessions.toList = [rootName, "user"] ∧ v.terminal.env.get? "USER" = some rootName :=
      Prod.mk.inj (Option.some.inj hsu)
    have hused : Used v s faults := used_afterSu (by decide) (by decide +kernel) hafter
    have hsame := hall v s faults hused
    rw [hsessions, hname] at hsame
    exact absurd hsame (by decide)

/-! ## Whose records a line is kept in -/

theorem Used.enters (h : Used v s faults) : v.Enters := by
  induction h with
  | opened => exact nofun
  | meanwhile _ _ ih => exact ih
  | start _ _ ih => exact ih
  | submit _ run ih => exact (submit_entered ih run).1
  | abandon _ run ih => exact abandon_enters ih run
  | interrupt _ _ ih => exact ih

/-- As long as no fault has come up while the acting user was followed, the history is that user's. -/
theorem Kept.history (h : Kept v s faults) (hcalm : ∀ e ∈ faults, ¬ Stumbles e) : v.terminal.history.user = v.terminal.user := by
  rcases h.named with hn | ⟨e, he, hstumbles⟩
  · exact hn.history
  · exact absurd hstumbles (hcalm e he)

/-- A line that is taken is noted before anything else is done. -/
theorem submit_noted {line : String} {response : Response} (hidle : v.busy = false)
    (hrun : v.submit s line = (.ok response, v', s')) :
    ∃ prompt s₁, Station.Noted (.line line) { machine := s, terminal := v.terminal } s₁ ∧
      (.ok response, v', s') = settle ((if Text.allBlank line then pass prompt else runLine line prompt) s₁) := by
  rw [submit_idle (Option.isNone_iff_eq_none.1 (Option.isSome_eq_false_iff.1 hidle)), startLine_eq] at hrun
  rcases @received line { machine := s, terminal := v.terminal } with ⟨e, s₁, hfailed⟩ | ⟨prompt, s₁, hdone, hnoted⟩
  · rw [hfailed] at hrun
    cases hrun
  · rw [hdone] at hrun
    exact ⟨prompt, s₁, hnoted, hrun.symm⟩

/-- A line that is taken is noted for the user who acts when it is typed, and for no one else, before it is run. The last that is
written when it is done is its block, again for no one but the user who acts then, who may be another one. -/
theorem Used.noted_for (h : Used v s faults) (hcalm : ∀ e ∈ faults, ¬ Stumbles e) {line : String} {response : Response}
    (hrun : v.submit s line = (.ok response, v', s')) :
    (v.busy = false → v.terminal.history.user = v.terminal.user ∧
      ∃ prompt s₁, Station.Noted (.line line) { machine := s, terminal := v.terminal } s₁ ∧
        (.ok response, v', s') = settle ((if Text.allBlank line then pass prompt else runLine line prompt) s₁)) ∧
    ∀ f closed, response = .finished f closed → v'.terminal.history.user = v'.terminal.user ∧
      Entered f { machine := s', terminal := v'.terminal } := by
  refine ⟨fun hidle => ⟨h.kept.history hcalm, submit_noted hidle hrun⟩, ?_⟩
  rintro f closed rfl
  have hafter : Used v' s' (faults ++ []) := h.submit hrun
  rw [List.append_nil] at hafter
  exact ⟨hafter.kept.history hcalm, (submit_entered h.enters hrun).2 f closed rfl⟩

/-- Root's terminal on that system, and what comes of going on as the user there. -/
def goneOn : Option (Terminal × Finished × Window × Machine) :=
  match (shared []).openTerminal (some (.str rootName)) true true with
  | .ok terminal =>
    match submit { terminal } (shared []) "su user" with
    | (.ok (.finished f _), v, s) => some (terminal, f, v, s)
    | _ => none
  | .error _ => none

theorem used_goneOn {terminal : Terminal} {f : Finished} (h : goneOn = some (terminal, f, v, s)) :
    Used { terminal } (shared []) [] ∧ ∃ closed, submit { terminal } (shared []) "su user" = (.ok (.finished f closed), v, s) := by
  unfold goneOn at h
  split at h
  · rename_i terminal hopened
    split at h
    · rename_i f closed v s hsubmit
      cases h
      exact ⟨.opened (sound_shared (by decide) rfl) hopened, closed, hsubmit⟩
    · cases h
  · cases h

theorem noted_for_su : ∃ terminal f v s, goneOn = some (terminal, f, v, s) ∧ terminal.user = rootName ∧ v.terminal.user = "user" ∧
    terminal.history.user = rootName ∧ v.terminal.history.user = "user" ∧ Entered f { machine := s, terminal := v.terminal } := by
  have husers : goneOn.map (fun x => (x.1.user, x.2.2.1.terminal.user)) = some (rootName, "user") := by decide +kernel
  rcases hgone : goneOn with _ | ⟨terminal, f, v, s⟩
  · rw [hgone] at husers
    cases husers
  · rw [hgone] at husers
    obtain ⟨hroot, huser⟩ : terminal.user = rootName ∧ v.terminal.user = "user" := Prod.mk.inj (Option.some.inj husers)
    obtain ⟨hused, closed, hsubmit⟩ := used_goneOn hgone
    obtain ⟨hfirst, hlast⟩ := hused.noted_for nofun hsubmit
    obtain ⟨howner, hentered⟩ := hlast f closed rfl
    exact ⟨terminal, f, v, s, rfl, hroot, huser, (hfirst rfl).1.trans hroot, howner.trans huser, hentered⟩

/-- The block of a line is not always kept for the user who typed it. -/
theorem noted_for_another : ¬ ∀ v s faults line f closed v' s', Used v s faults → (∀ e ∈ faults, ¬ Stumbles e) →
    v.submit s line = (.ok (.finished f closed), v', s') → f.cleared = false →
      ∃ blocks, storedBlocks v.terminal.user s'.store = .ok blocks ∧ ∃ b ∈ blocks, b.command = f.block.command := by
  intro hall
  have hkept : goneOn.map (fun x => (x.1.user, x.2.1.cleared, (storedBlocks rootName x.2.2.2.store).toOption)) =
      some (rootName, false, some []) := by decide +kernel
  rcases hgone : goneOn with _ | ⟨terminal, f, v, s⟩
  · rw [hgone] at hkept
    cases hkept
  · rw [hgone] at hkept
    obtain ⟨hroot, hrest⟩ := Prod.mk.inj (Option.some.inj hkept)
    obtain ⟨hcleared, hstored⟩ := Prod.mk.inj hrest
    obtain ⟨hused, closed, hsubmit⟩ := used_goneOn hgone
    obtain ⟨blocks, hblocks, b, hb, -⟩ := hall { terminal } _ [] _ f closed v s hused nofun hsubmit hcleared
    have hblocks : storedBlocks rootName s.store = .ok blocks := hroot ▸ hblocks
    dsimp only at hstored
    rw [hblocks] at hstored
    cases hstored
    cases hb

end Window

/-! ## Terminals of a world -/

namespace World

/-- Where something has been done on one terminal, all are in use still. -/
theorem used_set {w : World} {i : Nat} {u v : Window} {s : Machine} (there : w.windows[i]? = some u)
    (after : Reachable { machine := s, windows := w.windows.set i v }) (hall : ∀ v ∈ w.windows, ∃ faults, v.Used w.machine faults)
    (hv : ∀ {faults}, u.Used w.machine faults → ∃ faults', v.Used s faults') :
    ∀ other ∈ w.windows.set i v, ∃ faults, other.Used s faults := by
  intro other hother
  rcases List.mem_or_eq_of_mem_set hother with hother | rfl
  · obtain ⟨faults, hused⟩ := hall other hother
    exact ⟨faults, hused.meanwhile after.sound.machine⟩
  · obtain ⟨_, hused⟩ := hall u (List.mem_of_getElem? there)
    exact hv hused

/-- Every terminal of a world that can be reached is in use there. -/
theorem Reachable.used {w : World} (h : w.Reachable) : ∀ v ∈ w.windows, ∃ faults, v.Used w.machine faults := by
  induction h with
  | first => exact List.forall_mem_nil _
  | operate before run ih =>
    intro v hv
    obtain ⟨faults, hused⟩ := ih v hv
    exact ⟨faults, hused.meanwhile (Reachable.operate before run).sound.machine⟩
  | restart => exact List.forall_mem_nil _
  | opens before run ih =>
    intro v hv
    rcases List.mem_append.1 hv with hv | hv
    · exact ih v hv
    · cases List.mem_singleton.1 hv
      exact ⟨[], .opened before.sound.machine run⟩
  | start before there run ih => exact used_set there (.start before there run) ih fun hused => ⟨_, hused.start run⟩
  | submit before there run ih => exact used_set there (.submit before there run) ih fun hused => ⟨_, hused.submit run⟩
  | abandon before there run ih => exact used_set there (.abandon before there run) ih fun hused => ⟨_, hused.abandon run⟩
  | interrupt before there run ih => exact used_set there (.interrupt before there run) ih fun hused => ⟨_, hused.interrupt run⟩

end World

end SimUnix
