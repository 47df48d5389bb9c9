/-
The sessions that a command run as root leaves behind. The session as root is found again by its position
when the command is over, and whatever the command has done to the sessions above it, those below stay.
What stays above them is at most one session, which the command has opened itself; but where the history of
its user cannot be read, a session is there although the command has failed.
-/
import SimUnix.Proofs.Terminal.Lines
import SimUnix.Proofs.Terminal.Watch

namespace SimUnix

open Shell Machine

variable {α β : Type}

/-! ## Sessions -/

namespace Sessions

variable {s s' : Sessions} {k : Nat} {user : String}

theorem toList_eq (s : Sessions) : s.toList = (s.current :: s.below).reverse := List.reverse_cons.symm

theorem toList_push (s : Sessions) (user : String) : (s.push user).toList = s.toList ++ [user] := by
  rw [toList_eq s, toList, push, List.reverse_cons]

theorem length_toList (s : Sessions) : s.toList.length = s.depth := by
  rw [toList_eq, List.length_reverse, List.length_cons, depth]

/-- Counting from the top, the list of a stack lacks what the stack lacks. -/
theorem reverse_eraseIdx {stack : List String} (hk : k < stack.length) :
    (stack.eraseIdx (stack.length - 1 - k)).reverse = stack.reverse.eraseIdx k := by
  rw [List.eraseIdx_eq_take_drop_succ, List.eraseIdx_eq_take_drop_succ, List.reverse_append, List.reverse_take,
    List.reverse_drop]
  congr 2 <;> omega

theorem ofTop?_of_ne {stack : List String} (h : stack ≠ []) : ∃ s, ofTop? stack = some s ∧ s.toList = stack.reverse := by
  obtain ⟨top, rest, rfl⟩ := List.exists_cons_of_ne_nil h
  exact ⟨_, rfl, toList_eq _⟩

/-- Closing a session above the bottom one takes it out, and nothing else; there may be none at the position. -/
theorem close_cases (s : Sessions) (hk : 1 ≤ k) : (s.close (some k) = none ∧ s.depth ≤ k) ∨
    ∃ user s', s.close (some k) = some (user, s') ∧ s'.toList = s.toList.eraseIdx k := by
  have hlength : (s.current :: s.below).length = s.depth := rfl
  unfold close
  simp only [Option.getD_some, Int.toNat_natCast]
  by_cases hdepth : k < s.depth
  · right
    have hrest : (s.current :: s.below).eraseIdx (s.depth - 1 - k) ≠ [] := by
      rw [← List.length_pos_iff, List.length_eraseIdx_of_lt (by omega)]
      omega
    obtain ⟨s', hs', htoList⟩ := ofTop?_of_ne hrest
    rw [if_pos (by omega), List.getElem?_eq_getElem (by omega), hs']
    refine ⟨_, s', rfl, ?_⟩
    rw [htoList, toList_eq s, ← hlength, reverse_eraseIdx (by omega)]
  · left
    exact ⟨if_neg (by omega), by omega⟩

/-- Without a position it is the session on top that is closed. -/
theorem close_top (s : Sessions) (hdepth : 1 < s.depth) : ∃ user s', s.close none = some (user, s') ∧ s'.toList = s.toList.dropLast := by
  have hsame : s.close none = s.close (some ((s.depth - 1 : Nat) : Int)) := rfl
  obtain ⟨-, hle⟩ | ⟨user, s', hclose, htoList⟩ := s.close_cases (k := s.depth - 1) (by omega)
  · omega
  · refine ⟨user, s', hsame.trans hclose, ?_⟩
    rw [htoList, ← length_toList, List.eraseIdx_length_sub_one]

end Sessions

/-! ## Changes of sessions -/

namespace Station

variable {s s' : Station} {user : String}

/-- The sessions stay as they are, and a sound system sound. -/
structure Abides (s s' : Station) : Prop where
  sound : s.Sound → s'.Sound
  sessions : s'.terminal.sessions = s.terminal.sessions

theorem Still.abides (h : s.Still s') : s.Abides s' := ⟨h.beside.sound, h.sessions⟩

/-- Most of what a command does for a user leaves the sessions alone. -/
theorem errand_abides {user : String} : Errand user Abides where
  refl _ := ⟨id, rfl⟩
  trans h₁ h₂ := ⟨fun h => h₂.sound (h₁.sound h), h₂.sessions.trans h₁.sessions⟩
  sound h := h.sound
  still h := h.abides
  call {_ c _ _} hs _ hrun := ⟨fun _ => (c.trail hs.linked hrun).sound hs, rfl⟩
  perform {_ op _ _} hs _ hrun _ := ⟨fun _ => op.sound hs hrun, rfl⟩

theorem course_abides : Course Abides :=
  have hE : Errand "" Abides := errand_abides
  hE.toCourse

/-- A fault that comes up while history and variables are brought in step with the acting user. -/
def Stumbles (e : Fault) : Prop := ∃ s s' : Station, followUser.run s = (.error e, s')

theorem abides_followUser : followUser.Leads Abides := by
  refine Course.leads_read fun s => ?_
  refine course_abides.leads_bind (fun _ _ _ hs hrun => (still_history History.harmless_switch hs hrun).abides) fun _ => ?_
  refine course_abides.leads_bind (course_abides.leads_ask _) fun home => ?_
  exact Course.leads_terminal fun _ => ⟨id, rfl⟩

/-- A session is there as soon as it is opened, even if its user cannot be followed. -/
theorem run_push {r : Except Fault Unit} (hs : s.Sound) (hrun : (pushSession user).run s = (r, s')) :
    s'.Sound ∧ s'.terminal.sessions.toList = s.terminal.sessions.toList ++ [user] ∧ ∀ e, r = .error e → Stumbles e := by
  have hfollow : followUser.run { s with terminal := { s.terminal with sessions := s.terminal.sessions.push user } } = (r, s') := hrun
  have habides := abides_followUser (by exact hs) hfollow
  refine ⟨habides.sound hs, ?_, ?_⟩
  · rw [habides.sessions]
    exact Sessions.toList_push _ _
  · rintro e rfl
    exact ⟨_, _, hfollow⟩

/-- So it is gone as soon as it is closed. -/
theorem run_close_of {position? : Option Int} {sessions : Sessions} {who : String} {r : Except Fault Bool} (hs : s.Sound)
    (hclose : s.terminal.sessions.close position? = some (who, sessions)) (hrun : (closeSession position?).run s = (r, s')) :
    s'.Sound ∧ s'.terminal.sessions = sessions ∧ ∀ e, r = .error e → Stumbles e := by
  unfold closeSession at hrun
  rw [run_bind, run_get] at hrun
  dsimp only at hrun
  rw [hclose] at hrun
  have hrest : (followUser >>= fun _ => pure true).run { s with terminal := { s.terminal with sessions } } = (r, s') := hrun
  rcases of_run_bind hrest with ⟨e, hfollow, rfl⟩ | ⟨_, s₁, hfollow, hrest⟩
  · have habides := abides_followUser (by exact hs) hfollow
    refine ⟨habides.sound hs, habides.sessions, fun e' he => ?_⟩
    cases he
    exact ⟨_, _, hfollow⟩
  · cases hrest
    have habides := abides_followUser (by exact hs) hfollow
    exact ⟨habides.sound hs, habides.sessions, nofun⟩

/-- Closing the session at a position above the bottom one. -/
theorem run_close_at {k : Nat} (hk : 1 ≤ k) {r : Except Fault Unit} (hs : s.Sound)
    (hrun : (discard (closeSession (some (k : Int)))).run s = (r, s')) :
    s'.Sound ∧ s'.terminal.sessions.toList = s.terminal.sessions.toList.eraseIdx k ∧ ∀ e, r = .error e → Stumbles e := by
  rw [run_discard] at hrun
  obtain ⟨hnone, hle⟩ | ⟨who, sessions, hclose, htoList⟩ := s.terminal.sessions.close_cases hk
  · have hclosed : (closeSession (some (k : Int))).run s = (.ok false, s) := by
      unfold closeSession
      rw [run_bind, run_get]
      dsimp only
      rw [hnone]
      rfl
    rw [hclosed] at hrun
    cases hrun
    exact ⟨hs, (List.eraseIdx_of_length_le (Sessions.length_toList _ ▸ hle)).symm, nofun⟩
  · rcases hclosed : (closeSession (some (k : Int))).run s with ⟨r', s₁⟩
    obtain ⟨hsound, hsessions, hstumbles⟩ := run_close_of hs hclose hclosed
    rw [hclosed] at hrun
    cases r' with
    | error e =>
      cases hrun
      refine ⟨hsound, hsessions ▸ htoList, fun e' he => ?_⟩
      cases he
      exact hstumbles e rfl
    | ok _ =>
      cases hrun
      exact ⟨hsound, hsessions ▸ htoList, nofun⟩

theorem run_close_top {r : Except Fault Bool} (hs : s.Sound) (hdepth : 1 < s.terminal.sessions.depth)
    (hrun : (closeSession none).run s = (r, s')) :
    s'.Sound ∧ s'.terminal.sessions.toList = s.terminal.sessions.toList.dropLast := by
  obtain ⟨who, sessions, hclose, htoList⟩ := s.terminal.sessions.close_top hdepth
  obtain ⟨hsound, hsessions, -⟩ := run_close_of hs hclose hrun
  exact ⟨hsound, hsessions ▸ htoList⟩

end Station

open Station

/-! ## Endings -/

/-- How a watched job is over: the command that has begun last, whether the question that was asked last has been
given up, and what the job has come to. -/
structure Ending (α : Type) where
  last? : Option Begun
  abandoned : Bool
  result : Except Fault α
  station : Station

/-- The ways in which a watched job can be over. While it waits for an answer, the system may have changed in any way in
which it stays sound; the sessions of the terminal are those of the job. -/
inductive Watched.Ends : Watched α → Option Begun → Bool → Ending α → Prop
  | done {a : α} {s : Station} {last? : Option Begun} {given : Bool} :
      Ends (.done a s) last? given { last?, abandoned := given, result := .ok a, station := s }
  | failed {e : Fault} {s : Station} {last? : Option Begun} {given : Bool} :
      Ends (.failed e s) last? given { last?, abandoned := given, result := .error e, station := s }
  | waiting {s : Station} {resume : Option String → Station → Watched α} {last? : Option Begun} {given : Bool} {x : Ending α}
      (reply : Option String) (s₁ : Station) (sound : s₁.Sound) (sessions : s₁.terminal.sessions = s.terminal.sessions)
      (rest : Ends (resume reply s₁) last? reply.isNone x) : Ends (.waiting s resume) last? given x
  | begins {b : Begun} {p : Watched α} {last? : Option Begun} {given : Bool} {x : Ending α} (rest : Ends p (some b) given x) :
      Ends (.begins b p) last? given x

namespace Watched

variable {last? : Option Begun} {given : Bool}

/-- A job that is followed by another is over with it, or has failed before. -/
theorem ends_bind {f : α → Watch β} {x : Ending β} {p : Watched α} (h : (p.bind f).Ends last? given x) :
    (∃ y a, p.Ends last? given y ∧ y.result = .ok a ∧ (f a y.station).Ends y.last? y.abandoned x) ∨
      ∃ y e, p.Ends last? given y ∧ y.result = .error e ∧ x = { y with result := .error e } := by
  induction p generalizing last? given with
  | done a s => exact .inl ⟨_, a, .done, rfl, h⟩
  | failed e s =>
    cases h
    exact .inr ⟨_, e, .failed, rfl, rfl⟩
  | waiting s resume ih =>
    cases h with
    | waiting reply s₁ sound sessions rest =>
      obtain ⟨y, a, hy, hrest⟩ | ⟨y, e, hy, hrest⟩ := ih reply s₁ rest
      · exact .inl ⟨y, a, .waiting reply s₁ sound sessions hy, hrest⟩
      · exact .inr ⟨y, e, .waiting reply s₁ sound sessions hy, hrest⟩
  | begins b p ih =>
    cases h with
    | begins rest =>
      obtain ⟨y, a, hy, hrest⟩ | ⟨y, e, hy, hrest⟩ := ih rest
      · exact .inl ⟨y, a, .begins hy, hrest⟩
      · exact .inr ⟨y, e, .begins hy, hrest⟩

/-- After the clean-up of a job, the station is what the clean-up made of it, and the result is that of the job
unless the clean-up has failed. -/
theorem ends_always {cleanup : Move Unit} {x : Ending α} {p : Watched α} (h : (p.always cleanup).Ends last? given x) :
    ∃ y r, p.Ends last? given y ∧ cleanup.run y.station = (r, x.station) ∧
      x.last? = y.last? ∧ x.abandoned = y.abandoned ∧ (x.result = y.result ∨ ∃ e, r = .error e ∧ x.result = .error e) := by
  induction p generalizing last? given with
  | done a s =>
    change (ofProgress (Progress.always cleanup (.done a s))).Ends last? given x at h
    unfold Progress.always at h
    rcases hrun : cleanup.run s with ⟨_ | _, s'⟩ <;> (rw [hrun] at h; cases h)
    · exact ⟨_, _, .done, hrun, rfl, rfl, .inr ⟨_, rfl, rfl⟩⟩
    · exact ⟨_, _, .done, hrun, rfl, rfl, .inl rfl⟩
  | failed e s =>
    change (ofProgress (Progress.always cleanup (.failed e s))).Ends last? given x at h
    unfold Progress.always at h
    rcases hrun : cleanup.run s with ⟨_ | _, s'⟩ <;> (rw [hrun] at h; cases h)
    · exact ⟨_, _, .failed, hrun, rfl, rfl, .inr ⟨_, rfl, rfl⟩⟩
    · exact ⟨_, _, .failed, hrun, rfl, rfl, .inl rfl⟩
  | waiting s resume ih =>
    cases h with
    | waiting reply s₁ sound sessions rest =>
      obtain ⟨y, r, hy, hrest⟩ := ih reply s₁ rest
      exact ⟨y, r, .waiting reply s₁ sound sessions hy, hrest⟩
  | begins b p ih =>
    cases h with
    | begins rest =>
      obtain ⟨y, r, hy, hrest⟩ := ih rest
      exact ⟨y, r, .begins hy, hrest⟩

/-- What leaves the sessions alone wherever it goes on is over with the sessions it began with. -/
theorem ends_ofProgress {x : Ending α} {p : Progress α} {s : Station} (hp : p.Within Abides s)
    (h : (ofProgress p).Ends last? given x) : s.Abides x.station ∧ x.last? = last? := by
  induction p generalizing given s with
  | done a s' =>
    cases h
    exact ⟨hp, rfl⟩
  | failed e s' =>
    cases h
    exact ⟨hp, rfl⟩
  | waiting s' resume ih =>
    cases h with
    | waiting reply s₁ sound sessions rest =>
      obtain ⟨habides, hlast⟩ := ih reply s₁ (hp.2 reply s₁ sound) rest
      exact ⟨⟨fun _ => habides.sound sound, (habides.sessions.trans sessions).trans hp.1.sessions⟩, hlast⟩

theorem ofProgress_bind {f : α → Job β} : ∀ p : Progress α, ofProgress (p.bind f) = (ofProgress p).bind fun a => Watch.ofJob (f a)
  | .done _ _ => rfl
  | .failed _ _ => rfl
  | .waiting s _ => congrArg (Watched.waiting s) (funext fun _ => funext fun _ => ofProgress_bind _)

end Watched

namespace Watch

variable {last? : Option Begun} {given : Bool} {s : Station}

theorem ofJob_bind (job : Job α) (f : α → Job β) : ofJob (job >>= f) = ofJob job >>= fun a => ofJob (f a) :=
  funext fun s => Watched.ofProgress_bind (job s)

theorem ends_bind {w : Watch α} {f : α → Watch β} {x : Ending β} (h : ((w >>= f) s).Ends last? given x) :
    (∃ y a, (w s).Ends last? given y ∧ y.result = .ok a ∧ (f a y.station).Ends y.last? y.abandoned x) ∨
      ∃ y e, (w s).Ends last? given y ∧ y.result = .error e ∧ x = { y with result := .error e } := Watched.ends_bind h

theorem ends_jobs {job : Job α} {f : α → Job β} {x : Ending β} (h : (ofJob (job >>= f) s).Ends last? given x) :
    (∃ y a, (ofJob job s).Ends last? given y ∧ y.result = .ok a ∧ (ofJob (f a) y.station).Ends y.last? y.abandoned x) ∨
      ∃ y e, (ofJob job s).Ends last? given y ∧ y.result = .error e ∧ x = { y with result := .error e } := by
  rw [ofJob_bind] at h
  exact ends_bind h

theorem ends_pure {a : α} {x : Ending α} (h : (ofJob (pure a) s).Ends last? given x) :
    x = { last?, abandoned := given, result := .ok a, station := s } := by
  cases h
  rfl

/-- A change of the station is over at once. -/
theorem ends_move {change : Move α} {x : Ending α} (h : (ofJob (Job.move change) s).Ends last? given x) :
    change.run s = (x.result, x.station) ∧ x.last? = last? ∧ x.abandoned = given := by
  change (Watched.ofProgress (Job.ofExcept (change.run s).1 (change.run s).2)).Ends last? given x at h
  rcases hrun : change.run s with ⟨_ | _, s'⟩ <;> (rw [hrun] at h; cases h; exact ⟨rfl, rfl, rfl⟩)

/-- A job that asks the system first goes on with the answer, or is over at once. -/
theorem ends_asked {P : Prop} {question : Machine → Except Fault α} {f : α → Watch β} {x : Ending β}
    (hf : ∀ a, (f a s).Ends last? given x → P) (hfail : x.station = s → P)
    (h : ((ofJob (Job.ask question) >>= f) s).Ends last? given x) : P := by
  change ((Watched.ofProgress (Job.ofExcept (question s.machine) s)).bind f).Ends last? given x at h
  rcases hasked : question s.machine with e | a <;> rw [hasked] at h
  · cases h
    exact hfail rfl
  · exact hf a h

/-- A job that looks at the terminal first. -/
theorem ends_looked {P : Prop} {f : Terminal → Watch α} {x : Ending α} (hf : (f s.terminal s).Ends last? given x → P)
    (h : ((ofJob Job.terminal >>= f) s).Ends last? given x) : P := hf h

theorem ends_cond {c P : Prop} [Decidable c] {j₁ j₂ : Job α} {x : Ending α} (h₁ : c → (ofJob j₁ s).Ends last? given x → P)
    (h₂ : ¬ c → (ofJob j₂ s).Ends last? given x → P) (h : (ofJob (if c then j₁ else j₂) s).Ends last? given x) : P := by
  split at h
  · exact h₁ ‹_› h
  · exact h₂ ‹_› h

/-- A job that looks at the system first. -/
theorem ends_machine {P : Prop} {f : Machine → Job α} {x : Ending α} (hf : (ofJob (f s.machine) s).Ends last? given x → P)
    (h : (ofJob (Job.machine >>= f) s).Ends last? given x) : P := hf h

/-- A job that looks at the terminal first. -/
theorem ends_terminal {P : Prop} {f : Terminal → Job α} {x : Ending α} (hf : (ofJob (f s.terminal) s).Ends last? given x → P)
    (h : (ofJob (Job.terminal >>= f) s).Ends last? given x) : P := hf h

/-- What leaves the sessions alone is over with the sessions it began with. -/
theorem ends_within {job : Job α} {x : Ending α} (hj : job.Within Abides) (hs : s.Sound)
    (h : (ofJob job s).Ends last? given x) : s.Abides x.station ∧ x.last? = last? := Watched.ends_ofProgress (hj s hs) h

end Watch

open Watch

/-! ## Answers -/

/-- A job that has not come to its end when a question of it is given up. -/
def Job.Answered (job : Job α) : Prop :=
  ∀ (s : Station) (last? : Option Begun) (x : Ending α), (ofJob job s).Ends last? false x → ∀ a, x.result = .ok a → x.abandoned = false

namespace Job

theorem answered_pure (a : α) : Answered (pure a : Job α) := fun _ _ _ h _ _ => by
  rw [ends_pure h]

theorem answered_bind {job : Job α} {f : α → Job β} (hj : job.Answered) (hf : ∀ a, (f a).Answered) : Answered (job >>= f) := by
  intro s last? x h b hb
  obtain ⟨y, a, hy, hok, hrest⟩ | ⟨y, e, -, -, rfl⟩ := ends_jobs h
  · rw [hj s last? y hy a hok] at hrest
    exact hf a _ _ x hrest b hb
  · cases hb

theorem answered_cond {c : Prop} [Decidable c] {j₁ j₂ : Job α} (h₁ : j₁.Answered) (h₂ : j₂.Answered) :
    Answered (if c then j₁ else j₂) := by
  split
  · exact h₁
  · exact h₂

theorem answered_move {change : Move α} : (Job.move change).Answered := fun _ _ _ h _ _ => (ends_move h).2.2

theorem answered_machine : Answered machine := fun _ _ _ h _ _ => by
  cases h
  rfl

theorem answered_terminal : Answered terminal := fun _ _ _ h _ _ => by
  cases h
  rfl

theorem answered_setTerminal {change : Terminal → Terminal} : (setTerminal change).Answered := fun _ _ _ h _ _ => by
  cases h
  rfl

/-- A question that is given up fails. -/
theorem answered_request {message : String} {kind : PromptKind} : (request message kind).Answered := by
  intro s last? x h a ha
  change (Watched.ofProgress (request message kind s)).Ends last? false x at h
  unfold request at h
  split at h
  · cases h
    cases ha
  · cases h with
    | waiting reply s₁ sound sessions rest =>
      cases reply with
      | some answer =>
        cases rest
        rfl
      | none =>
        cases rest
        cases ha

theorem answered_askPassword {message : String} : (askPassword message).Answered :=
  answered_bind answered_request fun _ => answered_pure _

end Job

open Job

/-! ## Commands -/

/-- The user for whom a command opens a session. -/
def Begun.opens? (b : Begun) : Option String :=
  match b.executable with
  | .program .su => some (b.ctx.args.headD rootName)
  | .program .asRoot => some rootName
  | _ => none

/-- The sessions of the terminal when a job is over. -/
def Ending.sessions (x : Ending α) : List String := x.station.terminal.sessions.toList

/-- One session is left above those that were there before. The command that has begun last has opened it, and no question
of its own has been given up. If the command has returned, it is a `su` that has succeeded; otherwise the user of a
session could not be followed. -/
structure Ending.Leaves (before : List String) (user : String) (x : Ending Outcome) : Prop where
  sessions : x.sessions = before ++ [user]
  answered : x.abandoned = false
  opened : ∃ b ∈ x.last?, b.opens? = some user ∧ ∀ o, x.result = .ok o → b.executable = .program .su ∧ o.code = 0
  failed : ∀ e, x.result = .error e → Stumbles e

/-- What a step may do to the sessions: nothing, close the one on top, or open one. -/
structure Ending.Steps (before : List String) (x : Ending Outcome) : Prop where
  sound : x.station.Sound
  sessions : x.sessions = before ∨ x.sessions = before.dropLast ∨ ∃ user, x.Leaves before user

/-- What a command run as root may do to the sessions: nothing, or open one. -/
structure Ending.Settles (before : List String) (x : Ending Outcome) : Prop where
  sound : x.station.Sound
  sessions : x.sessions = before ∨ ∃ user, x.Leaves before user

variable {s : Station} {last? : Option Begun} {given : Bool} {x : Ending Outcome}

theorem Ending.Settles.steps {before : List String} (h : x.Settles before) : x.Steps before :=
  ⟨h.sound, h.sessions.imp_right .inr⟩

/-- What was shown before a command does not change what it does to the sessions. -/
theorem Ending.Settles.after {before : List String} {o : Outcome} {shown : List Line} (h : x.Settles before) (hok : x.result = .ok o) :
    Ending.Settles before { x with result := .ok (o.after shown) } := by
  refine ⟨h.sound, h.sessions.imp_right fun ⟨user, hleaves⟩ => ⟨user, hleaves.sessions, hleaves.answered, ?_, nofun⟩⟩
  obtain ⟨b, hb, hopens, hsu⟩ := hleaves.opened
  refine ⟨b, hb, hopens, fun o' ho' => ?_⟩
  cases ho'
  exact hsu o hok

theorem Ending.Settles.failed {before : List String} {e : Fault} (h : x.Settles before) (he : x.result = .error e) :
    Ending.Settles before { x with result := .error e } := by
  rw [← he]
  exact h

/-- A job that leaves the sessions alone does nothing to them. -/
theorem Watch.settles_within {job : Job Outcome} (hj : job.Within Abides) (hs : s.Sound) (h : (ofJob job s).Ends last? given x) :
    x.Settles s.terminal.sessions.toList := by
  obtain ⟨habides, -⟩ := ends_within hj hs h
  exact ⟨habides.sound hs, .inl (congrArg Sessions.toList habides.sessions)⟩

namespace Command

variable {ctx : Context} {b : Begun}

/-- The session that `su` opens is left. -/
theorem leaves_push {target source message : String} {level : Level} {who : Json} {o : Outcome} (hb : b.opens? = some target)
    (hsu : b.executable = .program .su) (ho : o.code = 0) (hs : s.Sound)
    (h : (ofJob (do
      Job.act (Act.log level source message who)
      Job.move (Station.pushSession target)
      pure o) s).Ends (some b) false x) : x.Settles s.terminal.sessions.toList := by
  have hlogged : Station.Sound { s with machine := s.machine.logged level source message who } := aside_logged.idle.sound hs
  have h : (ofJob (Job.move (Station.pushSession target) >>= fun _ => pure o)
    { s with machine := s.machine.logged level source message who }).Ends (some b) false x := h
  obtain ⟨y, a, hy, hok, hrest⟩ | ⟨y, e, hy, herror, rfl⟩ := ends_jobs h
  · obtain ⟨hrun, hlast, hgiven⟩ := ends_move hy
    obtain ⟨hsound, hsessions, -⟩ := run_push hlogged hrun
    rw [ends_pure hrest, hlast, hgiven]
    refine ⟨hsound, .inr ⟨target, hsessions, rfl, ⟨b, rfl, hb, fun o' ho' => ?_⟩, nofun⟩⟩
    cases ho'
    exact ⟨hsu, ho⟩
  · obtain ⟨hrun, hlast, hgiven⟩ := ends_move hy
    obtain ⟨hsound, hsessions, hstumbles⟩ := run_push hlogged hrun
    refine ⟨hsound, .inr ⟨target, hsessions, hgiven, ⟨b, hlast, hb, nofun⟩, fun e' he' => ?_⟩⟩
    cases he'
    exact hstumbles e herror

theorem settles_runSu (hs : s.Sound) (h : (ofJob (runSu ctx) s).Ends (some { ctx, executable := .program .su }) false x) :
    x.Settles s.terminal.sessions.toList := by
  have hE : Errand ctx.user Abides := errand_abides
  refine ends_machine (ends_cond (fun _ => ?_) fun _ => ends_cond (fun _ => ?_) fun _ => ends_cond (fun _ => ?_) fun _ => ?_) h
  · exact settles_within (hE.pure _) hs
  · exact settles_within (hE.pure _) hs
  · exact leaves_push rfl rfl rfl hs
  · intro h
    obtain ⟨y, e, hy, hok, hrest⟩ | ⟨y, e, hy, -, rfl⟩ := ends_jobs h
    · obtain ⟨habides, hlast⟩ := ends_within hE.askPassword hs hy
      rw [hlast, answered_askPassword _ _ _ hy e hok] at hrest
      have hsettles : x.Settles y.station.terminal.sessions.toList := by
        refine ends_machine (ends_cond (fun _ => ?_) fun _ => ?_) hrest
        · exact leaves_push rfl rfl rfl (habides.sound hs)
        · exact settles_within (hE.bind hE.log fun _ => hE.pure _) (habides.sound hs)
      rwa [habides.sessions] at hsettles
    · obtain ⟨habides, -⟩ := ends_within hE.askPassword hs hy
      exact ⟨habides.sound hs, .inl (congrArg Sessions.toList habides.sessions)⟩

theorem answered_authorizeSudo : (authorizeSudo ctx).Answered := by
  refine answered_cond (answered_pure _) (answered_bind answered_machine fun s => ?_)
  refine answered_cond (answered_bind answered_move fun _ => answered_pure _) (answered_cond (answered_pure _) ?_)
  refine answered_bind answered_terminal fun t => answered_cond (answered_pure _) (answered_bind answered_askPassword fun e => ?_)
  refine answered_bind answered_machine fun s => answered_cond ?_ (answered_pure _)
  exact answered_bind answered_setTerminal fun _ => answered_pure _

/-- Counted from the bottom, the session as root is found where it was opened, or there is none any more. -/
theorem settles_closed {before : List String} {y : Ending Outcome} {r : Except Fault Unit} (hbefore : before ≠ [])
    (hy : y.Steps (before ++ [rootName]))
    (hrun : (discard (Station.closeSession (some (before.length : Int)))).run y.station = (r, x.station))
    (hlast : x.last? = y.last?) (hgiven : x.abandoned = y.abandoned)
    (hresult : x.result = y.result ∨ ∃ e, r = .error e ∧ x.result = .error e) : x.Settles before := by
  obtain ⟨hsound, hsessions, hstumbles⟩ := run_close_at (List.length_pos_iff.2 hbefore) hy.sound hrun
  refine ⟨hsound, ?_⟩
  have hclosed : x.sessions = y.sessions.eraseIdx before.length := hsessions
  obtain hsame | hshort | ⟨user, hleaves⟩ := hy.sessions
  · left
    rw [hclosed, hsame, List.eraseIdx_append_of_length_le (Nat.le_refl _), Nat.sub_self]
    exact List.append_nil before
  · left
    rw [hclosed, hshort, List.dropLast_concat]
    exact List.eraseIdx_of_length_le (Nat.le_refl _)
  · right
    refine ⟨user, ?_, hgiven.trans hleaves.answered, ?_, fun e he => ?_⟩
    · rw [hclosed, hleaves.sessions, List.append_assoc, List.eraseIdx_append_of_length_le (Nat.le_refl _), Nat.sub_self]
      rfl
    · obtain ⟨b, hb, hopens, hok⟩ := hleaves.opened
      refine ⟨b, hlast ▸ hb, hopens, fun o ho => ?_⟩
      obtain hresult | ⟨e, -, hresult⟩ := hresult
      · exact hok o (hresult ▸ ho)
      · rw [hresult] at ho
        cases ho
    · obtain hresult | ⟨e', hr, hresult⟩ := hresult
      · exact hleaves.failed e (hresult ▸ he)
      · rw [hresult] at he
        cases he
        exact hstumbles _ hr

/-- With the session as root opened before a command and closed after it, the sessions that were there are left. -/
theorem settles_asRoot {run : Watch Outcome} {shown : List Line} (hb : b.opens? = some rootName)
    (hrun : ∀ s last? x, s.Sound → (run s).Ends last? false x → x.Steps s.terminal.sessions.toList) (hs : s.Sound)
    (h : ((do
      ofJob (Job.move (Station.pushSession rootName))
      let o ← run.always (discard (Station.closeSession (some (s.terminal.sessions.depth : Int))))
      pure (o.after shown)) s).Ends (some b) false x) : x.Settles s.terminal.sessions.toList := by
  obtain ⟨y, ⟨⟩, hy, -, h⟩ | ⟨y, e, hy, he, rfl⟩ := ends_bind h
  · obtain ⟨hpush, hlast, hgiven⟩ := ends_move hy
    obtain ⟨hsound, hsessions, -⟩ := run_push hs hpush
    rw [hlast, hgiven] at h
    have hclosed : ∀ {z : Ending Outcome}, (run.always (discard (Station.closeSession (some (s.terminal.sessions.depth : Int))))
        y.station).Ends (some b) false z → z.Settles s.terminal.sessions.toList := by
      intro z hz
      obtain ⟨w, r, hw, hclose, hwlast, hwgiven, hresult⟩ := Watched.ends_always hz
      have hsteps := hrun _ _ _ hsound hw
      rw [hsessions] at hsteps
      rw [← Sessions.length_toList] at hclose
      exact settles_closed (by rw [Sessions.toList]; simp) hsteps hclose hwlast hwgiven hresult
    obtain ⟨z, o, hz, hok, h⟩ | ⟨z, e, hz, he, rfl⟩ := ends_bind h
    · exact ends_pure h ▸ (hclosed hz).after hok
    · exact (hclosed hz).failed he
  · obtain ⟨hpush, hlast, hgiven⟩ := ends_move hy
    obtain ⟨hsound, hsessions, hstumbles⟩ := run_push hs hpush
    refine ⟨hsound, .inr ⟨rootName, hsessions, hgiven, ⟨b, hlast, hb, nofun⟩, fun e' he' => ?_⟩⟩
    cases he'
    exact hstumbles _ he

/-- A command run as root leaves the sessions that were there, whatever the command does. -/
theorem settles_watchSudo {run : Watch Outcome} (hb : b.opens? = some rootName)
    (hrun : ∀ s last? x, s.Sound → (run s).Ends last? false x → x.Steps s.terminal.sessions.toList) (hs : s.Sound)
    (h : (watchSudo ctx run s).Ends (some b) false x) : x.Settles s.terminal.sessions.toList := by
  have hE : Errand ctx.user Abides := errand_abides
  have hauthorize : (authorizeSudo ctx).Within Abides := within_authorizeSudo hE.toChore fun _ => ⟨id, rfl⟩
  unfold watchSudo at h
  split at h
  · exact settles_within (hE.pure _) hs h
  obtain ⟨y, ⟨shown, refusal?⟩, hy, hok, h⟩ | ⟨y, e, hy, -, rfl⟩ := ends_bind h
  · obtain ⟨habides, hlast⟩ := ends_within hauthorize hs hy
    rw [hlast, answered_authorizeSudo _ _ _ hy _ hok] at h
    have hs₁ := habides.sound hs
    rw [← habides.sessions]
    cases refusal? with
    | some refusal => exact settles_within (hE.pure _) hs₁ h
    | none =>
      obtain ⟨z, ⟨⟩, hz, -, h⟩ | ⟨z, e, hz, -, rfl⟩ := ends_bind h
      · obtain ⟨hlogged, hlast⟩ := ends_within hE.log hs₁ hz
        rw [hlast, (ends_move hz).2.2] at h
        rw [← hlogged.sessions]
        exact settles_asRoot hb hrun (hlogged.sound hs₁) h
      · obtain ⟨hlogged, -⟩ := ends_within hE.log hs₁ hz
        exact ⟨hlogged.sound hs₁, .inl (congrArg Sessions.toList hlogged.sessions)⟩
  · obtain ⟨habides, -⟩ := ends_within hauthorize hs hy
    exact ⟨habides.sound hs, .inl (congrArg Sessions.toList habides.sessions)⟩

/-- Leaving a session closes the one on top, if it is not the only one. -/
theorem steps_closeTop {f : Unit → Job Outcome} (hf : ∀ u, (f u).Within Abides) (hs : s.Sound) (hdepth : 1 < s.terminal.sessions.depth)
    (h : (ofJob (closeTop >>= f) s).Ends last? given x) : x.Steps s.terminal.sessions.toList := by
  have hclosed : ∀ {y : Ending Unit}, (ofJob closeTop s).Ends last? given y →
      y.station.Sound ∧ y.station.terminal.sessions.toList = s.terminal.sessions.toList.dropLast := by
    intro y hy
    have hy : (ofJob (Job.move (Station.closeSession none) >>= fun _ => pure ()) s).Ends last? given y := hy
    obtain ⟨z, _, hz, -, hrest⟩ | ⟨z, e, hz, -, rfl⟩ := ends_jobs hy
    · rw [ends_pure hrest]
      exact run_close_top hs hdepth (ends_move hz).1
    · exact run_close_top hs hdepth (ends_move hz).1
  obtain ⟨y, _, hy, -, hrest⟩ | ⟨y, e, hy, -, rfl⟩ := ends_jobs h
  · obtain ⟨hsound, hsessions⟩ := hclosed hy
    obtain ⟨habides, -⟩ := ends_within (hf _) hsound hrest
    exact ⟨habides.sound hsound, .inr (.inl ((congrArg Sessions.toList habides.sessions).trans hsessions))⟩
  · obtain ⟨hsound, hsessions⟩ := hclosed hy
    exact ⟨hsound, .inr (.inl hsessions)⟩

theorem steps_runExit (ctx : Context) (hs : s.Sound) (h : (ofJob (runExit ctx) s).Ends last? given x) : x.Steps s.terminal.sessions.toList := by
  have hE : Errand ctx.user Abides := errand_abides
  refine ends_terminal (ends_cond (fun _ h => (settles_within ?_ hs h).steps) fun hdepth => ?_) h
  · exact hE.bind (within_closeWindow hE.toChore) fun _ => Course.cond (fun _ => hE.pure _) fun _ => hE.pure _
  · refine steps_closeTop (fun _ => hE.pure _) hs ?_
    have hpos : 0 < s.terminal.sessions.depth := Nat.succ_pos _
    omega

theorem steps_runLogout (ctx : Context) (hs : s.Sound) (h : (ofJob (runLogout ctx) s).Ends last? given x) : x.Steps s.terminal.sessions.toList := by
  have hE : Errand ctx.user Abides := errand_abides
  refine ends_terminal (ends_cond (fun hdepth => steps_closeTop (fun _ => hE.pure _) hs hdepth) fun _ h => (settles_within ?_ hs h).steps) h
  refine hE.bind (hE.act_beside .logout trivial fun _ _ => still_logout) fun _ => ?_
  exact hE.bind (hE.discard (within_closeWindow hE.toChore)) fun _ => hE.pure _

end Command

/-! ## Steps -/

namespace Shell

variable {ctx : Context} {input : List String} {cwd : String} {toScreen : Bool}

theorem steps_watchCommand {runAgain : Step → Watch Outcome} {c : Command}
    (hagain : ∀ step s last? x, s.Sound → (runAgain step s).Ends last? false x → x.Steps s.terminal.sessions.toList) (hs : s.Sound)
    (h : (watchCommand runAgain ctx c s).Ends (some { ctx, executable := .program c }) false x) :
    x.Steps s.terminal.sessions.toList := by
  by_cases hroot : c = .asRoot
  · cases hroot
    exact (Command.settles_watchSudo rfl (hagain _) hs h).steps
  rw [watchCommand_of_ne hroot] at h
  by_cases hsu : c = .su
  · cases hsu
    exact (Command.settles_runSu hs h).steps
  by_cases hexit : c = .exit
  · cases hexit
    exact Command.steps_runExit ctx hs h
  by_cases hlogout : c = .logout
  · cases hlogout
    exact Command.steps_runLogout ctx hs h
  exact (settles_within (chore_runCommand errand_abides.toChore hsu hroot hexit hlogout) hs h).steps

/-- Whatever a step runs, it leaves the sessions, closes the one on top, or opens one. The induction is on how deep commands run
one another. -/
theorem steps_watchStepIn : ∀ {depth : Nat} {step : Step} {s : Station} {last? : Option Begun} {x : Ending Outcome}, s.Sound →
    (watchStepIn input cwd toScreen depth step s).Ends last? false x → x.Steps s.terminal.sessions.toList
  | 0, _, _, _, _, hs, h => (settles_within (course_abides.fail _) hs h).steps
  | depth + 1, step, s, last?, x, hs, h => by
    have hE : Errand s.terminal.user Abides := errand_abides
    have hsame : x.station = s → x.Steps s.terminal.sessions.toList := by
      rintro rfl
      exact ⟨hs, .inl rfl⟩
    unfold watchStepIn at h
    refine ends_looked (ends_asked (fun found h => ?_) hsame) h
    cases found with
    | error why => exact (settles_within (hE.pure _) hs h).steps
    | ok executable =>
      refine ends_asked (fun args h => ?_) hsame h
      cases h with
      | begins rest =>
        cases executable with
        | app id => exact (settles_within (within_launch hE.toChore) hs rest).steps
        | program c => exact steps_watchCommand (fun _ _ _ _ hs => steps_watchStepIn hs) hs rest

/-- A command run as root costs no session, and leaves at most one. However deep commands run one another and whatever the innermost
of them does, when the command is over, returned, failed or given up at a question, the sessions that were there are still
there, each in its place. One more may stand above them: if the command has returned, it is that of the user for whom
the command that has begun last, a `su`, has succeeded; if it has failed, a session had been opened for a user who could not be followed.
No session is left by a command that was given up at a question. -/
theorem sudo_sessions (ctx : Context) (input : List String) (cwd : String) (toScreen : Bool) (depth : Nat) :
    (watchCommand (watchStepIn input cwd toScreen depth) ctx .asRoot).job = runCommand (runStepIn input cwd toScreen depth) ctx .asRoot ∧
    ∀ (s : Station) (x : Ending Outcome), s.Sound →
      (watchCommand (watchStepIn input cwd toScreen depth) ctx .asRoot s).Ends (some { ctx, executable := .program .asRoot }) false x →
      x.sessions = s.terminal.sessions.toList ∨ ∃ user, x.Leaves s.terminal.sessions.toList user := by
  constructor
  · rw [job_watchCommand]
    exact congrArg (runCommand · ctx .asRoot) (funext fun _ => job_watchStepIn)
  · intro s x hs h
    exact (Command.settles_watchSudo rfl (fun _ _ _ hs => steps_watchStepIn hs) hs h).sessions

/-- A terminal on which a user has given the password for acting as root. -/
def trustedTerminal : Terminal :=
  { sessions := { current := "user" }, cwd := "/", env := Environment.forSession "user" "/home/user" "/",
    history := { user := "user" }, sudoAuthorized := true }

/-- The user is an administrator. -/
def trustedUser : User := { name := "user", uid := .int 1000, gid := .int 1000, groups := [.str adminGroup] }

/-- A station with some records, whose system has not been started. -/
def trusted (store : Store) : Station :=
  { machine := { Machine.create store "aurora" {} { stem := "n" } { seconds := 0 } with
      accounts := { users := [(.str "user", trustedUser)], groups := [] } }
    terminal := trustedTerminal }

/-- What the user types there. -/
def whoamiAsRoot : Context := { args := ["whoami"], input := [], user := "user", cwd := "/", toScreen := true }

theorem sudo_sessions_trusted : (trusted (.memory [])).Sound ∧ ∃ x : Ending Outcome,
    (watchCommand (watchStepIn [] "/" true 2) whoamiAsRoot .asRoot (trusted (.memory []))).Ends
      (some { ctx := whoamiAsRoot, executable := .program .asRoot }) false x ∧
    (x.sessions = ["user"] ∨ ∃ user, x.Leaves ["user"] user) := by
  have hs : (trusted (.memory [])).Sound := ⟨linked_empty.1, .inl linked_empty.2, Store.empty_memory.restores⟩
  have hbegins : (match watchCommand (watchStepIn [] "/" true 2) whoamiAsRoot .asRoot (trusted (.memory [])) with
    | .begins _ (.done _ _) => true
    | _ => false) = true := by decide +kernel
  split at hbegins
  · rename_i command o s' hends
    have hends : (watchCommand (watchStepIn [] "/" true 2) whoamiAsRoot .asRoot (trusted (.memory []))).Ends
        (some { ctx := whoamiAsRoot, executable := .program .asRoot }) false
        { last? := some command, abandoned := false, result := .ok o, station := s' } := by
      rw [hends]
      exact .begins .done
    exact ⟨hs, _, hends, (sudo_sessions whoamiAsRoot [] "/" true 2).2 _ _ hs hends⟩
  · cases hbegins

/-- Where the history of root cannot be read, the command fails and leaves a session as root. -/
theorem sudo_leaks : (match runCommand (runStepIn [] "/" true 2) whoamiAsRoot .asRoot
      (trusted ((Store.memory []).set (Store.historyKey rootName) (.int 5))) with
    | .failed e s => some (e, s.terminal.sessions.toList)
    | _ => none) = some (.wrongShape, ["user", rootName]) := by decide +kernel

end Shell

end SimUnix
