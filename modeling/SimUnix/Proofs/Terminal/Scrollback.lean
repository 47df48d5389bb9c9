/-
Where a line and its block are kept. The line is remembered at once, for the user whose history is open when it is
typed. Its block is put into the scrollback when the line is done, for the user whose history is open then: between
the two, and over any number of questions, commands may begin and close sessions, and the history follows.
-/
import SimUnix.Proofs.Terminal.Remembered
import SimUnix.Proofs.Terminal.World

namespace SimUnix

/-! ## What jobs come to -/

/-- Whatever is answered in the meantime, and whatever the station is by then, a job that is done has come to
results and stations of some kind. -/
inductive Progress.Ends {α : Type} (Q : α → Station → Prop) : Progress α → Prop
  | done {a : α} {s : Station} (h : Q a s) : Progress.Ends Q (.done a s)
  | failed {e : Fault} {s : Station} : Progress.Ends Q (.failed e s)
  | waiting {s : Station} {resume : Option String → Station → Progress α}
      (h : ∀ reply s', Progress.Ends Q (resume reply s')) : Progress.Ends Q (.waiting s resume)

variable {α β : Type} {Q : β → Station → Prop}

/-- What a job comes to is up to what it does last. -/
theorem Progress.ends_bind {f : α → Job β} {p : Progress α} (hf : ∀ a s, (f a s).Ends Q) : (p.bind f).Ends Q := by
  induction p with
  | done a s => exact hf a s
  | failed e s => exact .failed
  | waiting s resume ih => exact .waiting ih

theorem Job.ends_bind {job : Job α} {f : α → Job β} (hf : ∀ a s, (f a s).Ends Q) (s : Station) : ((job >>= f) s).Ends Q :=
  Progress.ends_bind hf

/-! ## Notes in a terminal -/

open History

namespace Station

theorem run_history {change : Remember Unit} {s : Station} : (Move.history change).run s =
    ((change.run (s.terminal.history, s.machine.store)).1,
      { machine := { s.machine with store := (change.run (s.terminal.history, s.machine.store)).2.2 },
        terminal := { s.terminal with history := (change.run (s.terminal.history, s.machine.store)).2.1 } }) := by
  unfold Move.history
  rw [run_bind, run_get]
  dsimp only
  rcases change.run (s.terminal.history, s.machine.store) with ⟨_ | _, h, store⟩ <;> rfl

/-- The history of the terminal is after a note, which has been written for its user and for no one else. -/
structure Noted (n : Note) (s s' : Station) : Prop where
  history : s'.terminal.history = n.on s.terminal.history
  others : Store.WritesOf s.terminal.history.user s.machine.store s'.machine.store
  shown : ¬ n.Silent → s'.terminal.history.ShownIn s'.machine.store

theorem noted {n : Note} {s s' : Station} (hrun : (Move.history n.write).run s = (.ok (), s')) :
    s.Noted n s' ∧ s'.machine = { s.machine with store := s'.machine.store } := by
  rw [run_history] at hrun
  rcases hwrite : n.write.run (s.terminal.history, s.machine.store) with ⟨r, h, store⟩
  rw [hwrite] at hrun
  cases hrun
  obtain ⟨hh, hothers, -, hshown⟩ := Note.leaves hwrite
  exact ⟨⟨hh, hothers, fun hloud => hshown hloud rfl⟩, rfl⟩

/-- Going on after a note. -/
theorem ends_note {n : Note} {f : Unit → Job β} {s : Station} (hf : ∀ s', s.Noted n s' → (f () s').Ends Q) :
    ((Job.move (Move.history n.write) >>= f) s).Ends Q := by
  show (Progress.bind (Job.ofExcept ((Move.history n.write).run s).1 ((Move.history n.write).run s).2) f).Ends Q
  rcases hrun : (Move.history n.write).run s with ⟨e | _, s'⟩
  · exact .failed
  · exact hf s' (noted hrun).1

end Station

/-! ## Lines -/

namespace Window

/-- The last that has been written for a line is its block, for the user whose history is open. A line that has cleared
the scrollback and shows nothing leaves it empty. -/
def Entered (f : Finished) (s : Station) : Prop :=
  ∃ before : Station, before.Noted (.block f.block) s ∨ f.cleared = true ∧ before.Noted .clear s

theorem entered_conclude {line prompt : String} {r : Shell.Result} {s : Station} : (conclude line prompt r s).Ends Entered := by
  unfold conclude
  dsimp only
  cases hclear : r.clearScreen with
  | false => exact Station.ends_note (n := .block _) fun s' hs' => .done ⟨s, .inl hs'⟩
  | true =>
    refine Station.ends_note (n := .clear) fun s' hs' => ?_
    split
    · exact Station.ends_note (n := .block _) fun s'' hs'' => .done ⟨s', .inl hs''⟩
    · exact .done ⟨s, .inr ⟨rfl, hs'⟩⟩

theorem entered_startLine {line : String} {s : Station} : (startLine line s).Ends Entered := by
  refine Job.ends_bind (fun prompt s => ?_) s
  split
  · exact Station.ends_note (n := .block _) fun s' hs' => .done ⟨s, .inl hs'⟩
  · exact Job.ends_bind (fun r s => entered_conclude) s

/-- What a line does comes after it has been taken. -/
theorem startLine_eq {line : String} {s : Station} :
    startLine line s = (receive line s).bind fun prompt => if Text.allBlank line then pass prompt else runLine line prompt := rfl

/-- A line is remembered for the user whose history is open when it is typed and for no one else, if it is taken. -/
theorem received {line : String} {s : Station} : (∃ e s', receive line s = .failed e s') ∨
    ∃ prompt s', receive line s = .done prompt s' ∧ s.Noted (.line line) s' := by
  have hbind : receive line s = (Job.ofExcept ((Move.history (Note.line line).write).run s).1
      ((Move.history (Note.line line).write).run s).2).bind fun _ s => Job.ofExcept s.promptText s := rfl
  rcases hrun : (Move.history (Note.line line).write).run s with ⟨e | _, s₁⟩
  · rw [hrun] at hbind
    exact .inl ⟨e, s₁, hbind⟩
  · rw [hrun] at hbind
    rcases hprompt : s₁.promptText with e | prompt
    · refine .inl ⟨e, s₁, hbind.trans ?_⟩
      show Job.ofExcept s₁.promptText s₁ = _
      rw [hprompt]
      rfl
    · refine .inr ⟨prompt, s₁, hbind.trans ?_, (Station.noted hrun).1⟩
      show Job.ofExcept s₁.promptText s₁ = _
      rw [hprompt]
      rfl

/-- Whenever the command that waits is done, its block is in the scrollback. -/
def Enters (w : Window) : Prop := ∀ resume, w.waiting? = some resume → ∀ reply s, (resume reply s).Ends Entered

variable {w w' : Window} {s s' : Machine} {r : Except Fault Response}

theorem settle_entered {p : Progress Finished} (hp : p.Ends Entered) (h : settle p = (r, w, s)) :
    w.Enters ∧ ∀ f closed, r = .ok (.finished f closed) → Entered f { machine := s, terminal := w.terminal } := by
  cases hp with
  | done hf =>
    cases h
    refine ⟨fun _ hw => (by cases hw), fun f closed hr => ?_⟩
    cases hr
    exact hf
  | failed =>
    cases h
    exact ⟨fun _ hw => (by cases hw), fun f closed hr => by cases hr⟩
  | waiting hresume =>
    cases h
    refine ⟨fun _ hw => ?_, fun f closed hr => by cases hr⟩
    cases hw
    exact hresume

theorem submit_entered {line : String} (hw : w.Enters) (h : w.submit s line = (r, w', s')) :
    w'.Enters ∧ ∀ f closed, r = .ok (.finished f closed) → Entered f { machine := s', terminal := w'.terminal } := by
  unfold submit at h
  dsimp only at h
  split at h
  · rename_i resume hresume
    refine settle_entered (hw resume ?_ _ _) h
    split at hresume
    · exact hresume
    · cases hresume
  · exact settle_entered entered_startLine h

theorem abandon_enters {b : Bool} (hw : w.Enters) (h : w.abandon s = (b, w', s')) : w'.Enters := by
  unfold abandon at h
  split at h
  · cases h
    exact fun _ hwaits => by cases hwaits
  · cases h
    exact hw

end Window

/-! ## Changes of the session -/

namespace History

variable {h h' : History} {a b : Store} {user : String}

/-- Loading a history leaves the store as it is. The command lines and what was recalled of them change last of all. -/
theorem load_cases {r : Except Fault Unit} (hrun : load.run (h, a) = (r, (h', b))) : b = a ∧
    ((r ≠ .ok () ∧ ∃ blocks, h' = { h with blocks }) ∨
      r = .ok () ∧ ∃ blocks commands, storedBlocks h.user a = .ok blocks ∧ storedCommands h.user a = .ok commands ∧
        h' = { h with blocks, commands, cursor? := none }) := by
  unfold load at hrun
  rw [run_bind, run_get] at hrun
  dsimp only at hrun
  split at hrun
  · cases hrun
    exact ⟨rfl, .inl ⟨nofun, h.blocks, rfl⟩⟩
  · rename_i blocks hblocks
    rw [run_bind, run_set] at hrun
    dsimp only at hrun
    split at hrun
    · cases hrun
      exact ⟨rfl, .inl ⟨nofun, blocks, rfl⟩⟩
    · rename_i commands hcommands
      cases hrun
      exact ⟨rfl, .inr ⟨rfl, blocks, commands, hblocks, hcommands, rfl⟩⟩

theorem load_keeps {r : Except Fault Unit} (hrun : load.run (h, a) = (r, (h', b))) : h'.user = h.user ∧ b = a := by
  obtain ⟨rfl, ⟨-, blocks, rfl⟩ | ⟨-, blocks, commands, -, -, rfl⟩⟩ := load_cases hrun <;> exact ⟨rfl, rfl⟩

/-- Going over to a user's history: nothing is done if it is open. Otherwise the other one is saved first, and what is
found for the user is loaded then. -/
theorem switch_cases (hrun : (switch user).run (h, a) = (.ok (), (h', b))) :
    (user = h.user ∧ h' = h ∧ b = a) ∨
      user ≠ h.user ∧ Store.WritesOf h.user a b ∧ h.ShownIn b ∧ load.run ({ h with user }, b) = (.ok (), (h', b)) := by
  unfold switch at hrun
  rw [run_bind, run_get] at hrun
  dsimp only at hrun
  split at hrun
  · rename_i hother
    rcases of_run_bind hrun with ⟨e, -, he⟩ | ⟨_, ⟨h₁, a₁⟩, hsave, hrest⟩
    · cases he
    · obtain ⟨rfl, hwrites, hshown⟩ := run_save hsave
      have hload : load.run ({ h₁ with user }, a₁) = (.ok (), (h', b)) := hrest
      obtain ⟨-, rfl⟩ := load_keeps hload
      exact .inr ⟨by simpa using hother, hwrites, hshown rfl, hload⟩
  · rename_i hsame
    cases hrun
    exact .inl ⟨by simpa using hsame, rfl, rfl⟩

/-- A history that has gone over to a user is that user's. -/
theorem switch_user (hrun : (switch user).run (h, a) = (.ok (), (h', b))) : h'.user = user := by
  rcases switch_cases hrun with ⟨hsame, rfl, -⟩ | ⟨-, -, -, hload⟩
  · exact hsame.symm
  · exact (load_keeps hload).1

end History

namespace Station

variable {s s' : Station}

theorem run_ask {question : Machine → Except Fault α} : (Move.ask question).run s = (question s.machine, s) := by
  unfold Move.ask
  rw [Course.run_act, Act.run_ask]

/-- Of the system and the history, following the acting user changes what going over to that user's history changes. -/
theorem follow_switch (hrun : followUser.run s = (.ok (), s')) : s'.terminal.sessions = s.terminal.sessions ∧
    (switch s.terminal.user).run (s.terminal.history, s.machine.store) =
      (.ok (), (s'.terminal.history, s'.machine.store)) ∧
    s'.machine = { s.machine with store := s'.machine.store } := by
  unfold followUser at hrun
  rw [run_bind, run_get] at hrun
  dsimp only at hrun
  rw [run_bind, run_history] at hrun
  rcases hswitch : (switch s.terminal.user).run (s.terminal.history, s.machine.store) with ⟨x, h, store⟩
  rw [hswitch] at hrun
  cases x with
  | error e => cases hrun
  | ok =>
    dsimp only at hrun
    rw [run_bind, run_ask] at hrun
    dsimp only at hrun
    split at hrun
    · rename_i hasked
      obtain ⟨-, rfl⟩ := Prod.mk.inj hasked
      cases hrun
      exact ⟨rfl, rfl, rfl⟩
    · cases hrun

/-- The history follows the acting user. -/
theorem follow_history (hrun : followUser.run s = (.ok (), s')) :
    s'.terminal.user = s.terminal.user ∧ s'.terminal.history.user = s.terminal.user := by
  obtain ⟨hsessions, hswitch, -⟩ := follow_switch hrun
  exact ⟨congrArg Sessions.current hsessions, History.switch_user hswitch⟩

/-- Closing a session leaves the station as it is, or follows the user who acts from then on. -/
theorem close_cases {position? : Option Int} {closed : Bool} (hrun : (closeSession position?).run s = (.ok closed, s')) :
    (closed = false ∧ s' = s) ∨ closed = true ∧
      ∃ sessions, followUser.run { s with terminal := { s.terminal with sessions } } = (.ok (), s') := by
  unfold closeSession at hrun
  rw [run_bind, run_get] at hrun
  dsimp only at hrun
  split at hrun
  · cases hrun
    exact .inl ⟨rfl, rfl⟩
  · rename_i sessions hclose
    have hrest : (followUser >>= fun _ => pure true).run { s with terminal := { s.terminal with sessions } } = (.ok closed, s') := hrun
    rcases of_run_bind hrest with ⟨e, -, he⟩ | ⟨_, s₁, hfollow, hrest⟩
    · cases he
    · cases hrest
      exact .inr ⟨rfl, sessions, hfollow⟩

/-- When a session has begun, the history is that of its user. -/
theorem push_history {user : String} (hrun : (pushSession user).run s = (.ok (), s')) :
    s'.terminal.user = user ∧ s'.terminal.history.user = user := follow_history hrun

/-- When a session has been closed, the history is that of the user who acts from then on. -/
theorem close_history {position? : Option Int} (hrun : (closeSession position?).run s = (.ok true, s')) :
    s'.terminal.history.user = s'.terminal.user := by
  rcases close_cases hrun with ⟨hclosed, -⟩ | ⟨-, sessions, hfollow⟩
  · cases hclosed
  · obtain ⟨huser, hhistory⟩ := follow_history hfollow
    exact hhistory.trans huser.symm

end Station

end SimUnix
