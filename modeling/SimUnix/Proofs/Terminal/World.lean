/-
A system with the terminals that are open on it. Whatever is done to the system and typed on the
terminals, one thing after the other, the system stays sound, and its files are one tree.
-/
import SimUnix.Proofs.Terminal.Lines
import SimUnix.Proofs.Tree.OneTree

namespace SimUnix

/-! ## Keeping sound -/

/-- A sound system stays sound. -/
def Station.Keeps (s s' : Station) : Prop := s.Sound → s'.Sound

theorem Station.duty_keeps (user : String) : Duty user Station.Keeps where
  refl _ := id
  trans h₁ h₂ h := h₂ (h₁ h)
  sound h := h
  idle h := h.beside.sound
  call {_ c _ _} hs _ hrun _ := (c.trail hs.linked hrun).sound hs
  perform {_ op _ _} hs _ hrun _ _ := op.sound hs hrun

open Station in
/-- Every part of a line stays within what every user may do. -/
theorem LinePart.within {R : Station → Station → Prop} (hR : ∀ user, Duty user R) {α : Type} {job : Job α}
    (h : LinePart α job) : job.Within R := by
  cases h with
  | beside h => exact fun s hs => (h s hs).mono fun hb => (hR "").idle hb.toIdle
  | step => exact Shell.within_runStepIn hR
  | redirect => exact fun s hs => Shell.redirect_within hs (hR _).service.toScribe

/-! ## Windows -/

namespace Window

theorem submit_idle {w : Window} {s : Machine} {line : String} (hw : w.waiting? = none) :
    w.submit s line = settle (startLine line { machine := s, terminal := w.terminal }) := by
  unfold submit
  rw [hw, ite_self]

theorem submit_waiting {w : Window} {s : Machine} {line : String} {resume : Option String → Station → Progress Finished}
    (hactive : w.terminal.prompt.active = true) (hw : w.waiting? = some resume) :
    w.submit s line = settle (resume (some line) { machine := s, terminal := w.terminal }) := by
  unfold submit
  rw [if_pos hactive, hw]

/-- Whenever the command that waits goes on with a sound system, it stays within a course. -/
def Awaits (R : Station → Station → Prop) (w : Window) : Prop :=
  ∀ resume, w.waiting? = some resume → ∀ reply s, s.Sound → (resume reply s).Within R s

variable {R : Station → Station → Prop}

/-- From a system to another one, with some terminals on them. -/
def Reaches (R : Station → Station → Prop) (s s' : Machine) : Prop :=
  ∃ t t', R { machine := s, terminal := t } { machine := s', terminal := t' }

theorem settle_within {p : Progress Finished} {s : Station} {r : Except Fault Response} {w : Window} {m : Machine}
    (hp : p.Within R s) (h : settle p = (r, w, m)) : Reaches R s.machine m ∧ w.Awaits R := by
  cases p with
  | done f s' =>
    cases h
    exact ⟨⟨_, _, hp⟩, fun _ hw => by cases hw⟩
  | failed e s' =>
    cases h
    exact ⟨⟨_, _, hp⟩, fun _ hw => by cases hw⟩
  | waiting s' resume =>
    cases h
    refine ⟨⟨_, _, hp.1⟩, fun resume' hw => ?_⟩
    cases hw
    exact hp.2

variable {w w' : Window} {s s' : Machine}

theorem submit_within (hR : ∀ user, Duty user R) {line : String} {r : Except Fault Response} (hs : s.Sound) (hw : w.Awaits R)
    (h : w.submit s line = (r, w', s')) : Reaches R s s' ∧ w'.Awaits R := by
  unfold submit at h
  dsimp only at h
  split at h
  · rename_i resume hresume
    refine settle_within (s := { machine := s, terminal := w.terminal }) (hw resume ?_ _ _ hs) h
    split at hresume
    · exact hresume
    · cases hresume
  · exact settle_within (s := { machine := s, terminal := w.terminal })
      (made_startLine.within (hR "").toCourse (LinePart.within hR) _ hs) h

theorem abandon_within (hR : Course R) {b : Bool} (hs : s.Sound) (hw : w.Awaits R) (h : w.abandon s = (b, w', s')) :
    Reaches R s s' ∧ w'.Awaits R := by
  unfold abandon at h
  split at h
  · rename_i resume hresume
    rcases hsettle : settle (resume none { machine := s, terminal := w.terminal }) with ⟨r, w₁, s₁⟩
    have hwaits : w.waiting? = some resume := by
      split at hresume
      · exact hresume
      · cases hresume
    obtain ⟨hreach, -⟩ := settle_within (s := { machine := s, terminal := w.terminal }) (hw resume hwaits _ _ hs) hsettle
    rw [hsettle] at h
    cases h
    exact ⟨hreach, fun _ hw => by cases hw⟩
  · cases h
    exact ⟨⟨w.terminal, w.terminal, hR.refl _⟩, hw⟩

/-- Starting a terminal leads along a course if the integrity check and the diagnostic do. -/
theorem leads_start (hR : Course R) (hshow : Station.showDiagnostic.Leads R)
    (hcheck : ∀ {s : Station} {m r}, s.Sound → Machine.checkIntegrity.run s.machine = (r, m) → R s { s with machine := m }) :
    Station.start.Leads R := by
  have hboth : Move.Leads R (do
      let report ← Move.act Machine.checkIntegrity
      if !report.valid then Station.showDiagnostic) := by
    refine hR.leads_bind (Course.leads_act hcheck) fun report => ?_
    split
    · exact hshow
    · exact hR.leads_pure _
  refine Course.leads_read fun s => ?_
  split
  · exact hR.leads_bind hshow fun _ => hboth
  · exact hboth

theorem within_start {user : String} (hR : Service user R)
    (hcheck : ∀ {s : Station} {m r}, s.Sound → Machine.checkIntegrity.run s.machine = (r, m) → R s { s with machine := m }) :
    Station.start.Leads R :=
  leads_start hR.toCourse (fun _ _ _ hs hrun => hR.still (Station.still_showDiagnostic hs hrun)) hcheck

theorem within_interrupt {user input : String} (hR : Service user R) : (Station.interrupt input).Leads R :=
  fun _ _ _ hs hrun => hR.still (Station.still_interrupt hs hrun)

end Window

/-! ## Worlds -/

/-- A system and the terminals that are open on it. -/
structure World where
  machine : Machine
  windows : List Window := []

namespace World

/-- The system is sound, and no command that waits will change that. -/
structure Sound (w : World) : Prop where
  machine : w.machine.Sound
  windows : ∀ v ∈ w.windows, v.Awaits Station.Keeps

/-- The states that a system and its terminals get into from an empty store, when operations are
performed, terminals are opened, and lines, answers and interruptions are typed on them in any order. A
new system that takes the place of the old one has no terminals. -/
inductive Reachable : World → Prop
  | first {store : Store} {hostname : String} {log : Log} {ids : IdSupply} {now : Time.Stamp} (empty : store.Empty) :
      Reachable { machine := Machine.create store hostname log ids now }
  | operate {w : World} {op : Machine.Operation} {r : Except Fault Unit} {s : Machine} (before : Reachable w)
      (run : op.run.run w.machine = (r, s)) : Reachable { w with machine := s }
  | restart {w : World} (before : Reachable w) : Reachable { machine := w.machine.anew }
  | opens {w : World} {user? : Option Json} {launches closes : Bool} {terminal : Terminal} (before : Reachable w)
      (run : w.machine.openTerminal user? launches closes = .ok terminal) :
      Reachable { w with windows := w.windows ++ [{ terminal }] }
  | start {w : World} {i : Nat} {v : Window} {r : Except Fault Unit} {s : Station} (before : Reachable w)
      (there : w.windows[i]? = some v) (run : Station.start.run { machine := w.machine, terminal := v.terminal } = (r, s)) :
      Reachable { machine := s.machine, windows := w.windows.set i { v with terminal := s.terminal } }
  | submit {w : World} {i : Nat} {v v' : Window} {line : String} {r : Except Fault Response} {s : Machine}
      (before : Reachable w) (there : w.windows[i]? = some v) (run : v.submit w.machine line = (r, v', s)) :
      Reachable { machine := s, windows := w.windows.set i v' }
  | abandon {w : World} {i : Nat} {v v' : Window} {b : Bool} {s : Machine} (before : Reachable w)
      (there : w.windows[i]? = some v) (run : v.abandon w.machine = (b, v', s)) :
      Reachable { machine := s, windows := w.windows.set i v' }
  | interrupt {w : World} {i : Nat} {v : Window} {input : String} {r : Except Fault Block} {s : Station}
      (before : Reachable w) (there : w.windows[i]? = some v)
      (run : (Station.interrupt input).run { machine := w.machine, terminal := v.terminal } = (r, s)) :
      Reachable { machine := s.machine, windows := w.windows.set i { v with terminal := s.terminal } }

theorem Sound.set {w : World} {i : Nat} {v : Window} {s : Machine} (h : w.Sound) (hs : s.Sound)
    (hv : v.Awaits Station.Keeps) : Sound { machine := s, windows := w.windows.set i v } := by
  refine ⟨hs, fun u hu => ?_⟩
  rcases List.mem_or_eq_of_mem_set hu with hu | rfl
  · exact h.windows u hu
  · exact hv

theorem Reachable.sound {w : World} (h : Reachable w) : w.Sound := by
  induction h with
  | first empty => exact ⟨Machine.sound_create empty.restores, fun _ hv => by cases hv⟩
  | operate _ run ih => exact ⟨Machine.Operation.sound _ ih.machine run, ih.windows⟩
  | restart _ ih => exact ⟨ih.machine.anew, fun _ hv => by cases hv⟩
  | opens _ _ ih =>
    refine ⟨ih.machine, fun v hv => ?_⟩
    rcases List.mem_append.1 hv with hv | hv
    · exact ih.windows v hv
    · cases List.mem_singleton.1 hv
      exact fun _ hw => by cases hw
  | @start w i v r s _ there run ih =>
    have hs : Station.Sound { machine := w.machine, terminal := v.terminal } := ih.machine
    have hstart := Window.within_start (Station.duty_keeps "").service (fun hs hrun _ => Machine.steady_sound.checkIntegrity hs hrun)
    exact ih.set (hstart hs run hs) (ih.windows v (List.mem_of_getElem? there))
  | @submit w i v v' line r s _ there run ih =>
    obtain ⟨⟨_, _, hs⟩, hv⟩ := Window.submit_within Station.duty_keeps ih.machine (ih.windows v (List.mem_of_getElem? there)) run
    exact ih.set (hs ih.machine) hv
  | @abandon w i v v' b s _ there run ih =>
    obtain ⟨⟨_, _, hs⟩, hv⟩ := Window.abandon_within (Station.duty_keeps "").toCourse ih.machine
      (ih.windows v (List.mem_of_getElem? there)) run
    exact ih.set (hs ih.machine) hv
  | @interrupt w i v input r s _ there run ih =>
    have hs : Station.Sound { machine := w.machine, terminal := v.terminal } := ih.machine
    exact ih.set (Window.within_interrupt (Station.duty_keeps "").service hs run hs) (ih.windows v (List.mem_of_getElem? there))

/-- The world of a system that has been started for the first time. -/
def fresh : World := { machine := Machine.fresh }

theorem Reachable.perform {w : World} (h : w.Reachable) (op : Machine.Operation) :
    Reachable { w with machine := op.after w.machine } :=
  .operate h (show op.run.run w.machine = ((op.run.run w.machine).1, _) from rfl)

theorem fresh_reachable : fresh.Reachable := Reachable.perform (.first Store.empty_memory) .boot

/-- A system that has not been started, in whose root directory root has made another one. -/
def furnished : World :=
  { machine := (Machine.Operation.file (.createDirectory "/" "a") (some (.str rootName)) none).after
      (Machine.create (.memory []) "aurora" {} { stem := "n" } { seconds := 0 }) }

theorem furnished_reachable : furnished.Reachable := Reachable.perform (.first Store.empty_memory) _

end World

end SimUnix
