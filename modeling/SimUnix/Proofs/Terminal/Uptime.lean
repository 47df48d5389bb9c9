/-
A system that is up. It stays up whatever is typed on its terminals, can be stopped at any time, and has its state written out
then; and a system that is started on what has been written out is up.
-/
import SimUnix.Proofs.Machine.Outcome
import SimUnix.Proofs.Machine.Written
import SimUnix.Proofs.Terminal.Life

namespace SimUnix

namespace Machine

open Act

variable {s s' : Machine} {user : String} {user? source? : Option Json} {r : Except Fault Unit}

/-! ## Up and down -/

/-- A system that runs, in a state that the records can hold. -/
structure Up (s : Machine) : Prop where
  sound : s.Sound
  regular : s.Regular
  running : s.phase = .running

/-- A system that has been stopped, with its state in the store. -/
structure Down (s : Machine) : Prop where
  sound : s.Sound
  regular : s.Regular
  stopped : s.phase = .shutdown
  written : s.Written

/-- What a system has been written out to can be started from. -/
theorem Written.restorable (h : s.Written) (hs : s.Sound) (hr : s.Regular) : Restorable (fun _ => True) s.store :=
  let ⟨us, gs, hlists, hkept⟩ := h
  .inr ⟨s, us, gs, hs.linked, hr, hlists, hkept, trivial⟩

/-- Stopping a system that is up succeeds. -/
theorem Up.stop (h : s.Up) : ∃ s', shutdown.run s = (.ok ⟨⟩, s') ∧ s'.Down := by
  obtain ⟨us, gs, hs⟩ := h.regular.lists
  obtain ⟨log, hstop⟩ := Regular.run_shutdown h.running hs
  refine ⟨_, hstop, steady_sound.shutdown h.sound hstop, ?_, rfl, us, gs, ?_, h.regular.kept h.sound.linked hs⟩
  · exact ⟨⟨h.regular.marked, h.regular.accounts, h.regular.user, h.regular.clipboard, h.regular.core, h.regular.apps,
      h.regular.failures, h.regular.diagnostic, h.regular.clock⟩, h.regular.indexed⟩
  · exact ⟨hs.users, hs.groups, hs.usersJson, hs.groupsJson, hs.read⟩

/-- So does starting one on what has been written out. -/
theorem Restorable.boot {Q : Machine → Prop} (hb : Restorable Q s.store) (hs : s.Sound) (hnow : s.now.Proper)
    (hphase : s.phase = .shutdown) : ∃ s', Machine.boot.run s = (.ok ⟨⟩, s') ∧ s'.Up ∧ s'.Written := by
  rcases hrun : Machine.boot.run s with ⟨r, s'⟩
  obtain ⟨rfl, hregular, hrunning, hwritten, -⟩ := boot_cases hs hnow hphase hb hrun
  exact ⟨s', rfl, ⟨sound_boot hs hrun, hregular, hrunning⟩, hwritten⟩

/-- Log entries make no difference. -/
theorem Up.logged (h : s.Up) {log : Log} : Up { s with log } where
  sound := h.sound.same rfl rfl
  regular := ⟨⟨h.regular.marked, h.regular.accounts, h.regular.user, h.regular.clipboard, h.regular.core, h.regular.apps,
    h.regular.failures, h.regular.diagnostic, h.regular.clock⟩, h.regular.indexed⟩
  running := h.running

/-! ## Logging in -/

/-- An attempt to log in succeeds, and the session is written out, or nothing but the log is different. -/
theorem Up.login (h : s.Up) (user password : String) : ∃ found s', (Machine.login user password).run s = (.ok found, s') ∧ s'.Up ∧
    (s.Written → s'.Written) := by
  by_cases hverify : s.accounts.verify user password = true
  · obtain ⟨s', hrun, hsaved⟩ := login_accepted h.sound.linked h.regular hverify
    have hsession : TidyWith _ { s with currentUser := Json.text? (some user) } := h.regular.tidyWith.withUser
    rw [Operation.run, run_discard] at hrun
    rcases hlogin : (Machine.login user password).run s with ⟨x, s₁⟩
    rw [hlogin] at hrun
    cases x with
    | error e => cases hrun
    | ok found =>
      cases hrun
      refine ⟨found, s', rfl, ⟨steady_sound.login h.sound hlogin, hsaved.regular hsession.regular, ?_⟩, fun _ => hsaved.up h.running⟩
      rw [hsaved.same]
      exact h.running
  · refine ⟨false, s.logged .warning "auth" s!"failed login for {user}" user, ?_, h.logged, fun hw => ?_⟩
    · unfold Machine.login
      rw [run_bind, run_get]
      dsimp only
      rw [if_neg hverify]
      rfl
    · have hlogged : Written { s with phase := s.phase, log := (s.logged .warning "auth" s!"failed login for {user}" user).log, now := s.now } :=
        hw.beside
      exact hlogged

/-! ## Operations -/

/-- Calls on files leave the system in its phase. -/
theorem FileCall.phase {c : FileCall} {r : Except Fault Answer} (hrun : (c.run user? source?).run s = (r, s')) : s'.phase = s.phase := by
  have hsettled : ∀ {α : Type} {refusal : α → Prop} {s s' : Machine} {x : Except Fault α}, Settled refusal s x s' → s'.phase = s.phase :=
    fun h => by
      rcases h with hnoted | ⟨hmade, -⟩
      · rw [hnoted]
      · rw [hmade.same]
  rcases c.settled hrun with h | ⟨path, x, s₁, -, hens, h⟩
  · exact hsettled h
  · exact (hsettled h).trans (hsettled (settles_ensureTrash hens))

theorem keeps_phase_checkIntegrity {phase : Phase} : Keeps (fun s => s.phase = phase) checkIntegrity := by
  have hlog : ∀ {level source message user}, Keeps (fun s : Machine => s.phase = phase) (Act.log level source message user) :=
    fun {_ _ _ _} _ _ _ h hrun => by
      cases hrun
      exact h
  have hflush : Keeps (fun s : Machine => s.phase = phase) Act.flush := fun _ _ _ h hrun => by
    rw [(aside_flush hrun).same]
    exact h
  refine keeps_read fun s => keeps_cond (fun _ => keeps_pure _) fun _ => keeps_bind (keeps_ofExcept _) fun report => ?_
  refine keeps_cond (fun _ => ?_) fun _ => keeps_pure _
  refine keeps_bind (keeps_modify fun _ h => h) fun _ => keeps_bind (keeps_bind (keeps_modify fun _ h => h) fun _ => hflush) fun _ => ?_
  exact keeps_bind (keeps_for fun _ _ => hlog) fun _ => keeps_pure _

/-- What is due for a user leaves the system in its phase. -/
theorem Operation.Due.phase {op : Operation} (hop : op.Due user) (hs : s.Sound) (hr : s.Regular) (hrun : op.run.run s = (r, s')) :
    s'.phase = s.phase := by
  have hsaved : ∀ {m : Machine}, m.Saved s' → m.phase = s.phase → s'.phase = s.phase := fun h hm => by
    rw [h.same]
    exact hm
  have htable : ∀ {c : TableCall} {user? : Option Json}, c.Proper → (c.operation user?).run.run s = (r, s') → s'.phase = s.phase :=
    fun hc hrun => by
      rcases TableCall.operation_saved hc hs hr hrun with hlog | ⟨accounts, t, -, h⟩
      · rw [hlog]
      · exact hsaved h rfl
  cases op
  case logout => exact hsaved (logout_saved hs.linked hr hrun) rfl
  case reset =>
    obtain ⟨m, hphase, -, -, h⟩ := reset_saved hs hr.clock hrun
    exact hsaved h hphase
  case addUser new _ => exact htable (c := .addUser new) hop.2 hrun
  case updateUser name c _ => exact htable (c := .updateUser name c) trivial hrun
  case deleteUser name _ => exact htable (c := .deleteUser name) trivial hrun
  case addGroup name members _ => exact htable (c := .addGroup name members) trivial hrun
  case addToGroup member group _ => exact htable (c := .addToGroup member group) trivial hrun
  case removeFromGroup member group _ => exact htable (c := .removeFromGroup member group) trivial hrun
  case deleteGroup name _ => exact htable (c := .deleteGroup name) trivial hrun
  all_goals exact hop.elim

end Machine

/-! ## Terminals -/

/-- A system that is up stays up. -/
def Station.StaysUp (s s' : Station) : Prop := (s.Sound → s'.Sound) ∧ (s.machine.Up → s'.machine.Up)

namespace Station

open Machine

theorem duty_staysUp (user : String) : Duty user StaysUp where
  refl _ := ⟨id, id⟩
  trans h₁ h₂ := ⟨fun h => h₂.1 (h₁.1 h), fun h => h₂.2 (h₁.2 h)⟩
  sound h := h.1
  idle h := by
    refine ⟨h.beside.sound, fun hup => ⟨h.machine.sound hup.sound, hup.regular.idle h.machine, ?_⟩⟩
    rw [h.machine.same]
    exact hup.running
  call {_ c _ _} hs hc hrun := by
    obtain ⟨_, hop⟩ := run_discard_of hrun
    have hsound := (c.trail hs.linked hrun).sound hs
    exact ⟨fun _ => hsound, fun hup => ⟨hsound, Operation.regular hc.ordinary.1 hs hup.regular hop, (FileCall.phase hrun).trans hup.running⟩⟩
  perform {_ op _ _} hs hd hrun _ := by
    have hsound := op.sound hs hrun
    exact ⟨fun _ => hsound, fun hup =>
      ⟨hsound, Operation.regular hd.ordinary.1 hs hup.regular hrun, (hd.phase hs hup.regular hrun).trans hup.running⟩⟩

variable {s : Station} {m : Machine}

theorem staysUp_start : start.Leads StaysUp := by
  refine Window.within_start (duty_staysUp "").service fun {s m r} hs hrun => ?_
  have hsound := steady_sound.checkIntegrity hs hrun
  obtain ⟨_, hop⟩ := run_discard_of hrun
  refine ⟨fun _ => hsound, fun hup => ⟨hsound, ?_, keeps_phase_checkIntegrity hup.running hrun⟩⟩
  have hproper : Operation.checkIntegrity.Proper := trivial
  exact Operation.regular hproper hs hup.regular hop

end Station

namespace Window

variable {s s' : Machine} {v v' : Window}

theorem submit_staysUp {line : String} {r : Except Fault Response} (hup : s.Up) (hv : v.Awaits Station.StaysUp)
    (hrun : v.submit s line = (r, v', s')) : s'.Up ∧ v'.Awaits Station.StaysUp := by
  obtain ⟨⟨_, _, h⟩, hv'⟩ := submit_within Station.duty_staysUp hup.sound hv hrun
  exact ⟨h.2 hup, hv'⟩

theorem abandon_staysUp {found : Bool} (hup : s.Up) (hv : v.Awaits Station.StaysUp) (hrun : v.abandon s = (found, v', s')) : s'.Up := by
  obtain ⟨⟨_, _, h⟩, -⟩ := abandon_within (Station.duty_staysUp "").toCourse hup.sound hv hrun
  exact h.2 hup

end Window

end SimUnix
