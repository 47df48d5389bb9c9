/-
What is in the store once something has been done to a system that is up. Sessions, changes of the tables, starts,
stops and resets end with writing the state out, so that the store gives it back as it is; while the system is
down they leave the store alone, but for a reset.
-/
import SimUnix.Proofs.Machine.Identity
import SimUnix.Proofs.Store.Renewal

namespace SimUnix.Machine

open Act

variable {Q : Machine → Prop} {s m s₁ s' : Machine} {user? : Option Json} {r : Except Fault Unit}

/-! ## States that are written out -/

/-- The store gives back the state as it is. -/
def Written (s : Machine) : Prop := ∃ us gs, s.Lists us gs ∧ Kept s.store s us gs

/-- The phase, the log and the time are in no record. -/
theorem Written.beside (h : s.Written) {phase : Phase} {log : Log} {now : Time.Stamp} : Written { s with phase, log, now } := by
  obtain ⟨us, gs, hs, hk⟩ := h
  exact ⟨us, gs, ⟨hs.users, hs.groups, hs.usersJson, hs.groupsJson, hs.read⟩, hk⟩

/-- A state has been written out, if the system is up, and nothing but its log and its records is different then. -/
structure Saved (m s' : Machine) : Prop where
  same : s' = { m with log := s'.log, store := s'.store }
  up : m.phase = .running → s'.Written
  down : m.phase ≠ .running → s'.store = m.store

theorem Regular.saved (hr : m.Regular) (hl : m.tree.Linked) (hrun : Act.flush.run m = (r, s')) : m.Saved s' := by
  by_cases hphase : m.phase = .running
  · obtain ⟨us, gs, hs⟩ := hr.lists
    cases (hs.run_flush hphase).symm.trans hrun
    refine ⟨rfl, fun _ => ⟨us, gs, ⟨hs.users, hs.groups, hs.usersJson, hs.groupsJson, hs.read⟩, hr.kept hl hs⟩, fun h => absurd hphase h⟩
  · have hrun := Act.got hrun
    rw [if_neg hphase] at hrun
    cases hrun
    exact ⟨rfl, fun h => absurd h hphase, fun _ => rfl⟩

/-- A log entry that is made afterwards makes no difference, -/
theorem Saved.logged (h : m.Saved s') {log : Log} : m.Saved { s' with log } := by
  refine ⟨?_, fun hphase => ?_, h.down⟩
  · rw [h.same]
  · have hwritten : Written { s' with phase := s'.phase, log, now := s'.now } := (h.up hphase).beside
    exact hwritten

/-- nor does one that is made before. -/
theorem Saved.of_logged {log : Log} (h : Saved { m with log } s') : m.Saved s' := by
  refine ⟨?_, h.up, h.down⟩
  rw [h.same]

/-- A state that the records can hold is still one when it has been written out. -/
theorem Saved.regular (h : m.Saved s') (hr : m.Regular) : s'.Regular := by
  rw [h.same]
  exact ⟨⟨hr.marked, hr.accounts, hr.user, hr.clipboard, hr.core, hr.apps, hr.failures, hr.diagnostic, hr.clock⟩, hr.indexed⟩

/-- Writing a state out and making a log entry. -/
theorem Regular.saved_log (hr : m.Regular) (hl : m.tree.Linked) {level : Level} {source message : String} {user : Json}
    (hrun : (Act.flush >>= fun _ => Act.log level source message user).run m = (r, s')) : r = .ok ⟨⟩ ∧ m.Saved s' := by
  obtain ⟨m', hflush⟩ := hr.run_flush
  rw [run_bind, hflush] at hrun
  cases hrun
  exact ⟨rfl, (hr.saved hl hflush).logged⟩

/-! ## Sessions -/

theorem run_setSessionUser (hl : s.tree.Linked) (hr : s.Regular) (name? : Option String) :
    ∃ s', (setSessionUser name?).run s = (.ok ⟨⟩, s') ∧ Saved { s with currentUser := Json.text? name? } s' := by
  have hset : Regular { s with currentUser := Json.text? name? } := hr.tidyWith.withUser.regular
  obtain ⟨s', hflush⟩ := hset.run_flush
  exact ⟨s', Act.next_modify hflush, hset.saved hl hflush⟩

/-- Whoever logs in with the right password gets the session. -/
theorem login_accepted (hl : s.tree.Linked) (hr : s.Regular) {user password : String} (hverify : s.accounts.verify user password = true) :
    ∃ s', (Operation.login user password).run.run s = (.ok ⟨⟩, s') ∧ Saved { s with currentUser := .str user } s' := by
  obtain ⟨s₁, hset, hsaved⟩ := run_setSessionUser hl hr (some user)
  have hrun : (login user password).run s = (.ok true, s₁.logged .info "auth" s!"{user} logged in" user) := by
    unfold login
    rw [run_bind, run_get]
    dsimp only
    rw [if_pos hverify]
    exact Act.next hset (Act.next run_log rfl)
  refine ⟨s₁.logged .info "auth" s!"{user} logged in" user, ?_, hsaved.logged⟩
  show (discard (login user password)).run s = _
  rw [run_discard, hrun]

/-- With a wrong password there is a log entry only. -/
theorem login_cases (hl : s.tree.Linked) (hr : s.Regular) {user password : String}
    (hrun : (Operation.login user password).run.run s = (r, s')) : s' = { s with log := s'.log } ∨
      s.accounts.users.has user = true ∧ Saved { s with currentUser := .str user } s' := by
  by_cases hverify : s.accounts.verify user password = true
  · obtain ⟨u, hu, -⟩ := (Option.any_eq_true ..).1 hverify
    obtain ⟨s₁, hlogin, hsaved⟩ := login_accepted hl hr hverify
    cases hlogin.symm.trans hrun
    exact .inr ⟨Keyed.has_iff.2 ⟨u, hu⟩, hsaved⟩
  · obtain ⟨x, hrun⟩ := of_run_discard hrun
    have hrun := Act.got hrun
    rw [if_neg hverify] at hrun
    cases hrun
    exact .inl rfl

theorem logout_saved (hl : s.tree.Linked) (hr : s.Regular) (hrun : Operation.logout.run.run s = (r, s')) :
    Saved { s with currentUser := .null } s' := by
  have hrun := Act.got hrun
  obtain ⟨s₁, hset, hsaved⟩ := run_setSessionUser hl hr none
  rw [run_bind, hset] at hrun
  dsimp only at hrun
  split at hrun
  · cases hrun
    exact hsaved
  · cases hrun
    exact hsaved.logged

/-! ## Changes of the tables -/

/-- Bringing everything up to date writes the files, and then the state out. -/
theorem saved_committed (hs : s.Sound) (ht : s.Tidy) {message : String} {actor : Json} (hrun : (committed message actor).run s = (r, s')) :
    r = .ok ⟨⟩ ∧ ∃ s₁, syncFiles.run { s with accounts := s.accounts.reindexed } = (.ok ⟨⟩, s₁) ∧
      s₁ = { s with accounts := s.accounts.reindexed, tree := s₁.tree } ∧ s₁.Saved s' := by
  have hset : Good { s with accounts := s.accounts.reindexed } :=
    ⟨hs.same rfl rfl, ht.withAccounts ht.accounts.reindexed, Accounts.reindexed_reindexed⟩
  obtain ⟨_, s₁, hsync, hgood⟩ := works_syncFiles hset
  have hlog : (Act.log .info "auth" message actor).run s₁ = (.ok ⟨⟩, s₁.logged .info "auth" message actor) := run_log
  have hlogged : Regular (s₁.logged .info "auth" message actor) := (tidy_log hgood.2 hlog).regular
  obtain ⟨s₂, hflush⟩ := hlogged.run_flush
  have hend : (committed message actor).run s = (.ok ⟨⟩, s₂) := Act.next_modify (Act.next hsync (Act.next run_log hflush))
  cases hend.symm.trans hrun
  exact ⟨rfl, s₁, hsync, onlyTree_syncFiles (.refl _) hsync, (hlogged.saved hgood.1.linked hflush).of_logged⟩

/-- A change that is asked for is refused, which adds to the log at most, or is made: the files of the new tables are written,
and then the state is written out. -/
theorem TableCall.request_saved {c : TableCall} {x : Except Fault Bool} (hc : c.Proper) (hs : s.Sound) (hr : s.Regular)
    (hrun : (c.request user?).run s = (x, s')) : s' = { s with log := s'.log } ∧ x ≠ .ok true ∨
      x = .ok true ∧ ∃ accounts t message s₁, c.change s.accounts = .ok (some accounts) ∧
        c.finish.run { s with accounts } = (.ok message, { s with accounts, tree := t }) ∧
          syncFiles.run { s with accounts := accounts.reindexed, tree := t } = (.ok ⟨⟩, s₁) ∧
            s₁ = { s with accounts := accounts.reindexed, tree := s₁.tree } ∧ s₁.Saved s' := by
  rcases c.request_cases hc hs hr.toTidy hrun with hrefused | ⟨accounts, t, message, actor, y, hx, hchange, hfinish, hsound, htidy, hcommit⟩
  · exact .inl hrefused
  · obtain ⟨hy, s₁, hsync, hframe, hsaved⟩ := saved_committed hsound htidy hcommit
    exact .inr ⟨by rw [hx, hy]; rfl, accounts, t, message, s₁, hchange, hfinish, hsync, hframe, hsaved⟩

/-- The operation that asks for a change, likewise. -/
theorem TableCall.operation_saved {c : TableCall} (hc : c.Proper) (hs : s.Sound) (hr : s.Regular)
    (hrun : (c.operation user?).run.run s = (r, s')) : s' = { s with log := s'.log } ∨
      ∃ accounts t, c.change s.accounts = .ok (some accounts) ∧ Saved { s with accounts := accounts.reindexed, tree := t } s' := by
  rw [c.run_operation] at hrun
  obtain ⟨x, hrun⟩ := of_run_discard hrun
  rcases c.request_saved hc hs hr hrun with ⟨hlog, -⟩ | ⟨-, accounts, t, message, s₁, hchange, -, -, hframe, hsaved⟩
  · exact .inl hlog
  · rw [hframe] at hsaved
    exact .inr ⟨accounts, s₁.tree, hchange, hsaved⟩

/-- A change that makes sense is made for an administrator, out of safe mode. -/
theorem TableCall.request_granted {c : TableCall} {accounts : Accounts} (hc : c.Proper) (hs : s.Sound) (hr : s.Regular) (hfree : s.Free)
    (hadmin : s.mayAdminister (s.petitioner user?) = .ok true) (hchange : c.change s.accounts = .ok (some accounts)) :
    ∃ s', (c.request user?).run s = (.ok true, s') := by
  have hset : TidyWith (fun _ => True) { s with accounts } := ⟨hr.toTidy.withAccounts (c.orders hc hr.accounts hchange), trivial⟩
  have hsound : Sound { s with accounts } := hs.same rfl rfl
  obtain ⟨message, t, hfinish, htidy⟩ := c.run_finish hsound hset
  rcases hcommit : (committed message (s.petitioner user?)).run { s with accounts, tree := t } with ⟨x, s'⟩
  obtain ⟨rfl, -⟩ := saved_committed (c.sound_finish hsound hfinish) htidy.1 hcommit
  have hauth : (authorize c.action user?).run s = (.ok (some (s.petitioner user?)), s) := by
    unfold authorize
    rw [run_bind, run_get]
    dsimp only
    rw [if_neg (by rw [show s.safeMode = false from hfree]; exact Bool.false_ne_true)]
    exact Act.next_ask hadmin rfl
  exact ⟨s', Act.next hauth (Act.next_ask hchange (Act.next_modify (Act.next hfinish (Act.next hcommit rfl))))⟩

/-! ## Starts, stops and resets -/

/-- What is done at the end of a start and of a reset. -/
theorem saved_inPhase (hl : m.tree.Linked) {phase : Phase} (hr : Regular { m with phase }) {level : Level} {message : String}
    (hrun : (do
      modify fun s => { s with phase }
      Act.flush
      Act.log level "system" message : Act Unit).run m = (r, s')) : r = .ok ⟨⟩ ∧ Saved { m with phase } s' := by
  rw [run_bind, run_modify] at hrun
  exact hr.saved_log hl hrun

/-- A start ends with a running system that has been written out. Its session is nobody's, or goes on as in the
state that the store has given back, with the same users and groups. -/
theorem boot_cases (hs : s.Sound) (hnow : s.now.Proper) (hphase : s.phase = .shutdown) (hb : Restorable Q s.store)
    (hrun : boot.run s = (r, s')) : r = .ok ⟨⟩ ∧ s'.Regular ∧ s'.phase = .running ∧ s'.Written ∧
      (s'.currentUser = .null ∨ ∃ c, Q c ∧ s'.currentUser = c.currentUser ∧ c.accounts.Same s'.accounts) := by
  have hstart : (s.phase != .shutdown) = false := by rw [hphase]; rfl
  let s₀ : Machine := { s with phase := .booting, bootLog := [] }
  have hs₀ : s₀.Sound := hs.same rfl rfl
  have hrun := Act.got hrun
  simp only [hstart, Bool.false_eq_true, if_false] at hrun
  rw [run_bind, run_set] at hrun
  dsimp only at hrun
  -- laying out a new system
  have hnew : ∀ {s₁ : Machine}, s₁.Sound → s₁.now = s.now → restoreOrNote.run s₀ = (.ok false, s₁) →
      r = .ok ⟨⟩ ∧ s'.Regular ∧ s'.phase = .running ∧ s'.Written ∧ s'.currentUser = .null := fun {s₁} hs₁ hsame hrestore => by
    obtain ⟨s₂, hseed, hgood⟩ := run_seed hs₁ (hsame ▸ hnow)
    have hframe : s₂ = _ := laidOut_seed hseed
    rw [run_bind, hrestore] at hrun
    simp only [Bool.not_false, if_true] at hrun
    rw [run_bind, hseed] at hrun
    have hregular : Regular { s₂ with phase := .running } := hgood.2.inPhase.regular
    obtain ⟨hr, hsaved⟩ := saved_inPhase hgood.1.linked hregular hrun
    refine ⟨hr, hsaved.regular hregular, ?_⟩
    rw [hsaved.same]
    refine ⟨rfl, hsaved.same ▸ hsaved.up rfl, ?_⟩
    rw [hframe]
    rfl
  rcases hb with hnone | ⟨c, us, gs, hl, hc, hlists, hkept, hq⟩
  · obtain ⟨hr, hregular, hphase, hwritten, huser⟩ := hnew hs₀ rfl (restoreOrNote_none hnone)
    exact ⟨hr, hregular, hphase, hwritten, .inl huser⟩
  rcases Kept.resumed (s := s₀) hkept hl hc hlists hnow with ⟨bootLog, hrestore, hregular, hresumes⟩ | ⟨s₁, hrestore, hsame, -⟩
  · have hsound := steady_sound.restoreOrNote restoring_sound hs₀ hrestore
    rw [run_bind, hrestore] at hrun
    simp only [Bool.not_true, Bool.false_eq_true, if_false] at hrun
    have hrunning : Regular { s₀.goingOn c us gs bootLog with phase := .running } := hregular.tidyWith.inPhase.regular
    obtain ⟨hr, hsaved⟩ := saved_inPhase hsound.linked hrunning hrun
    refine ⟨hr, hsaved.regular hrunning, ?_⟩
    rw [hsaved.same]
    exact ⟨rfl, hsaved.same ▸ hsaved.up rfl, .inr ⟨c, hq, hresumes.user, hresumes.accounts.1⟩⟩
  · have hsound := steady_sound.restoreOrNote restoring_sound hs₀ hrestore
    obtain ⟨hr, hregular, hphase, hwritten, huser⟩ := hnew hsound hsame hrestore
    exact ⟨hr, hregular, hphase, hwritten, .inl huser⟩

/-- Only a running system can be stopped. Its state is written out. -/
theorem shutdown_cases (hl : s.tree.Linked) (hr : s.Regular) (hrun : shutdown.run s = (r, s')) :
    s' = s ∨ s.phase = .running ∧ s'.phase = .shutdown ∧ ∃ m, s.Saved m ∧ s' = { m with phase := .shutdown } := by
  have hrun := Act.got hrun
  split at hrun
  · cases hrun
    exact .inl rfl
  · rename_i hphase
    obtain ⟨m, hflush⟩ := hr.run_flush
    rw [run_bind, hflush] at hrun
    cases hrun
    exact .inr ⟨by simpa using hphase, rfl, _, (hr.saved hl hflush).logged, rfl⟩

/-- A reset ends with nobody's session. The new state is written out, or nothing of the system's own is left in the store. -/
theorem reset_saved (hs : s.Sound) (hnow : s.now.Proper) (hrun : reset.run s = (r, s')) :
    ∃ m : Machine, m.phase = s.phase ∧ m.currentUser = .null ∧ m.store = s.store.disowned ∧ m.Saved s' := by
  obtain ⟨s₁, hseed, hgood⟩ := run_seed hs.swept hnow
  have hframe : s₁ = _ := laidOut_seed hseed
  rw [run_reset, run_bind, hseed] at hrun
  have hup : Regular { s₁ with phase := s.phase } := hgood.2.inPhase.regular
  obtain ⟨-, hsaved⟩ := saved_inPhase hgood.1.linked hup hrun
  refine ⟨{ s₁ with phase := s.phase }, rfl, ?_, ?_, hsaved⟩
  · show s₁.currentUser = .null
    rw [hframe]
    rfl
  · show s₁.store = s.store.disowned
    rw [hframe]
    rfl

end SimUnix.Machine
