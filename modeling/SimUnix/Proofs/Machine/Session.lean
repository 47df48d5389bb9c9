/-
Whose session it is. The user of the session stands in the tables, or has been deleted in the session: deleting a
user ends no session, and nothing else takes the user of a session out of the tables. The record of the session
names the user of the last state in which the system was up, and a restart goes on with that user.
-/
import SimUnix.Proofs.Machine.Reseeding
import SimUnix.Proofs.Machine.Uphold
import SimUnix.Proofs.Machine.Written

namespace SimUnix

/-! ## Who stays in the tables -/

namespace Accounts

variable {a b : Accounts} {name : String}

/-- There is a user of a name. -/
def Knows (a : Accounts) (name : String) : Prop := a.users.has name = true

theorem Same.knows (h : a.Same b) : a.Knows name ↔ b.Knows name := by
  have hrel := h.user name
  unfold user? at hrel
  unfold Knows Keyed.has
  generalize a.users.get? name = x at hrel ⊢
  generalize b.users.get? name = y at hrel ⊢
  cases hrel <;> exact Iff.rfl

theorem knows_reindexed : a.reindexed.Knows name ↔ a.Knows name := by
  unfold Knows reindexed
  rw [Keyed.has_mapValues]

theorem users_updateGroup {group : Json} {f : Group → Group} (h : a.updateGroup group f = .ok b) : b.users = a.users := by
  unfold updateGroup at h
  split at h
  · cases h
    rfl
  · cases h

end Accounts

namespace Machine

open Act

/-- Every change but its deletion leaves a user in the tables. -/
theorem TableCall.knows {c : TableCall} {a a' : Accounts} {name : String} (ha : a.InOrder) (h : c.change a = .ok (some a'))
    (hk : a.Knows name) : a'.Knows name ∨ c = .deleteUser name := by
  unfold Accounts.Knows at hk ⊢
  cases c with
  | addUser new =>
    obtain ⟨-, -, -, uid, -, hinsert⟩ := change_addUser h
    rw [Accounts.users_updateGroup hinsert, Keyed.has_put, hk, Bool.or_true]
    exact .inl rfl
  | updateUser user d =>
    have hupdated : (a.users.update user d.apply).has name = true := Keyed.has_update.trans hk
    obtain ⟨-, rfl | ⟨admin, hup⟩⟩ := change_updateUser h
    · exact .inl hupdated
    · rw [Accounts.users_updateGroup hup]
      exact .inl hupdated
  | deleteUser user =>
    obtain ⟨-, u, hu, rfl⟩ := change_deleteUser h
    by_cases hne : name = user
    · exact .inr (hne ▸ rfl)
    · have hname : u.name = .str user := (ha.filedUsers.get? hu).1
      show (a.users.drop u.name).has name = true ∨ _
      rw [Keyed.has_drop ha.users, hk, hname]
      simp [hne]
  | addGroup group members =>
    obtain ⟨-, -, gid, -, rfl⟩ := change_addGroup h
    exact .inl hk
  | addToGroup user group =>
    obtain ⟨-, rfl⟩ := change_addToGroup h
    exact .inl hk
  | removeFromGroup user group =>
    obtain ⟨-, rfl⟩ := change_removeFromGroup h
    exact .inl hk
  | deleteGroup group =>
    obtain ⟨-, -, rfl⟩ := change_deleteGroup h
    exact .inl hk

variable {allowed : Machine → Operation → Prop} {P P' : Machine → Prop} {s s₁ s' : Machine} {name : String} {r : Except Fault Unit}

/-! ## Later states -/

/-- A step of a run: an operation that is allowed, or a new system on the same store that is started. -/
inductive Turn (allowed : Machine → Operation → Prop) (s s' : Machine) : Prop
  | perform {op : Operation} {r : Except Fault Unit} (may : allowed s op) (run : op.run.run s = (r, s'))
  | restart {r : Except Fault Unit} (run : boot.run s.anew = (r, s'))

theorem Runs.turn (h : Runs allowed s) : Turn allowed s s' → Runs allowed s'
  | .perform may run => h.next may run
  | .restart run => h.restart run

/-- What comes later in a run than a state, with a property in every state after that one. -/
def Later (allowed : Machine → Operation → Prop) (P : Machine → Prop) : Machine → Machine → Prop :=
  Relation.ReflTransGen fun s s' => Turn allowed s s' ∧ P s'

theorem Later.mono (hP : ∀ m, P m → P' m) (h : Later allowed P s s') : Later allowed P' s s' :=
  Relation.ReflTransGen.mono (fun _ _ h => ⟨h.1, hP _ h.2⟩) _ _ h

/-- What has been down ever since a state is not up, unless it is that state. -/
theorem Later.eq_of_running (h : Later allowed (·.phase ≠ .running) s s') (hup : s'.phase = .running) : s' = s := by
  rcases h.cases_tail with rfl | ⟨_, -, -, hdown⟩
  · rfl
  · exact absurd hup hdown

/-! ## The user of the session -/

/-- If the system is up, the session is that of a user who is not in the tables. -/
def Orphaned (name : String) (s : Machine) : Prop := s.phase = .running → s.currentUser = .str name ∧ ¬ s.accounts.Knows name

/-- A user has been deleted in a session of its own that has not ended since, nor has the user come back: it is still
that user's session whenever the system is up. -/
def Departed (allowed : Machine → Operation → Prop) (name : String) (s : Machine) : Prop :=
  ∃ s₀ s₁ user? r, Runs allowed s₀ ∧ s₀.currentUser = .str name ∧ s₀.accounts.Knows name ∧
    allowed s₀ (.deleteUser name user?) ∧ (Operation.deleteUser name user?).run.run s₀ = (r, s₁) ∧
      s₁.currentUser = .str name ∧ ¬ s₁.accounts.Knows name ∧ Later allowed (Orphaned name) s₁ s

/-- The session is nobody's, or that of a user in the tables, or of one who has been deleted in it. -/
def Accounted (allowed : Machine → Operation → Prop) (s : Machine) : Prop :=
  s.currentUser = .null ∨ ∃ name, s.currentUser = .str name ∧ (s.accounts.Knows name ∨ Departed allowed name s)

/-- The session goes on where it was when the system was last up, by a step that takes its user out of the tables only
by deleting it. -/
theorem Accounted.turn (h : Accounted allowed s₁) (hdown : Later allowed (·.phase ≠ .running) s₁ s) (hturn : Turn allowed s s')
    (huser : s'.currentUser = s₁.currentUser) (hknows : ∀ name, s₁.currentUser = .str name → s₁.accounts.Knows name →
      s'.accounts.Knows name ∨ Departed allowed name s') : Accounted allowed s' := by
  rcases h with hnobody | ⟨name, hname, hk | ⟨s₀, s₂, user?, r, hruns, hown, hknown, hmay, hrun, hstay, hgone, hlater⟩⟩
  · exact .inl (huser.trans hnobody)
  · exact .inr ⟨name, huser.trans hname, hknows name hname hk⟩
  · refine .inr ⟨name, huser.trans hname, ?_⟩
    by_cases hback : s'.accounts.Knows name
    · exact .inl hback
    · have horphaned : Orphaned name s' := fun _ => ⟨huser.trans hname, hback⟩
      have hasleep : Later allowed (Orphaned name) s₁ s := hdown.mono fun m hm hup => absurd hup hm
      exact .inr ⟨s₀, s₂, user?, r, hruns, hown, hknown, hmay, hrun, hstay, hgone, (hlater.trans hasleep).tail ⟨hturn, horphaned⟩⟩

/-! ## What the store keeps -/

/-- The store keeps the last state in which the system was up, or neither a tree nor a session. -/
def Stored (allowed : Machine → Operation → Prop) (s : Machine) : Prop :=
  s.phase ≠ .running ∧ s.store.get Store.treeKey = .ok none ∧ s.store.get Store.sessionKey = .ok none ∨
    ∃ c us gs, Copy (fun c => Runs allowed c ∧ c.phase = .running ∧ Accounted allowed c ∧ Later allowed (·.phase ≠ .running) c s)
      s.store c us gs

variable {Q : Machine → Prop}

/-- A system that is up and has been written out. -/
theorem stored_running (hruns : Runs allowed s) (h : s.Upheld Q) (hup : s.phase = .running) (hw : s.Written)
    (ha : Accounted allowed s) : Stored allowed s := by
  obtain ⟨us, gs, hs, hk⟩ := hw
  exact .inr ⟨s, us, gs, h.sound.linked, h.regular, h.free, ⟨hruns, hup, ha, .refl⟩, hs, hk⟩

theorem Stored.written (h : Stored allowed s) (hup : s.phase = .running) : s.Written := by
  rcases h with ⟨hdown, -⟩ | ⟨c, us, gs, hc⟩
  · exact absurd hup hdown
  · obtain rfl := hc.holds.2.2.2.eq_of_running hup
    exact ⟨us, gs, hc.lists, hc.kept⟩

/-- While the system is down, the store stays as it is. -/
theorem Stored.asleep (h : Stored allowed s) (hturn : Turn allowed s s') (hdown : s'.phase ≠ .running) (hstore : s'.store = s.store) :
    Stored allowed s' := by
  rcases h with ⟨-, hnone⟩ | ⟨c, us, gs, hc⟩
  · exact .inl ⟨hdown, hstore ▸ hnone⟩
  · obtain ⟨hruns, hup, ha, hlater⟩ := hc.holds
    exact .inr ⟨c, us, gs, hc.linked, hc.regular, hc.free, ⟨hruns, hup, ha, hlater.tail ⟨hturn, hdown⟩⟩, hc.lists, hstore ▸ hc.kept⟩

/-- A step that writes out what it has done where the system is up, and leaves the store alone where it is down. -/
theorem Stored.turn (h : Stored allowed s) (hruns : Runs allowed s') (hup : s'.Upheld Q) (hturn : Turn allowed s s')
    (hphase : s'.phase = s.phase) (hrunning : s.phase = .running → s.Written → s'.Written)
    (hdown : s.phase ≠ .running → s'.store = s.store) (ha : Accounted allowed s') : Stored allowed s' := by
  by_cases hp : s.phase = .running
  · exact stored_running hruns hup (hphase.trans hp) (hrunning hp (h.written hp)) ha
  · exact h.asleep hturn (hphase ▸ hp) (hdown hp)

/-! ## Runs -/

/-- Logging in and out, what may be asked of users and groups, and the ways in which a system ends and begins. -/
def Personal (_ : Machine) : Operation → Prop
  | .login _ _ | .logout => True
  | op => op.Administrative

/-- What lasts, and is kept by every change of the tables, holds in all these runs. -/
theorem Runs.personal {Q : Machine → Prop} (hQ : Lasting Q)
    (htable : ∀ {c : TableCall} {user? : Option Json}, c.Proper → Keeps (Upheld Q) (c.operation user?).run) (h : Runs Personal s) :
    s.Upheld Q := by
  refine h.upheld hQ fun {s s' op r} hup hop hrun => ?_
  have hkeeps : Keeps (Upheld Q) op.run := by
    cases op
    case login user password => exact keeps_discard (upheld_login hQ)
    case logout => exact upheld_logout hQ
    all_goals exact Operation.Administrative.upheld hop hQ htable
  exact hkeeps hup hrun

theorem Runs.numbered (h : Runs Personal s) : s.Upheld fun s => s.accounts.Numbered := h.personal lasting_numbered numbered_table

/-- A state of a run whose session is accounted for, and that its store keeps. -/
structure Attended (s : Machine) : Prop where
  runs : Runs Personal s
  accounted : Accounted Personal s
  stored : Stored Personal s

/-- A step that leaves the session to its user, or gives it to another one who stands in the tables, or to nobody. -/
theorem Attended.saved (h : s.Attended) (hturn : Turn Personal s s') {m : Machine} (hsaved : m.Saved s') (hphase : m.phase = s.phase)
    (hstore : m.store = s.store) (ha : Accounted Personal s') : s'.Attended := by
  have hruns := h.runs.turn hturn
  refine ⟨hruns, ha, h.stored.turn hruns hruns.numbered hturn ?_ (fun hp _ => hsaved.up (hphase.trans hp)) (fun hp => ?_) ha⟩
  · rw [hsaved.same]
    exact hphase
  · exact (hsaved.down (hphase ▸ hp)).trans hstore

/-- A step that does nothing, or adds to the log, or lets time go by. -/
theorem Attended.beside (h : s.Attended) {log : Log} {now : Time.Stamp} (hturn : Turn Personal s { s with log, now }) :
    Attended { s with log, now } := by
  have hruns := h.runs.turn hturn
  have ha : Accounted Personal { s with log, now } := h.accounted.turn .refl hturn rfl fun _ _ hk => .inl hk
  have hwritten (hw : s.Written) : Written { s with phase := s.phase, log, now } := hw.beside
  exact ⟨hruns, ha, h.stored.turn hruns hruns.numbered hturn rfl (fun _ hw => hwritten hw) (fun _ => rfl) ha⟩

/-- A change of the tables takes the user of the session out of them only by deleting it. -/
theorem Attended.table {c : TableCall} {user? : Option Json} (h : s.Attended) (hc : c.Proper) (hmay : Personal s (c.operation user?))
    (hrun : (c.operation user?).run.run s = (r, s')) : s'.Attended := by
  have hup := h.runs.numbered
  have hturn : Turn Personal s s' := .perform hmay hrun
  rcases c.operation_saved hc hup.sound hup.regular hrun with hlog | ⟨accounts, t, hchange, hsaved⟩
  · rw [hlog] at hturn ⊢
    exact h.beside hturn
  · have haccounts : s'.accounts = accounts.reindexed := by rw [hsaved.same]
    have huser : s'.currentUser = s.currentUser := by rw [hsaved.same]
    refine h.saved hturn hsaved rfl rfl (h.accounted.turn .refl hturn huser fun name hname hk => ?_)
    by_cases hstill : s'.accounts.Knows name
    · exact .inl hstill
    · rcases c.knows hup.regular.accounts hchange hk with hknows | rfl
      · exact absurd (haccounts ▸ Accounts.knows_reindexed.2 hknows) hstill
      · exact .inr ⟨s, s', user?, r, h.runs, hname, hk, hmay, hrun, huser.trans hname, hstill, .refl⟩

/-- A system that starts on the store of a run goes on with the session of the state that it restores. -/
theorem Attended.start (h : s.Attended) (hturn : Turn Personal s s') {m : Machine} (hs : m.Sound) (hnow : m.now.Proper)
    (hphase : m.phase = .shutdown) (hstore : m.store = s.store) (hrun : boot.run m = (r, s')) : s'.Attended := by
  have hb : Backed (fun c => Runs Personal c ∧ c.phase = .running ∧ Accounted Personal c ∧ Later Personal (·.phase ≠ .running) c s)
      m.store := by
    rw [hstore]
    exact h.stored.imp (fun hnone => hnone.2.1) id
  have hruns := h.runs.turn hturn
  obtain ⟨-, -, hup, hwritten, huser⟩ := boot_cases hs hnow hphase hb.restorable hrun
  have ha : Accounted Personal s' := by
    rcases huser with hnobody | ⟨c, ⟨-, -, hc, hdown⟩, huser, hsame⟩
    · exact .inl hnobody
    · exact hc.turn hdown hturn huser fun _ _ hk => .inl (hsame.knows.1 hk)
  exact ⟨hruns, ha, stored_running hruns hruns.numbered hup hwritten ha⟩

/-- A system that is stopped leaves the store with the state that it was in. -/
theorem Attended.stop (h : s.Attended) (hturn : Turn Personal s s') (hrun : shutdown.run s = (r, s')) : s'.Attended := by
  have hup := h.runs.numbered
  rcases shutdown_cases hup.sound.linked hup.regular hrun with hsame | ⟨hp, hdown, m, hsaved, hm⟩
  · exact hsame ▸ h
  · have hsession : s'.currentUser = s.currentUser ∧ s'.accounts = s.accounts ∧ s'.store = m.store := by
      rw [hm, hsaved.same]
      exact ⟨rfl, rfl, rfl⟩
    obtain ⟨us, gs, hs, hk⟩ := hsaved.up hp
    have hkept : s.Lists us gs ∧ Kept s'.store s us gs := by
      rw [hsession.2.2]
      rw [hsaved.same] at hs hk ⊢
      exact ⟨⟨hs.users, hs.groups, hs.usersJson, hs.groupsJson, hs.read⟩, hk⟩
    refine ⟨h.runs.turn hturn, h.accounted.turn .refl hturn hsession.1 fun _ _ hk => .inl (hsession.2.1 ▸ hk), ?_⟩
    have hlater : Later Personal (·.phase ≠ .running) s s' := .single ⟨hturn, fun hrunning => by cases hdown.symm.trans hrunning⟩
    exact .inr ⟨s, us, gs, hup.sound.linked, hup.regular, hup.free, ⟨h.runs, hp, h.accounted, hlater⟩, hkept.1, hkept.2⟩

theorem sessionKey_plain : Store.IsOwn Store.sessionKey ∧ Store.safeKey Store.sessionKey = Store.sessionKey ∧
    (Store.fileName Store.sessionKey).length ≤ Store.maxNameLength := by
  unfold Store.IsOwn
  decide +kernel

/-- A reset ends the session, and leaves no record of it. -/
theorem Attended.reset (h : s.Attended) (hturn : Turn Personal s s') (hrun : reset.run s = (r, s')) : s'.Attended := by
  have hup := h.runs.numbered
  obtain ⟨m, hphase, hnobody, hstore, hsaved⟩ := reset_saved hup.sound hup.regular.clock hrun
  have hruns := h.runs.turn hturn
  have ha : Accounted Personal s' := .inl (by rw [hsaved.same]; exact hnobody)
  have hphase' : s'.phase = s.phase := by rw [hsaved.same]; exact hphase
  refine ⟨hruns, ha, ?_⟩
  by_cases hp : s.phase = .running
  · exact stored_running hruns hruns.numbered (hphase'.trans hp) (hsaved.up (hphase.trans hp)) ha
  · have hunique := hup.sound.restores.unique
    obtain ⟨hown, hplain, hshort⟩ := sessionKey_plain
    rw [Stored, (hsaved.down (hphase ▸ hp)).trans hstore]
    exact .inl ⟨hphase' ▸ hp, Store.get_disowned_tree hunique, Store.get_disowned_own hunique hown hplain hshort⟩

/-- The session is accounted for in every state of a run. -/
theorem Runs.attended (h : Runs Personal s) : s.Attended := by
  induction h with
  | @first store hostname log ids now s r empty clock run =>
    have hruns : Runs Personal s := .first empty clock run
    obtain ⟨-, -, hup, hwritten, hnobody | ⟨_, hno, -⟩⟩ :=
      boot_cases (Q := fun _ => False) (sound_create empty.restores) clock rfl (.inl empty.get_tree) run
    · exact ⟨hruns, .inl hnobody, stored_running hruns hruns.numbered hup hwritten (.inl hnobody)⟩
    · exact hno.elim
  | @next s s' op r before may run ih =>
    have hup := before.numbered
    have hturn : Turn Personal s s' := .perform may run
    cases op
    case login user password =>
      rcases login_cases hup.sound.linked hup.regular run with hlog | ⟨hknown, hsaved⟩
      · rw [hlog] at hturn ⊢
        exact ih.beside hturn
      · refine ih.saved hturn hsaved rfl rfl (.inr ⟨user, ?_, .inl ?_⟩)
        · rw [hsaved.same]
        · rw [hsaved.same]
          exact hknown
    case logout =>
      have hsaved := logout_saved hup.sound.linked hup.regular run
      exact ih.saved hturn hsaved rfl rfl (.inl (by rw [hsaved.same]))
    case addUser new _ => exact ih.table (c := .addUser new) may may run
    case updateUser name c _ => exact ih.table (c := .updateUser name c) trivial may run
    case deleteUser name _ => exact ih.table (c := .deleteUser name) trivial may run
    case addGroup name members _ => exact ih.table (c := .addGroup name members) trivial may run
    case addToGroup user group _ => exact ih.table (c := .addToGroup user group) trivial may run
    case removeFromGroup user group _ => exact ih.table (c := .removeFromGroup user group) trivial may run
    case deleteGroup name _ => exact ih.table (c := .deleteGroup name) trivial may run
    case boot =>
      by_cases hphase : s.phase = .shutdown
      · exact ih.start hturn hup.sound hup.regular.clock hphase rfl run
      · have hrun := Act.got run
        rw [if_pos (by simpa using hphase)] at hrun
        cases hrun
        exact ih
    case shutdown => exact ih.stop hturn run
    case reset => exact ih.reset hturn run
    case clock now =>
      cases run
      exact ih.beside hturn
    all_goals exact may.elim
  | restart before run ih =>
    have hup := before.numbered
    exact ih.start (.restart run) hup.sound.anew hup.regular.clock rfl rfl run

/-- The record of the session is that of a user. -/
def RecordsUser (s : Machine) (user : Json) : Prop :=
  ∃ record, s.store.get Store.sessionKey = .ok (some record) ∧ record.fieldOr "user" .null = .ok user

theorem Kept.recordsUser {c : Machine} {us : List User} {gs : List Group} (hr : c.Regular) (hk : Kept s.store c us gs) :
    s.RecordsUser c.currentUser := by
  have hrecord := (hk (Store.sessionKey, c.sessionJson) (by simp [ownRecords])).resolve_right fun hno =>
    absurd (show Store.sessionKey ∈ tableKeys from hno.1) (by decide)
  refine ⟨c.sessionJson, ?_, rfl⟩
  rw [hrecord, hr.echo_session s.store.echoes_echo]

/-! ## A session that is left behind -/

/-- Root administers a system whose tables are in order. -/
theorem mayAdminister_root (h : s.accounts.InOrder) : s.mayAdminister (s.petitioner (some (.str rootName))) = .ok true := by
  obtain ⟨u, hu⟩ := Keyed.has_iff.1 h.root
  have hname : u.name = .str rootName := (h.filedUsers.get? hu).1
  have hpet : s.petitioner (some (.str rootName)) = .str rootName := rfl
  have hfind : s.accounts.find (.str rootName) = .ok (some u) := congrArg Except.ok hu
  unfold mayAdminister
  rw [hpet, hfind, if_neg (by decide)]
  simp [bind, Except.bind, User.isAdmin, User.isRoot, hname]

/-- Root can delete everybody else, and no session ends with that. -/
theorem run_deleteUser (hs : s.Sound) (hr : s.Regular) (hfree : s.Free) (hroot : name ≠ rootName) (hk : s.accounts.Knows name) :
    ∃ a t s', (Operation.deleteUser name (some (.str rootName))).run.run s = (.ok ⟨⟩, s') ∧ ¬ a.Knows name ∧
      Saved { s with accounts := a, tree := t } s' := by
  obtain ⟨u, hu⟩ := Keyed.has_iff.1 hk
  have hname : u.name = .str name := (hr.accounts.filedUsers.get? hu).1
  have hchange : (TableCall.deleteUser name).change s.accounts = .ok (some (s.accounts.eraseUser u)) := by
    show Except.ok (if name = rootName then none else (s.accounts.user? name).map s.accounts.eraseUser) = _
    rw [if_neg hroot, show s.accounts.user? name = some u from hu]
    rfl
  obtain ⟨s', hrequest⟩ := TableCall.request_granted (c := .deleteUser name) trivial hs hr hfree (mayAdminister_root hr.accounts) hchange
  have hrun : (Operation.deleteUser name (some (.str rootName))).run.run s = (.ok ⟨⟩, s') := by
    show (discard ((TableCall.deleteUser name).request (some (.str rootName)))).run s = _
    rw [run_discard, hrequest]
  rcases TableCall.request_saved (c := .deleteUser name) trivial hs hr hrequest with ⟨-, hno⟩ | ⟨-, accounts, t, message, s₁, hmade, -, -, hframe, hsaved⟩
  · exact absurd rfl hno
  cases hchange.symm.trans hmade
  rw [hframe] at hsaved
  refine ⟨_, _, s', hrun, fun hstill => ?_, hsaved⟩
  have hstill := Accounts.knows_reindexed.1 hstill
  unfold Accounts.Knows Accounts.eraseUser at hstill
  rw [hname, Keyed.has_drop hr.accounts.users] at hstill
  simp at hstill

theorem Operation.after_eq {op : Operation} (h : op.run.run s = (r, s')) : op.after s = s' := congrArg Prod.snd h

/-- Whoever logs in and is deleted leaves a session behind: it goes on, and so does its record, for a user who does not exist. -/
theorem session_deleted (hruns : Runs Personal s) (hrunning : s.phase = .running) {password : String} (hroot : name ≠ rootName)
    (hverify : s.accounts.verify name password = true) :
    ∃ s', (Operation.deleteUser name (some (.str rootName))).after ((Operation.login name password).after s) = s' ∧
      Runs Personal s' ∧ s'.phase = .running ∧ s'.currentUser = .str name ∧ ¬ s'.accounts.Knows name ∧ s'.RecordsUser (.str name) := by
  have hup := hruns.numbered
  obtain ⟨s₁, hlogin, hsaved₁⟩ := login_accepted hup.sound.linked hup.regular hverify
  have hruns₁ : Runs Personal s₁ := hruns.next (show Personal s (.login name password) from trivial) hlogin
  have hup₁ := hruns₁.numbered
  have hbefore : s₁.phase = .running ∧ s₁.currentUser = .str name ∧ s₁.accounts = s.accounts := by
    rw [hsaved₁.same]
    exact ⟨hrunning, rfl, rfl⟩
  obtain ⟨u, hu, -⟩ := (Option.any_eq_true ..).1 hverify
  have hknown : s₁.accounts.Knows name := hbefore.2.2 ▸ Keyed.has_iff.2 ⟨u, hu⟩
  obtain ⟨a, t, s₂, hdelete, hgone, hsaved₂⟩ := run_deleteUser hup₁.sound hup₁.regular hup₁.free hroot hknown
  have hmay : Personal s₁ (.deleteUser name (some (.str rootName))) := trivial
  have hruns₂ : Runs Personal s₂ := hruns₁.next hmay hdelete
  have hafter : s₂.phase = .running ∧ s₂.currentUser = .str name ∧ s₂.accounts = a := by
    rw [hsaved₂.same]
    exact ⟨hbefore.1, hbefore.2.1, rfl⟩
  obtain ⟨us, gs, -, hk⟩ := hsaved₂.up hbefore.1
  refine ⟨s₂, ?_, hruns₂, hafter.1, hafter.2.1, hafter.2.2 ▸ hgone, hafter.2.1 ▸ hk.recordsUser hruns₂.numbered.regular⟩
  rw [Operation.after_eq hlogin, Operation.after_eq hdelete]

theorem First.user {a : Accounts} (h : First a) : ∃ groups, a.user? firstUser.name = some { firstUser with groups } := by
  obtain ⟨b, c, -, hinsert, hupdate, rfl⟩ := h
  exact Accounts.user?_reindexed ((Accounts.user?_updateGroup hupdate).trans (Accounts.user?_insertUser hinsert))

/-- The first user's password is known. -/
theorem First.verify {a : Accounts} (h : First a) : a.verify factoryUser factoryUserPassword = true := by
  obtain ⟨groups, hfirst⟩ := h.user
  unfold Accounts.verify
  rw [show a.user? factoryUser = _ from hfirst]
  simp [User.accepts, firstUser]

/-- A system that has been started for the first time is what has been laid out, but that it runs, its log and its records. -/
theorem boot_seeded {store : Store} {hostname : String} {log : Log} {ids : IdSupply} {now : Time.Stamp} (empty : store.Empty)
    (clock : now.Proper) : ∃ s₀ s₁ log₁ store₁, s₀.Sound ∧ seed.run s₀ = (.ok ⟨⟩, s₁) ∧
      Operation.boot.after (create store hostname log ids now) = { s₁ with phase := .running, log := log₁, store := store₁ } := by
  have hcreate : (create store hostname log ids now).Sound := sound_create empty.restores
  have hs : Sound { create store hostname log ids now with phase := .booting, bootLog := [] } := hcreate.same rfl rfl
  obtain ⟨s₁, hseed, hgood⟩ := run_seed hs clock
  obtain ⟨us, gs, log₁, -, hfinish⟩ := hgood.run_finish .info "System boot complete"
  have hboot : Operation.boot.run.run (create store hostname log ids now) = _ := (run_boot_first empty).trans (Act.next hseed hfinish)
  exact ⟨_, s₁, log₁, _, hs, hseed, Operation.after_eq hboot⟩

theorem first_boot {store : Store} {hostname : String} {log : Log} {ids : IdSupply} {now : Time.Stamp} (empty : store.Empty)
    (clock : now.Proper) : First (Operation.boot.after (create store hostname log ids now)).accounts := by
  obtain ⟨s₀, s₁, log₁, store₁, -, hseed, hboot⟩ := boot_seeded empty clock
  have hfirst : First s₁.accounts := first_seed hseed
  rw [hboot]
  exact hfirst

/-- The first user of a new system, logged in and deleted by root. -/
def leftBehind : Machine := (Operation.deleteUser factoryUser (some (.str rootName))).after
  ((Operation.login factoryUser factoryUserPassword).after fresh)

theorem runs_leftBehind : Runs Personal leftBehind :=
  have hlogin : Personal fresh (.login factoryUser factoryUserPassword) := trivial
  have hdelete {s : Machine} : Personal s (.deleteUser factoryUser (some (.str rootName))) := trivial
  (Runs.fresh.perform hlogin).perform hdelete

/-- Not every session is that of a user who exists. -/
theorem session_leftBehind : Runs Personal leftBehind ∧ leftBehind.phase = .running ∧ leftBehind.currentUser = .str factoryUser ∧
    ¬ leftBehind.accounts.Knows factoryUser ∧ leftBehind.RecordsUser (.str factoryUser) := by
  have hverify : fresh.accounts.verify factoryUser factoryUserPassword = true :=
    (first_boot Store.empty_memory ⟨rfl, by decide, by decide⟩).verify
  obtain ⟨s', hs', h⟩ := session_deleted Runs.fresh ready_fresh.running (by decide) hverify
  unfold leftBehind
  rw [hs']
  exact h

/-! ## All sessions -/

/-- In every state the session is nobody's, or that of a user in the tables, or of one who has been deleted in it. The
record of the session names the user of the session while the system is up, and while it is down that of the last
state in which it was up; only a reset of a system that is down leaves no such record. -/
theorem Runs.session_accounted (h : Runs Personal s) : Accounted Personal s ∧ (s.phase = .running → s.RecordsUser s.currentUser) ∧
    (s.phase ≠ .running ∧ s.store.get Store.sessionKey = .ok none ∨ ∃ c, Runs Personal c ∧ c.phase = .running ∧
      Later Personal (·.phase ≠ .running) c s ∧ Accounted Personal c ∧ s.RecordsUser c.currentUser) := by
  have hst := h.attended.stored
  refine ⟨h.attended.accounted, fun hup => ?_, ?_⟩
  · obtain ⟨us, gs, -, hk⟩ := hst.written hup
    exact hk.recordsUser h.numbered.regular
  · rcases hst with ⟨hdown, -, hnone⟩ | ⟨c, us, gs, hc⟩
    · exact .inl ⟨hdown, hnone⟩
    · obtain ⟨hruns, hup, ha, hlater⟩ := hc.holds
      exact .inr ⟨c, hruns, hup, hlater, ha, hc.kept.recordsUser hc.regular⟩

/-- The session that has been left behind, after a restart. -/
theorem session_accounted_restarted : Accounted Personal (Operation.boot.after leftBehind.anew) ∧
    ((Operation.boot.after leftBehind.anew).phase = .running →
      (Operation.boot.after leftBehind.anew).RecordsUser (Operation.boot.after leftBehind.anew).currentUser) ∧
    ((Operation.boot.after leftBehind.anew).phase ≠ .running ∧
        (Operation.boot.after leftBehind.anew).store.get Store.sessionKey = .ok none ∨
      ∃ c, Runs Personal c ∧ c.phase = .running ∧ Later Personal (·.phase ≠ .running) c (Operation.boot.after leftBehind.anew) ∧
        Accounted Personal c ∧ (Operation.boot.after leftBehind.anew).RecordsUser c.currentUser) :=
  runs_leftBehind.again.session_accounted

end Machine

end SimUnix
