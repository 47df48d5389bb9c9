/-
Stopping and starting again. A system whose state a record can hold writes all of it when it stops, and a
new system on the same store comes up in the same state; only the order changes in which users, groups and
members are listed, and the next fresh id.
-/
import SimUnix.Proofs.Machine.Records
import SimUnix.Proofs.Machine.Sound

namespace SimUnix

namespace Json

variable {depth : Nat}

theorem IsText.fits {v : Json} (h : v.IsText) : v.Fits depth := by
  obtain ⟨s, rfl⟩ := h
  cases depth <;> exact trivial

theorem fits_null : Fits depth .null := by cases depth <;> exact trivial

theorem fits_bool {b : Bool} : Fits depth (.bool b) := by cases depth <;> exact trivial

theorem fits_int {v : Json} (h : ∀ n, v = .int n → Short n) (hi : ∃ n, v = .int n) : v.Fits depth := by
  obtain ⟨n, rfl⟩ := hi
  cases depth <;> exact h n rfl

theorem fits_obj {fs : List (String × Json)} (h : ∀ f ∈ fs, f.2.Fits depth) : Fits (depth + 1) (.obj fs) := h

theorem fits_arr {xs : List Json} (h : ∀ x ∈ xs, x.Fits depth) : Fits (depth + 1) (.arr xs) := h

end Json

/-! ## Records that fit -/

section

variable {depth : Nat} {t : Tree}

theorem Tree.Linked.fits (h : t.Linked) (hm : t.Marked) : t.toJson.Fits (depth + 4) := by
  have htext : ∀ {a m}, t.get? a = some m → a.IsText := fun hm => (h.written (bare_some.2 ⟨_, hm, rfl⟩)).id
  obtain ⟨x, hx, -⟩ := h.rooted
  obtain ⟨root, hroot, -⟩ := skeleton_some.1 hx
  have hnode : ∀ p ∈ t.nodes, p.2.toJson.Fits (depth + 2) := by
    intro p hp
    have hget : t.get? p.1 = some p.2 := get?_of_mem h.unique hp
    have hx : t.skeleton p.1 = some p.2.joint := skeleton_some.2 ⟨p.2, hget, rfl⟩
    have hw := h.written (bare_some.2 ⟨p.2, h.get_self hget, rfl⟩)
    have hmark := hm p hp
    have hparent : p.2.parent.Fits (depth + 1) := by
      by_cases hp : p.2.parent = .null
      · rw [hp]
        exact Json.fits_null
      · obtain ⟨y, hy, -⟩ := h.forest.up hx hp
        obtain ⟨m, hm, -⟩ := skeleton_some.1 hy
        exact Json.IsText.fits (htext hm)
    refine Json.fits_obj fun f hf => ?_
    simp only [List.mem_cons, List.not_mem_nil, or_false] at hf
    rcases hf with rfl | rfl | rfl | rfl | rfl | rfl | rfl | rfl | rfl | rfl | rfl
    · exact Json.IsText.fits (htext (h.get_self hget))
    · exact Json.IsText.fits hw.name
    · exact Json.IsText.fits ⟨_, rfl⟩
    · exact hmark.owner.fits
    · exact hmark.group.fits
    · exact hmark.permissions.fits
    · exact Json.IsText.fits hw.content
    · refine Json.fits_arr fun k hk => ?_
      obtain ⟨m, hm⟩ := present_of_above (h.forest.above_of_mem hx hk)
      exact Json.IsText.fits (htext hm)
    · exact hparent
    · exact Json.IsText.fits ⟨_, rfl⟩
    · exact Json.IsText.fits ⟨_, rfl⟩
  refine Json.fits_obj fun f hf => ?_
  simp only [List.mem_cons, List.not_mem_nil, or_false] at hf
  rcases hf with rfl | rfl
  · exact Json.IsText.fits (htext hroot)
  · refine Json.fits_obj fun f hf => ?_
    obtain ⟨p, hp, rfl⟩ := List.mem_map.1 hf
    exact hnode p hp

/-- Numbers of users and groups that reading does not find too long. -/
def Accounts.Legible (a : Accounts) : Prop :=
  (∀ u ∈ a.users.values, (∀ n, u.uid = .int n → Json.Short n) ∧ ∀ n, u.gid = .int n → Json.Short n) ∧
    ∀ x ∈ a.groups.values, ∀ n, x.gid = .int n → Json.Short n

theorem User.Plain.fits {u : User} (h : u.Plain) (hu : ∀ n, u.uid = .int n → Json.Short n)
    (hg : ∀ n, u.gid = .int n → Json.Short n) : u.toJson.Fits (depth + 1) := by
  refine Json.fits_obj fun f hf => ?_
  simp only [List.mem_cons, List.not_mem_nil, or_false] at hf
  rcases hf with rfl | rfl | rfl | rfl | rfl | rfl | rfl | rfl
  · exact h.name.fits
  · exact Json.fits_int hu h.uid
  · exact Json.fits_int hg h.gid
  · exact h.fullName.fits
  · exact h.passwordDigest.fits
  · exact h.passwordHint.fits
  · exact h.home.1.fits
  · exact h.shell.fits

theorem Group.Plain.fits {x : Group} (h : x.Plain) (hg : ∀ n, x.gid = .int n → Json.Short n) :
    x.record.Fits (depth + 2) := by
  refine Json.fits_obj fun f hf => ?_
  simp only [List.mem_cons, List.not_mem_nil, or_false] at hf
  rcases hf with rfl | rfl | rfl
  · exact h.name.fits
  · exact Json.fits_int hg h.gid
  · exact Json.fits_arr fun m hm => (h.stored.members m hm).fits

end

/-! ## The clipboard -/

/-- A clipboard whose record holds all of it. -/
def Clipboard.Plain (c : Clipboard) : Prop := ∀ i ∈ c.items, i.node.IsText ∧ i.user.IsText

variable {g : Json → Json}

theorem Clipboard.Plain.fits {depth : Nat} {c : Clipboard} (h : c.Plain) : c.toJson.Fits (depth + 3) := by
  refine Json.fits_obj fun f hf => ?_
  simp only [List.mem_cons, List.not_mem_nil, or_false] at hf
  rcases hf with rfl | rfl
  · exact Json.IsText.fits ⟨_, rfl⟩
  · refine Json.fits_arr fun x hx => ?_
    obtain ⟨i, hi, rfl⟩ := List.mem_map.1 hx
    refine Json.fits_obj fun f hf => ?_
    simp only [List.mem_cons, List.not_mem_nil, or_false] at hf
    rcases hf with rfl | rfl
    · exact (h i hi).1.fits
    · exact (h i hi).2.fits

/-- A clipboard comes back from its record. -/
theorem Clipboard.Plain.back {c : Clipboard} (h : c.Plain) (hg : Json.Echoes g) : Clipboard.ofJson (g c.toJson) = .ok c := by
  have hitem : ∀ i ∈ c.items, g (itemJson i) = itemJson i := by
    intro i hi
    obtain ⟨⟨a, ha⟩, ⟨b, hb⟩⟩ := h i hi
    have hkeys : ["node_id", "source_user"].Nodup := by decide
    have hobj : g (itemJson i) = .obj ((itemJson i).fields.map fun f => (f.1, g f.2)) := hg.obj (itemJson i).fields hkeys
    rw [hobj]
    simp only [itemJson, Json.fields, List.map_cons, List.map_nil, ha, hb, hg.str]
  have hitems : (c.items.map itemJson).map g = c.items.map itemJson := by
    rw [List.map_map]
    exact List.map_congr_left hitem
  have hread : (c.items.map itemJson).mapM itemOfJson = .ok c.items := by
    obtain ⟨items, kind⟩ := c
    dsimp only
    clear h hitem hitems
    induction items with
    | nil => rfl
    | cons i items ih =>
      rw [List.map_cons, List.mapM_cons, ih]
      rfl
  have hkeys : ["operation", "items"].Nodup := by decide
  have hobj : g c.toJson = .obj (c.toJson.fields.map fun f => (f.1, g f.2)) := hg.obj c.toJson.fields hkeys
  have hkind : PasteKind.ofJson (.str c.kind.name) = .ok c.kind := by cases c.kind <;> rfl
  rw [hobj]
  simp only [toJson, Json.fields, List.map_cons, List.map_nil, hg.str, hg.arr, hitems]
  unfold Clipboard.ofJson
  simp only [Json.truthy, List.isEmpty_cons, Bool.not_false, Bool.not_true, Bool.false_eq_true, if_false, Json.field?,
    List.lookup_cons, String.reduceBEq, bind, Except.bind, Json.items, hread, hkind, pure, Except.pure]

/-! ## The whole state -/

namespace Machine

variable {s : Machine}

/-- A state that the records can hold, but for the groups that the users know. -/
structure Tidy (s : Machine) : Prop where
  marked : s.tree.Marked
  accounts : s.accounts.InOrder
  user : s.currentUser = .null ∨ s.currentUser.IsText
  clipboard : s.clipboard.Plain
  core : ∀ id ∈ coreApps, Json.str id ∈ s.apps
  apps : ∀ a ∈ s.apps, a.IsText
  failures : ∀ f ∈ s.failures, f.IsText
  diagnostic : ∀ d ∈ s.diagnostic, d.IsText
  clock : s.now.Proper

/-- A state that the records can hold. -/
structure Regular (s : Machine) : Prop extends Tidy s where
  indexed : s.accounts.Indexed

/-- The six records of a state that they can hold, with the users and the groups in order. -/
def ownRecords (s : Machine) (us : List User) (gs : List Group) : List (String × Json) :=
  [(Store.treeKey, s.tree.toJson), (Store.usersKey, .arr (us.map User.toJson)), (Store.groupsKey, .arr (gs.map Group.record)),
    (Store.clipboardKey, s.clipboard.toJson), (Store.appsKey, .arr s.apps), (Store.sessionKey, s.sessionJson)]

/-- Users and groups are all there, in some order. -/
structure Lists (s : Machine) (us : List User) (gs : List Group) : Prop where
  users : us.Perm s.accounts.users.values
  groups : gs.Perm s.accounts.groups.values
  usersJson : s.accounts.usersJson = .ok (.arr (us.map User.toJson))
  groupsJson : s.accounts.groupsJson = .ok (.arr (gs.map Group.record))
  read : ∀ {g : Json → Json}, Json.Echoes g →
    Accounts.readUsers (g (.arr (us.map User.toJson))) = .ok (us.map fun u => (u.name, { u with groups := [] })) ∧
    Accounts.readGroups (g (.arr (gs.map Group.record))) = .ok (gs.map fun x => (x.name, x.stored))

theorem Regular.lists (h : s.Regular) : ∃ us gs, s.Lists us gs := by
  obtain ⟨us, gs, records, husers, hgroups, hup, hgp, rfl, hread⟩ := h.accounts.read
  exact ⟨us, gs, hup, hgp, husers, hgroups, hread⟩

/-- The keys of the records that hold numbers. -/
def tableKeys : List String := [Store.usersKey, Store.groupsKey]

/-- Only numbers may be too long for a record. -/
theorem Regular.fits_apart (h : s.Regular) (hl : s.tree.Linked) {us : List User} {gs : List Group} :
    ∀ r ∈ s.ownRecords us gs, r.1 ∉ tableKeys → r.2.Fits Json.maxDepth := by
  intro r hr hkey
  unfold ownRecords at hr
  simp only [List.mem_cons, List.not_mem_nil, or_false] at hr
  rcases hr with rfl | rfl | rfl | rfl | rfl | rfl
  · exact hl.fits h.marked
  · exact absurd (List.mem_cons_self ..) hkey
  · exact absurd (List.mem_cons_of_mem _ (List.mem_cons_self ..)) hkey
  · exact h.clipboard.fits
  · exact Json.fits_arr fun a ha => (h.apps a ha).fits
  · refine Json.fits_obj fun f hf => ?_
    simp only [List.mem_cons, List.not_mem_nil, or_false] at hf
    rcases hf with rfl | rfl | rfl | rfl | rfl
    · rcases h.user with hu | hu
      · show Json.Fits 993 s.currentUser
        rw [hu]
        exact Json.fits_null
      · exact hu.fits
    · exact Json.fits_bool
    · exact Json.fits_arr fun x hx => (h.failures x hx).fits
    · exact Json.fits_arr fun x hx => (h.diagnostic x hx).fits
    · exact Json.fits_bool

/-- The records that hold numbers are those of the users and of the groups. -/
theorem ownRecords_table {us : List User} {gs : List Group} {r : String × Json} (hr : r ∈ s.ownRecords us gs) (hkey : r.1 ∈ tableKeys) :
    r.2 = .arr (us.map User.toJson) ∨ r.2 = .arr (gs.map Group.record) := by
  unfold ownRecords at hr
  simp only [List.mem_cons, List.not_mem_nil, or_false] at hr
  rcases hr with rfl | rfl | rfl | rfl | rfl | rfl
  · exact absurd (show Store.treeKey ∈ tableKeys from hkey) (by decide)
  · exact .inl rfl
  · exact .inr rfl
  · exact absurd (show Store.clipboardKey ∈ tableKeys from hkey) (by decide)
  · exact absurd (show Store.appsKey ∈ tableKeys from hkey) (by decide)
  · exact absurd (show Store.sessionKey ∈ tableKeys from hkey) (by decide)

theorem Regular.fits (h : s.Regular) (hl : s.tree.Linked) (ha : s.accounts.Legible) {us : List User} {gs : List Group}
    (hs : s.Lists us gs) : ∀ r ∈ s.ownRecords us gs, r.2.Fits Json.maxDepth := by
  intro r hr
  by_cases hkey : r.1 ∈ tableKeys
  · rcases ownRecords_table hr hkey with he | he
    · rw [he]
      refine Json.fits_arr fun x hx => ?_
      obtain ⟨u, hu, rfl⟩ := List.mem_map.1 hx
      have hmem := hs.users.mem_iff.1 hu
      obtain ⟨p, hp, rfl⟩ := List.mem_map.1 hmem
      exact (h.accounts.user p hp).2.fits (ha.1 _ hmem).1 (ha.1 _ hmem).2
    · rw [he]
      refine Json.fits_arr fun x hx => ?_
      obtain ⟨y, hy, rfl⟩ := List.mem_map.1 hx
      have hmem := hs.groups.mem_iff.1 hy
      obtain ⟨p, hp, rfl⟩ := List.mem_map.1 hmem
      exact (h.accounts.group p hp).2.fits (ha.2 _ hmem)
  · exact h.fits_apart hl r hr hkey

/-- Flushing writes all six records. -/
theorem Lists.run_flush {us : List User} {gs : List Group} (hs : s.Lists us gs) (hrun : s.phase = .running) :
    Act.flush.run s = (.ok ⟨⟩, { s with store := s.store.setAll (s.ownRecords us gs) }) := by
  have hrecords : s.records = (s.ownRecords us gs).map fun r => (r.1, (.ok r.2 : Except Fault Json)) := by
    unfold records ownRecords
    rw [hs.usersJson, hs.groupsJson]
    rfl
  unfold Act.flush
  simp only [run_bind, run_get]
  rw [if_pos hrun, hrecords]
  exact Act.run_writeAll

/-- A store that gives back the six records of a state. -/
def Held (store : Store) (s : Machine) (us : List User) (gs : List Group) : Prop :=
  ∀ r ∈ s.ownRecords us gs, store.get r.1 = .ok (some (store.echo r.2))

theorem Regular.held (h : s.Regular) (hl : s.tree.Linked) (ha : s.accounts.Legible) {us : List User} {gs : List Group}
    (hs : s.Lists us gs) : Held (s.store.setAll (s.ownRecords us gs)) s us gs := by
  have hkeys : (s.ownRecords us gs).map Prod.fst = Store.ownKeys := rfl
  have hpairs : (s.ownRecords us gs).Pairwise fun a b => Store.Clear a.1 b.1 ∧ Store.Clear b.1 a.1 :=
    List.pairwise_map.1 (hkeys ▸ Store.ownKeys_clear)
  intro r hr
  rw [Store.echo_setAll]
  refine Store.get_setAll hpairs (fun q hq => ⟨Store.ownKeys_short _ ?_, h.fits hl ha hs q hq⟩) r hr
  rw [← hkeys]
  exact List.mem_map_of_mem hq

/-- A state that goes on where another one ended. Users, groups and members may be listed in another
order, and the next fresh id is another one. -/
structure Resumes (s s' : Machine) : Prop where
  phase : s'.phase = .running
  rootId : s'.tree.rootId = s.tree.rootId
  nodes : s'.tree.nodes = s.tree.nodes
  accounts : s.accounts.Same s'.accounts ∧ s'.accounts.InOrder ∧ s'.accounts.Indexed
  clipboard : s'.clipboard = s.clipboard
  apps : s'.apps = s.apps
  user : s'.currentUser = s.currentUser
  safeMode : s'.safeMode = s.safeMode
  failures : s'.failures = s.failures
  diagnostic : s'.diagnostic = s.diagnostic
  developerMode : s'.developerMode = s.developerMode
  clock : s'.now = s.now

/-- A record that is there and not empty. -/
theorem recordOr_ok {m : Machine} {key : String} {default v : Json} (hget : m.store.get key = .ok (some v))
    (hv : v.truthy = true) : recordOr key default m = .ok v := by
  unfold recordOr Store.getFilled
  rw [hget]
  show Except.ok (((some v).filter Json.truthy).getD default) = _
  rw [Option.filter_some_pos hv]
  rfl

/-- The record of the session comes back as it is. -/
theorem Regular.echo_session {g : Json → Json} (h : s.Regular) (hg : Json.Echoes g) : g s.sessionJson = s.sessionJson := by
  have huser : g s.currentUser = s.currentUser := by
    rcases h.user with hu | ⟨name, hu⟩
    · rw [hu, hg.null]
    · rw [hu, hg.str]
  have hkeys : ["user", "safe_mode", "integrity_failures", "integrity_diagnostic", "developer_mode"].Nodup := by decide
  have hobj : g s.sessionJson = .obj (s.sessionJson.fields.map fun f => (f.1, g f.2)) := hg.obj s.sessionJson.fields hkeys
  rw [hobj]
  simp only [sessionJson, Json.fields, List.map_cons, List.map_nil, huser, hg.bool, hg.arr,
    Tree.map_texts hg h.failures, Tree.map_texts hg h.diagnostic]

/-- The session comes back from its record. -/
theorem run_restoreSession {m : Machine} {g : Json → Json} (h : s.Regular) (hg : Json.Echoes g) :
    (restoreSession (g s.sessionJson)).run m = (.ok ⟨⟩, { m with
      currentUser := s.currentUser, safeMode := s.safeMode, failures := s.failures, diagnostic := s.diagnostic
      developerMode := s.developerMode }) := by
  have hname : s.sessionJson.fieldOr "user" .null = .ok s.currentUser := rfl
  have hsafe : flagField "safe_mode" s.sessionJson = .ok s.safeMode := by
    show Except.ok ((some (Json.bool s.safeMode)).any Json.truthy) = _
    rfl
  have hfailures : itemsField "integrity_failures" s.sessionJson = .ok s.failures := rfl
  have hdiagnostic : itemsField "integrity_diagnostic" s.sessionJson = .ok s.diagnostic := rfl
  have hdeveloper : flagField "developer_mode" s.sessionJson = .ok s.developerMode := by
    show Except.ok ((some (Json.bool s.developerMode)).any Json.truthy) = _
    rfl
  rw [h.echo_session hg]
  refine Act.next_given hname (Act.next_modify (Act.next_given hsafe (Act.next_modify ?_)))
  refine Act.next_given hfailures (Act.next_modify (Act.next_given hdiagnostic (Act.next_modify ?_)))
  exact Act.next_given hdeveloper rfl

/-- The tables as they come back. -/
def tablesBack (us : List User) (gs : List Group) : Accounts := Accounts.completed {
  users := us.map fun u => (u.name, { u with groups := [] }), groups := gs.map fun x => (x.name, x.stored) }

variable {us : List User} {gs : List Group}

theorem run_loadAccounts {m : Machine} {g : Json → Json} (hg : Json.Echoes g)
    (hs : s.Lists us gs) : (loadAccounts (g (.arr (us.map User.toJson))) (g (.arr (gs.map Group.record)))).run m =
      (.ok ⟨⟩, { m with accounts := tablesBack us gs }) := by
  obtain ⟨husers, hgroups⟩ := hs.read hg
  exact Act.next_given husers (Act.next_modify (Act.next_given hgroups rfl))

/-- Records of users and groups are never empty: root and the system groups stand in the tables. -/
theorem Lists.records_ne_nil (hs : s.Lists us gs) (h : s.accounts.InOrder) :
    us.map User.toJson ≠ [] ∧ gs.map Group.record ≠ [] := by
  refine ⟨fun he => ?_, fun he => ?_⟩
  · have hnil : us = [] := List.map_eq_nil_iff.1 he
    have hempty : s.accounts.users = [] := List.map_eq_nil_iff.1 ((hnil ▸ hs.users).nil_eq.symm)
    have hroot := h.root
    rw [hempty] at hroot
    cases hroot
  · have hnil : gs = [] := List.map_eq_nil_iff.1 he
    have hempty : s.accounts.groups = [] := List.map_eq_nil_iff.1 ((hnil ▸ hs.groups).nil_eq.symm)
    have hsystem := h.system _ (List.mem_cons_self ..)
    rw [hempty] at hsystem
    cases hsystem

/-- The users that are read back can be listed. -/
theorem Regular.sorted_back (h : s.Regular) (hs : s.Lists us gs) : ∃ sorted, (tablesBack us gs).sortedUsers = .ok sorted := by
  obtain ⟨-, horder, -⟩ := h.accounts.same_completed h.indexed hs.users hs.groups (b := tablesBack us gs) rfl
  obtain ⟨sorted, hsorted, -⟩ := Json.sortedBy_numbers fun u hu => by
    obtain ⟨p, hp, rfl⟩ := List.mem_map.1 hu
    exact (horder.user p hp).2.uid
  exact ⟨sorted, hsorted⟩

theorem truthy_echo_arr {g : Json → Json} (hg : Json.Echoes g) {xs : List Json} (h : xs ≠ []) : (g (.arr xs)).truthy = true := by
  rw [hg.arr]
  cases xs with
  | nil => exact absurd rfl h
  | cons x xs => rfl

theorem truthy_echo_obj {g : Json → Json} (hg : Json.Echoes g) {fs : List (String × Json)} (h : (fs.map Prod.fst).Nodup)
    (hne : fs ≠ []) : (g (.obj fs)).truthy = true := by
  rw [hg.obj fs h]
  cases fs with
  | nil => exact absurd rfl hne
  | cons f fs => rfl

/-- A system that has restored a state from its records. -/
def goingOn (m s : Machine) (us : List User) (gs : List Group) (bootLog : List String) : Machine := { m with
  tree := { s.tree with ids := m.tree.ids }, accounts := tablesBack us gs, clipboard := s.clipboard, apps := s.apps
  currentUser := s.currentUser, safeMode := s.safeMode, failures := s.failures, diagnostic := s.diagnostic
  developerMode := s.developerMode, bootLog }

/-- It goes on where the state ended. -/
theorem Regular.goingOn (h : s.Regular) (hs : s.Lists us gs) {m : Machine} {b : List String} (hnow : m.now = s.now) :
    s.Resumes { m.goingOn s us gs b with phase := .running } ∧ (m.goingOn s us gs b).Regular := by
  obtain ⟨hsame, horder, hindexed⟩ := h.accounts.same_completed h.indexed hs.users hs.groups (b := tablesBack us gs) rfl
  refine ⟨⟨rfl, rfl, rfl, ⟨hsame, horder, hindexed⟩, rfl, rfl, rfl, rfl, rfl, rfl, rfl, hnow⟩, ?_⟩
  exact ⟨⟨h.marked, horder, h.user, h.clipboard, h.core, h.apps, h.failures, h.diagnostic, hnow ▸ h.clock⟩, hindexed⟩

/-- A store that holds the records of a state restores it. -/
theorem run_restore {m : Machine} (h : s.Regular) (hl : s.tree.Linked) (hs : s.Lists us gs) (hheld : Held m.store s us gs) :
    ∃ bootLog, restore.run m = (.ok true, m.goingOn s us gs bootLog) := by
  have hg : Json.Echoes m.store.echo := m.store.echoes_echo
  have hget : ∀ {key v}, (key, v) ∈ s.ownRecords us gs → m.store.get key = .ok (some (m.store.echo v)) :=
    fun {key v} hm => hheld (key, v) hm
  have htree : m.store.get Store.treeKey = .ok (some (m.store.echo s.tree.toJson)) := hget (by simp [ownRecords])
  obtain ⟨fields, hecho, -⟩ := hl.echo hg
  have hof : Tree.ofJson m.tree.ids m.now (m.store.echo s.tree.toJson) = .ok { s.tree with ids := m.tree.ids } :=
    hl.restored_marked h.marked hg
  rw [hecho] at htree hof
  -- an empty record would be taken for one that is not there
  obtain ⟨hus, hgs⟩ := hs.records_ne_nil h.accounts
  have happs : s.apps ≠ [] := List.ne_nil_of_mem (h.core "finder" (by decide))
  have hclip : (m.store.echo s.clipboard.toJson).truthy = true :=
    have hkeys : ["operation", "items"].Nodup := by decide
    truthy_echo_obj hg hkeys (List.cons_ne_nil _ _)
  have hsession : (m.store.echo s.sessionJson).truthy = true :=
    have hkeys : ["user", "safe_mode", "integrity_failures", "integrity_diagnostic", "developer_mode"].Nodup := by decide
    truthy_echo_obj hg hkeys (List.cons_ne_nil _ _)
  have hitems : (m.store.echo (.arr s.apps)).items = .ok s.apps := by
    rw [hg.arr, Tree.map_texts hg h.apps]
    rfl
  obtain ⟨sorted, hsorted⟩ := h.sorted_back hs
  apply Exists.intro
  refine Act.next_ask htree ?_
  refine Act.next_ask hof (Act.next_modify (Act.next_modify ?_))
  refine Act.next_ask (recordOr_ok (hget (by simp [ownRecords])) (truthy_echo_arr hg hus)) ?_
  refine Act.next_ask (recordOr_ok (hget (by simp [ownRecords])) (truthy_echo_arr hg hgs)) (Act.next (run_loadAccounts hg hs) ?_)
  refine Act.next_ask hsorted (Act.next_modify ?_)
  refine Act.next_ask (recordOr_ok (hget (by simp [ownRecords])) hclip) (Act.next_given (h.clipboard.back hg) (Act.next_modify ?_))
  refine Act.next_ask (recordOr_ok (hget (by simp [ownRecords])) (truthy_echo_arr hg happs)) (Act.next_given hitems (Act.next_modify ?_))
  refine Act.next_ask (recordOr_ok (hget (by simp [ownRecords])) hsession) (Act.next (run_restoreSession h hg) ?_)
  exact Act.next_modify rfl

/-- Stopping flushes a state that the records can hold. -/
theorem Regular.run_shutdown (hrun : s.phase = .running) {us : List User} {gs : List Group} (hs : s.Lists us gs) :
    ∃ log, shutdown.run s = (.ok ⟨⟩, { s with
      phase := .shutdown, log, store := s.store.setAll (s.ownRecords us gs) }) := by
  have hphase : (s.phase != .running) = false := by rw [hrun]; rfl
  have hflush := hs.run_flush hrun
  unfold shutdown
  rw [run_bind, run_get]
  simp only [hphase, Bool.false_eq_true, if_false]
  apply Exists.intro
  refine Act.next hflush (Act.next Act.run_log ?_)
  rfl

/-- A new system on a store that holds the records of a state goes on from that state. -/
theorem Regular.run_boot {m : Machine} (h : s.Regular) (hl : s.tree.Linked) {us : List User} {gs : List Group}
    (hs : s.Lists us gs) (hheld : Held m.store s us gs) (hphase : m.phase = .shutdown) (hnow : m.now = s.now) :
    ∃ s', boot.run m = (.ok ⟨⟩, s') ∧ s.Resumes s' ∧ s'.Regular := by
  have hstart : (m.phase != .shutdown) = false := by rw [hphase]; rfl
  obtain ⟨bootLog, hrestore⟩ := run_restore (m := { m with phase := .booting, bootLog := [] }) h hl hs hheld
  obtain ⟨hresumes, hregular⟩ := h.goingOn hs (m := { m with phase := .running, bootLog := [] }) (b := bootLog) hnow
  obtain ⟨us', gs', hs'⟩ := hregular.lists
  have hflush := hs'.run_flush rfl
  have hnote : restoreOrNote.run { m with phase := .booting, bootLog := [] } = (restore.run { m with phase := .booting, bootLog := [] }) := by
    unfold restoreOrNote
    rw [run_tryCatch, hrestore]
  unfold boot
  rw [run_bind, run_get]
  simp only [hstart, Bool.false_eq_true, if_false]
  apply Exists.intro
  refine ⟨?_, ?_, ?_⟩
  · refine Act.next (run_set ..) (Act.next (hnote.trans hrestore) ?_)
    simp only [Bool.not_true, Bool.false_eq_true, if_false]
    refine Act.next_modify (Act.next hflush Act.run_log)
  · exact ⟨hresumes.phase, hresumes.rootId, hresumes.nodes, hresumes.accounts, hresumes.clipboard, hresumes.apps, hresumes.user,
      hresumes.safeMode, hresumes.failures, hresumes.diagnostic, hresumes.developerMode, hresumes.clock⟩
  · exact ⟨⟨hregular.marked, hregular.accounts, hregular.user, hregular.clipboard, hregular.core, hregular.apps,
      hregular.failures, hregular.diagnostic, hregular.clock⟩, hregular.indexed⟩

/-- A running system that is stopped, and one that is started on its store, be it a new one or the same, are
in the same state. -/
theorem Regular.restart (h : s.Regular) (hl : s.tree.Linked) (ha : s.accounts.Legible) (hrun : s.phase = .running) :
    ∃ s₁, shutdown.run s = (.ok ⟨⟩, s₁) ∧ ∀ m : Machine, m.store = s₁.store → m.phase = .shutdown → m.now = s.now →
      ∃ s₂, boot.run m = (.ok ⟨⟩, s₂) ∧ s.Resumes s₂ ∧ s₂.Regular := by
  obtain ⟨us, gs, hs⟩ := h.lists
  obtain ⟨log, hstop⟩ := run_shutdown hrun hs
  refine ⟨_, hstop, fun m hstore hphase hnow => h.run_boot hl hs ?_ hphase hnow⟩
  rw [hstore]
  exact h.held hl ha hs

/-- Only a running system can be stopped. -/
theorem running_of_shutdown {s₁ : Machine} (hstop : shutdown.run s = (.ok ⟨⟩, s₁)) : s.phase = .running := by
  have hrun := Act.got hstop
  split at hrun
  · cases hrun
  · rename_i hphase
    simpa using hphase

end Machine

end SimUnix
