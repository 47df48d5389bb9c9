/-
The life of a sound system: everything that may be done to it from outside, as data, and the states that it
leads to from an empty store. A start restores nothing but trees in order, or lays out a new one, and a reset
begins again with an empty tree. All the states are sound.
-/
import SimUnix.Proofs.Machine.OwnFiles

namespace SimUnix

/-! ## Beginning -/

/-- A store without any record. -/
def Store.Empty : Store → Prop
  | .memory records => records = []
  | .files d => d.files = []

theorem Store.empty_memory : Store.Empty (.memory []) := rfl

theorem Store.Empty.get_tree {store : Store} (h : store.Empty) : store.get treeKey = .ok none := by
  cases store with
  | memory records =>
    cases h
    rfl
  | files d =>
    rw [get_files, show d.files = [] from h]
    rfl

theorem Store.Empty.restores {store : Store} {ids : IdSupply} {P : Tree → Prop} (h : store.Empty) : store.Restores P ids := by
  refine ⟨?_, fun hrec => ?_⟩
  · cases store with
    | memory records =>
      cases h
      exact .nil
    | files d =>
      show d.files.keys.Nodup
      rw [show d.files = [] from h]
      exact .nil
  · rw [h.get_tree] at hrec
    cases hrec

namespace Machine

open Tree Act

variable {s s' : Machine}

/-! ## The empty tree -/

/-- The root of a new tree. -/
def firstRoot (ids : IdSupply) (now : Time.Stamp) : Node where
  id := ids.id
  name := Path.root
  kind := .directory
  permissions := directoryPermissions
  created := now
  modified := now

theorem get?_empty {ids : IdSupply} {now : Time.Stamp} {a : NodeId} :
    (Tree.empty ids now).get? a = if a = ids.id then some (firstRoot ids now) else none := by
  show Keyed.get? [(ids.id, firstRoot ids now)] a = _
  unfold Keyed.get?
  rw [List.lookup_cons]
  split
  · rename_i heq
    rw [if_pos (beq_iff_eq.1 heq)]
  · rename_i heq
    rw [if_neg (beq_eq_false_iff_ne.1 heq)]
    rfl

/-- The tree of nothing but its root is in order. -/
theorem linked_empty {ids : IdSupply} {now : Time.Stamp} : Linked (Tree.empty ids now) ∧ Whole (Tree.empty ids now) := by
  have hsome : ∀ {a x}, (Tree.empty ids now).skeleton a = some x →
      a = ids.id ∧ x.id = ids.id ∧ x.children = [] ∧ x.parent = .null ∧ x.kind = .directory := by
    intro a x hx
    obtain ⟨n, hn, rfl⟩ := skeleton_some.1 hx
    rw [get?_empty] at hn
    split at hn
    · rename_i heq
      cases hn
      exact ⟨heq, rfl, rfl, rfl, rfl⟩
    · cases hn
  have hroot : ∃ x, (Tree.empty ids now).skeleton ids.id = some x :=
    ⟨_, skeleton_some.2 ⟨_, get?_empty.trans (if_pos rfl), rfl⟩⟩
  have habove : ∀ {a b}, ¬ (Tree.empty ids now).skeleton.Above a b := by
    rintro a b ⟨x, hx, rfl, hne⟩
    exact hne (hsome hx).2.2.2.1
  refine ⟨⟨?_, ⟨?_, ?_, ?_, ?_, ?_, ?_, ?_⟩, ?_, ?_, ?_⟩, ?_⟩
  · exact List.Pairwise.cons (by simp) .nil
  · intro a x hx
    obtain ⟨ha, hid, -⟩ := hsome hx
    rw [ha, hid]
  · intro x hx
    cases (hsome hx).1
  · intro a x hx hp
    exact absurd (hsome hx).2.2.2.1 hp
  · intro a x c hx hc
    rw [(hsome hx).2.2.1] at hc
    cases hc
  · intro a x hx
    rw [(hsome hx).2.2.1]
    exact .nil
  · intro a x c d y z hx hc
    rw [(hsome hx).2.2.1] at hc
    cases hc
  · exact ⟨fun a => .intro a fun b hb => absurd hb habove⟩
  · obtain ⟨x, hx⟩ := hroot
    obtain ⟨-, -, -, hp, hk⟩ := hsome hx
    exact ⟨x, hx, hp, hk⟩
  · intro a b hb
    obtain ⟨n, hn, rfl⟩ := bare_some.1 hb
    rw [get?_empty] at hn
    split at hn
    · rename_i heq
      cases hn
      exact ⟨⟨_, heq⟩, ⟨_, rfl⟩, ⟨_, rfl⟩⟩
    · cases hn
  · intro k hk
    by_contra hne
    obtain ⟨x, hx⟩ := Option.ne_none_iff_exists'.1 hne
    have hat : ids.rest.at k = ids.at ids.next := (hsome hx).1
    have hlt : ids.next + 1 ≤ k := hk
    have heq := IdSupply.at_inj (s := ids) hat
    omega
  · rintro a ⟨x, hx, -⟩
    exact (hsome hx).1

theorem Sound.blank (h : s.Sound) : s.blank.Sound :=
  ⟨linked_empty.1, .inl linked_empty.2, h.restores.later s.tree.ids.later_rest⟩

/-! ## Starting and resetting -/

/-- A restored tree goes on with the supply that it is given. -/
theorem ids_ofJson {ids : IdSupply} {now : Time.Stamp} {record : Json} {t : Tree} (h : Tree.ofJson ids now record = .ok t) :
    t.ids = ids := by
  unfold Tree.ofJson at h
  obtain ⟨_, -, h⟩ := bind_ok.1 h
  obtain ⟨_, -, h⟩ := bind_ok.1 h
  obtain ⟨_, -, h⟩ := bind_ok.1 h
  obtain ⟨_, -, h⟩ := bind_ok.1 h
  split at h
  · cases h
  · split at h
    · cases h
      rfl
    · cases h

theorem restoring_sound : Restoring Sound := by
  intro s record t h hget hof
  obtain ⟨ht, hg⟩ := h.restores.sound hget (.refl _) hof
  exact ⟨ht, hg, h.restores.later (ids_ofJson hof ▸ .refl _)⟩

theorem sound_seed : Keeps Sound seed := furnished_sound.seed Sound.blank id

theorem sound_boot : Keeps Sound boot := steady_sound.boot restoring_sound sound_seed

theorem sound_reset : Keeps Sound reset :=
  steady_sound.reset sound_seed fun _ h => ⟨h.linked, h.gathered, h.restores.deletes⟩

/-! ## Applications -/

theorem sound_installApp {id : String} {user? : Option Json} : Keeps Sound (installApp id user?) :=
  steady_sound.installApp fun _ _ => keeps_discard sound_putSystemFile

theorem sound_removed {n dir : Node} {t : Tree} (h : s.Sound) (hn : s.tree.get? n.id = some n) (hp : s.tree.parentOf? n = some dir)
    (hgone : Removed s.tree t n.id dir.id) : Sound { s with tree := t } := by
  obtain ⟨-, hab⟩ := (h.linked.parentOf_iff hn).1 hp
  exact h.sequel (.of_loose (h.linked.removed hab hgone) hgone.rootId (hgone.ids ▸ .refl _) (loose_removed hab hgone))

theorem sound_uninstallApp {id : String} {user? : Option Json} : Keeps Sound (uninstallApp id user?) :=
  steady_sound.uninstallApp sound_removed

/-! ## A new system on an old store -/

/-- A system that has not been started is sound if nothing but trees in order can be restored. -/
theorem sound_create {store : Store} {hostname : String} {log : Log} {ids : IdSupply} {now : Time.Stamp}
    (h : store.Restores Gathered ids) : (create store hostname log ids now).Sound :=
  ⟨linked_empty.1, .inl linked_empty.2, h.later ids.later_rest⟩

theorem Sound.anew (h : s.Sound) : s.anew.Sound := sound_create h.restores

/-! ## Operations -/

theorem sound_pasteItems {kind : PasteKind} {dir : String} {user? : Option Json} : ∀ {items : List ClipboardItem},
    Keeps Sound (pasteItems kind dir user? items)
  | [] => keeps_pure _
  | _ :: _ => keeps_bind (fun _ _ _ h hrun => (trail_pasteItem h.linked hrun).sound h) fun _ =>
    keeps_bind sound_pasteItems fun _ => keeps_pure _

theorem sound_paste {dir : String} {user? : Option Json} : Keeps Sound (paste dir user?) := by
  refine keeps_read fun s => keeps_bind sound_pasteItems fun count => ?_
  split
  · exact keeps_bind steady_sound.clearClipboard fun _ => keeps_pure _
  · exact keeps_pure _

/-- What may be done to the system from outside. -/
inductive Operation where
  | file (c : FileCall) (user? source? : Option Json)
  | ensureDirectory (path : String) (style : DirectoryStyle)
  | putSystemFile (dir name content : String) (permissions : Json)
  | createHome (u : User)
  | pick (nodes : List NodeId) (kind : PasteKind) (source? : Option Json)
  | clearClipboard
  | paste (dir : String) (user? : Option Json)
  | login (user password : String)
  | logout
  | addUser (new : NewUser) (user? : Option Json)
  | updateUser (name : String) (change : UserChange) (user? : Option Json)
  | deleteUser (name : String) (user? : Option Json)
  | addGroup (name : String) (members : List String) (user? : Option Json)
  | addToGroup (user group : String) (user? : Option Json)
  | removeFromGroup (user group : String) (user? : Option Json)
  | deleteGroup (name : String) (user? : Option Json)
  | setRootPassword (password : String)
  | resetAccounts
  | loadAccounts (users groups : Json)
  | syncFiles
  | installApp (id : String) (user? : Option Json)
  | uninstallApp (id : String) (user? : Option Json)
  | checkIntegrity
  | enterSafeMode (report : IntegrityReport)
  | flush
  | boot
  | shutdown
  | reset
  /-- Time goes by, or is set. -/
  | clock (now : Time.Stamp)

/-- Performs an operation. -/
def Operation.run : Operation → Act Unit
  | file c user? source? => discard (c.run user? source?)
  | ensureDirectory path style => discard (Machine.ensureDirectory path style)
  | putSystemFile dir name content permissions => discard (Machine.putSystemFile dir name content permissions)
  | createHome u => discard (Machine.createHome u)
  | pick nodes kind source? => Machine.pick nodes kind source?
  | clearClipboard => Machine.clearClipboard
  | paste dir user? => discard (Machine.paste dir user?)
  | login user password => discard (Machine.login user password)
  | logout => Machine.logout
  | addUser new user? => discard (Machine.addUser new user?)
  | updateUser name change user? => discard (Machine.updateUser name change user?)
  | deleteUser name user? => discard (Machine.deleteUser name user?)
  | addGroup name members user? => discard (Machine.addGroup name members user?)
  | addToGroup user group user? => discard (Machine.addToGroup user group user?)
  | removeFromGroup user group user? => discard (Machine.removeFromGroup user group user?)
  | deleteGroup name user? => discard (Machine.deleteGroup name user?)
  | setRootPassword password => Machine.setRootPassword password
  | resetAccounts => Machine.resetAccounts
  | loadAccounts users groups => Machine.loadAccounts users groups
  | syncFiles => Machine.syncFiles
  | installApp id user? => discard (Machine.installApp id user?)
  | uninstallApp id user? => discard (Machine.uninstallApp id user?)
  | checkIntegrity => discard Machine.checkIntegrity
  | enterSafeMode report => Machine.enterSafeMode report
  | flush => Act.flush
  | boot => Machine.boot
  | shutdown => Machine.shutdown
  | reset => Machine.reset
  | clock now => modify fun s => { s with now }

theorem Operation.sound : ∀ op : Operation, Keeps Sound op.run
  | file c _ _ => keeps_discard fun _ _ _ h hrun => (c.trail h.linked hrun).sound h
  | ensureDirectory _ _ => keeps_discard sound_ensureDirectory
  | putSystemFile _ _ _ _ => keeps_discard sound_putSystemFile
  | createHome _ => keeps_discard sound_createHome
  | pick _ _ _ => steady_sound.pick
  | clearClipboard => steady_sound.clearClipboard
  | paste _ _ => keeps_discard sound_paste
  | login _ _ => keeps_discard steady_sound.login
  | logout => steady_sound.logout
  | addUser _ _ => keeps_discard furnished_sound.addUser
  | updateUser _ _ _ => keeps_discard furnished_sound.simply
  | deleteUser _ _ => keeps_discard furnished_sound.simply
  | addGroup _ _ _ => keeps_discard furnished_sound.simply
  | addToGroup _ _ _ => keeps_discard furnished_sound.simply
  | removeFromGroup _ _ _ => keeps_discard furnished_sound.simply
  | deleteGroup _ _ => keeps_discard furnished_sound.simply
  | setRootPassword _ => steady_sound.setRootPassword
  | resetAccounts => steady_sound.elsewhere (by intro; rfl) (by intro; rfl)
  | loadAccounts _ _ => steady_sound.loadAccounts
  | syncFiles => sound_syncFiles
  | installApp _ _ => keeps_discard sound_installApp
  | uninstallApp _ _ => keeps_discard sound_uninstallApp
  | checkIntegrity => keeps_discard steady_sound.checkIntegrity
  | enterSafeMode _ => steady_sound.enterSafeMode
  | flush => steady_sound.flush
  | boot => sound_boot
  | shutdown => steady_sound.shutdown
  | reset => sound_reset
  | clock _ => steady_sound.elsewhere (by intro; rfl) (by intro; rfl)

/-! ## Idle changes -/

/-- A system that differs in its log, its records and its developer mode only. -/
structure Idle (s s' : Machine) : Prop where
  same : s' = { s with log := s'.log, store := s'.store, developerMode := s'.developerMode }
  saves : s.store.Saves s.tree s'.store

theorem Aside.idle (h : s.Aside s') : s.Idle s' := by
  refine ⟨?_, h.saves⟩
  rw [h.same]

theorem Idle.refl (s : Machine) : s.Idle s := (Aside.refl s).idle

theorem Idle.tree (h : s.Idle s') : s'.tree = s.tree := by rw [h.same]

theorem Idle.trans {s₁ s₂ s₃ : Machine} (h₁ : s₁.Idle s₂) (h₂ : s₂.Idle s₃) : s₁.Idle s₃ := by
  refine ⟨?_, h₁.saves.trans (h₁.tree ▸ h₂.saves)⟩
  rw [h₂.same, h₁.same]

/-- What happens while nothing is done, with the developer mode changed before. -/
theorem Idle.before (h : s.Idle s') : ∃ s₁ : Machine, s₁ = { s with developerMode := s'.developerMode } ∧ s₁.Aside s' := by
  refine ⟨_, rfl, ?_, h.saves⟩
  rw [h.same]

theorem Idle.sound (h : s.Idle s') (hs : s.Sound) : s'.Sound := by
  obtain ⟨s₁, rfl, ha⟩ := h.before
  have hs₁ : Sound { s with developerMode := s'.developerMode } := hs.same rfl rfl
  exact hs₁.aside ha

/-! ## Reachable states -/

/-- The states that operations lead to, one after the other, from an empty store, also where a new system
takes the place of the old one on the same store. An operation that gives up leaves what it has done so
far. -/
inductive Reachable : Machine → Prop
  | first {store : Store} {hostname : String} {log : Log} {ids : IdSupply} {now : Time.Stamp} (empty : store.Empty) :
      Reachable (create store hostname log ids now)
  | next {s s' : Machine} {op : Operation} {r : Except Fault Unit} (before : Reachable s)
      (run : op.run.run s = (r, s')) : Reachable s'
  | restart {s : Machine} (before : Reachable s) : Reachable s.anew

/-- The system after an operation, whether it gives up or not. -/
def Operation.after (op : Operation) (s : Machine) : Machine := (op.run.run s).2

theorem Reachable.perform (h : Reachable s) (op : Operation) : Reachable (op.after s) :=
  .next h (show op.run.run s = ((op.run.run s).1, (op.run.run s).2) from rfl)

/-- A system on a store in memory that has been started for the first time. -/
def fresh : Machine :=
  Operation.boot.after (create (.memory []) "aurora" {} { stem := "n" } { seconds := 0 })

theorem fresh_reachable : fresh.Reachable := Reachable.perform (.first Store.empty_memory) .boot

theorem Reachable.sound (h : Reachable s) : s.Sound := by
  induction h with
  | first empty => exact sound_create empty.restores
  | @next s s' op r _ run ih => exact op.sound ih run
  | restart _ ih => exact ih.anew

end Machine

end SimUnix
