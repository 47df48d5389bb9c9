/-
The invariant of the running system: the tree is in order, and so is every tree that may be restored
from the store. It is kept by whatever an operation on files may do, and it survives a restart.
-/
import SimUnix.Machine.Lifecycle
import SimUnix.Proofs.Machine.Calls
import SimUnix.Proofs.Tree.Record

namespace SimUnix

/-! ## Stores -/

namespace Store

open Tree

variable {P : Tree → Prop} {store a b : Store} {ids : IdSupply} {t : Tree} {key : String} {value : Json}

/-- No record is kept twice. -/
def Unique : Store → Prop
  | memory records => records.keys.Nodup
  | files d => d.files.keys.Nodup

/-- A property of a tree that hangs on nothing but names, kinds and links. -/
def Shape (P : Tree → Prop) : Prop := ∀ ⦃t t' : Tree⦄, t'.rootId = t.rootId → t'.skeleton = t.skeleton → P t → P t'

/-- Every tree that may be restored from the store, under this supply or a later one, is in order and has
a property. -/
structure Restores (P : Tree → Prop) (ids : IdSupply) (store : Store) : Prop where
  unique : store.Unique
  sound : ∀ {record ids' now t}, store.get treeKey = .ok (some record) → ids.Later ids' →
    Tree.ofJson ids' now record = .ok t → Linked t ∧ P t

theorem Restores.later {ids' : IdSupply} (h : Restores P ids store) (hl : ids.Later ids') : Restores P ids' store :=
  ⟨h.unique, fun hg hl' hof => h.sound hg (hl.trans hl') hof⟩

theorem unique_set (h : store.Unique) : (store.set key value).Unique := by
  cases store with
  | memory records => exact Keyed.nodup_put h
  | files d => exact Keyed.nodup_put (Keyed.nodup_drop h)

theorem get_set_apart (hk : Apart key) : (store.set key value).get treeKey = store.get treeKey := by
  cases store with
  | memory records =>
    unfold Store.set Store.get
    simp only [Keyed.get?_put, hk.other.symm, if_false]
    rfl
  | files d =>
    unfold Store.set Store.get
    simp only [Keyed.get?_put, hk.file.symm, if_false, Keyed.get?_drop_of_ne _ hk.draft.symm]
    rfl

theorem Restores.set_apart (h : Restores P ids store) (hk : Apart key) : Restores P ids (store.set key value) :=
  ⟨unique_set h.unique, fun hg hl hof => h.sound (get_set_apart hk ▸ hg) hl hof⟩

theorem takesName_tree : store.takesName (fileName treeKey) = true := by
  cases store with
  | memory records => rfl
  | files d =>
    have hlen : (fileName treeKey).length ≤ maxNameLength := by decide +kernel
    exact decide_eq_true hlen

theorem get_memory {records : Keyed String Json} : (memory records).get treeKey = .ok (records.get? treeKey) := rfl

theorem get_files {d : Directory} : (files d).get treeKey =
    match d.files.get? (fileName treeKey) with
    | none => .ok none
    | some text => Json.parse text >>= fun
      | some value => .ok (some value)
      | none => .error (.corrupt treeKey (d.path ++ "/" ++ fileName treeKey)) := by
  unfold Store.get
  rw [takesName_tree]
  rfl

/-- What the record of a tree comes back as. -/
theorem get_set_tree {record : Json} (h : (store.set treeKey value).get treeKey = .ok (some record)) :
    record = value ∨ record = value.normal := by
  cases store with
  | memory records =>
    unfold Store.set at h
    rw [get_memory, Keyed.get?_put, if_pos rfl] at h
    cases h
    exact .inl rfl
  | files d =>
    unfold Store.set at h
    rw [get_files] at h
    simp only [Keyed.get?_put, if_true] at h
    obtain ⟨value?, hparse, h⟩ := bind_ok.1 h
    cases value? with
    | none => cases h
    | some v =>
      cases h
      exact .inr (Json.parse_toText hparse)

theorem Restores.set_tree (hP : Shape P) (h : store.Unique) (ht : Linked t) (hp : P t) :
    Restores P t.ids (store.set treeKey t.toJson) := by
  refine ⟨unique_set h, fun hget hl hof => ?_⟩
  have key : ∀ {g : Json → Json} {ids' now t'}, Json.Echoes g → t.ids.Later ids' →
      Tree.ofJson ids' now (g t.toJson) = .ok t' → Linked t' ∧ P t' := by
    intro g ids' now t' hecho hl hof
    obtain ⟨ht', hσ, hroot⟩ := ht.restored hecho hl hof
    exact ⟨ht', hP hroot hσ hp⟩
  rcases get_set_tree hget with rfl | rfl
  · exact key Json.echoes_id hl hof
  · exact key Json.echoes_normal hl hof

/-- Removing a record leaves the record of the tree, or leaves none. -/
theorem get_delete (key : String) (h : store.Unique) :
    (store.delete key).get treeKey = store.get treeKey ∨ (store.delete key).get treeKey = .ok none := by
  have hdrop : ∀ {α : Type} {table : Keyed String α} {k : String} (l : String), table.keys.Nodup →
      (table.drop k).get? l = table.get? l ∨ (table.drop k).get? l = none := by
    intro α table k l hnd
    rw [Keyed.get?_drop hnd]
    by_cases he : l = k
    · exact .inr (if_pos he)
    · exact .inl (if_neg he)
  cases store with
  | memory records =>
    unfold Store.delete
    rw [get_memory, get_memory]
    rcases hdrop treeKey h with he | he <;> rw [he]
    · exact .inl rfl
    · exact .inr rfl
  | files d =>
    unfold Store.delete
    rw [get_files, get_files]
    rcases hdrop (fileName treeKey) h with he | he <;> rw [he]
    · exact .inl rfl
    · exact .inr rfl

theorem unique_delete (h : store.Unique) : (store.delete key).Unique := by
  cases store <;> exact Keyed.nodup_drop h

theorem Restores.delete (h : Restores P ids store) : Restores P ids (store.delete key) := by
  refine ⟨unique_delete h.unique, fun hget hl hof => ?_⟩
  rcases get_delete key h.unique with he | he
  · exact h.sound (he ▸ hget) hl hof
  · rw [he] at hget
    cases hget

theorem get_delete_tree (h : store.Unique) : (store.delete treeKey).get treeKey = .ok none := by
  cases store with
  | memory records =>
    unfold Store.delete
    rw [get_memory, Keyed.get?_drop h, if_pos rfl]
  | files d =>
    unfold Store.delete
    rw [get_files, Keyed.get?_drop h, if_pos rfl]

/-- A record that is not there, or is among those that are removed, is gone then. -/
theorem get_deletes : ∀ {keys : List String} {store : Store}, store.Unique → treeKey ∈ keys ∨ store.get treeKey = .ok none →
    (keys.foldl Store.delete store).get treeKey = .ok none
  | [], _, _, h => h.resolve_left (List.not_mem_nil)
  | key :: keys, store, hu, h => by
    refine @get_deletes keys (store.delete key) (unique_delete hu) ?_
    rcases h with h | h
    · rcases List.mem_cons.1 h with rfl | h
      · exact .inr (get_delete_tree hu)
      · exact .inl h
    · exact .inr ((get_delete key hu).elim (fun he => he.trans h) id)

/-- The record of the tree is one of the system's own, if it is there. -/
theorem treeKey_own : treeKey ∈ store.keys.filter (Text.startsWith · keyLead) ∨ store.get treeKey = .ok none := by
  have hlead : Text.startsWith treeKey keyLead = true := by decide +kernel
  have hsorted : ∀ {keys : List String}, treeKey ∈ keys → treeKey ∈ (Text.sorted keys).filter (Text.startsWith · keyLead) :=
    fun hk => List.mem_filter.2 ⟨List.mem_mergeSort.2 hk, hlead⟩
  cases store with
  | memory records =>
    rcases hget : records.get? treeKey with _ | v
    · exact .inr (by rw [get_memory, hget])
    · exact .inl (hsorted (Keyed.mem_keys_iff.2 ⟨v, hget⟩))
  | files d =>
    rcases hget : d.files.get? (fileName treeKey) with _ | text
    · exact .inr (by rw [get_files, hget])
    · have hshown : shownKey? (fileName treeKey) = some treeKey := by decide +kernel
      exact .inl (hsorted (List.mem_filterMap.2 ⟨_, Keyed.mem_keys_iff.2 ⟨text, hget⟩, hshown⟩))

/-- A store without the system's own records. -/
def disowned (store : Store) : Store := (store.keys.filter (Text.startsWith · keyLead)).foldl delete store

theorem get_disowned_tree (h : store.Unique) : store.disowned.get treeKey = .ok none := get_deletes h treeKey_own

theorem Restores.deletes : ∀ {keys : List String} {store : Store}, store.Restores P ids →
    (keys.foldl Store.delete store).Restores P ids
  | [], _, h => h
  | _ :: _, _, h => h.delete.deletes

theorem Restores.saves (hP : Shape P) (h : Restores P ids a) (ht : Linked t) (hp : P t) (hids : t.ids = ids)
    (hs : Saves t a b) : Restores P ids b := by
  induction hs with
  | refl => exact h
  | tree _ ih => exact hids ▸ .set_tree hP ih.unique ht hp
  | other _ hk ih => exact ih.set_apart hk

end Store

/-! ## Systems -/

namespace Machine

open Tree

variable {keepers : NodeId → Prop} {s s' : Machine} {user? leaver? : Option Json}

/-- The tree is in order, no node has lost its parent unless a copy was given up, and the store restores
nothing else. -/
structure Sound (s : Machine) : Prop where
  linked : Linked s.tree
  gathered : Gathered s.tree
  restores : s.store.Restores Gathered s.tree.ids

theorem shape_gathered : Store.Shape Gathered := by
  intro t t' hroot hσ hg
  rcases hg with hw | ⟨left, hnd, hlen, hleft⟩
  · exact .inl fun hla => hroot ▸ hw (hσ ▸ hla)
  · exact .inr ⟨left, hnd, hlen, fun a ha => by rw [hroot, hσ]; exact hleft a ha⟩

/-- Nothing but the tree and the store matters. -/
theorem Sound.same (h : s.Sound) (ht : s'.tree = s.tree) (hs : s'.store = s.store) : s'.Sound :=
  ⟨ht ▸ h.linked, ht ▸ h.gathered, ht ▸ hs ▸ h.restores⟩

theorem Sound.aside (h : s.Sound) (ha : s.Aside s') : s'.Sound :=
  ⟨ha.tree ▸ h.linked, ha.tree ▸ h.gathered, ha.tree ▸ h.restores.saves shape_gathered h.linked h.gathered rfl ha.saves⟩

theorem Sound.sequel (h : s.Sound) {t : Tree} (ht : Sequel s.tree t) : Sound { s with tree := t } :=
  ⟨ht.linked, ht.gathered h.gathered, h.restores.later ht.ids⟩

theorem Relinks.sound (h : s.Sound) (hr : Relinks keepers user? leaver? s s') : s'.Sound := by
  induction hr with
  | refl => exact h
  | aside _ ha ih => exact ih.aside ha
  | relink _ hrel ih => exact ih.sequel (hrel.sequel ih.linked)

theorem Trail.sound (h : s.Sound) (hr : Trail keepers user? leaver? s s') : s'.Sound := by
  rcases hr with hr | ⟨t, hrev, ha⟩
  · exact hr.sound h
  · exact (h.sequel (hrev.sequel h.linked)).aside ha

/-! ## Resets -/

/-- A system without its log and its records, before a reset lays out the new one. -/
def swept (s : Machine) : Machine := { s with log := s.log.clear, store := s.store.disowned, phase := .booting }

theorem Sound.swept (h : s.Sound) : s.swept.Sound := ⟨h.linked, h.gathered, h.restores.deletes⟩

/-- A reset lays out the new system after everything else is gone, and writes it out in the phase of the old one. -/
theorem run_reset : reset.run s = (seed >>= fun _ => do
    modify fun s' => { s' with phase := s.phase }
    Act.flush
    Act.log .warning "system" "factory reset").run s.swept := rfl

end Machine

end SimUnix
