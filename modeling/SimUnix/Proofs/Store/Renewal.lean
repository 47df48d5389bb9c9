/-
A store whose own records are all removed and written anew. Nothing is left of the old ones, and the records of
others are as they were.
-/
import SimUnix.Proofs.Store.Places

namespace SimUnix.Store

variable {store : Store} {key : String} {keys : List String} {rs : List (String × Json)}

/-! ## Removing -/

theorem deletes_memory {records : Keyed String Json} : keys.foldl delete (memory records) = memory (keys.foldl Keyed.drop records) := by
  induction keys generalizing records with
  | nil => rfl
  | cons key keys ih => exact ih

theorem deletes_files {d : Directory} :
    keys.foldl delete (files d) = files { d with files := (keys.map fileName).foldl Keyed.drop d.files } := by
  induction keys generalizing d with
  | nil => rfl
  | cons key keys ih => exact ih

theorem unique_deletes (h : store.Unique) : (keys.foldl delete store).Unique := by
  induction keys generalizing store with
  | nil => exact h
  | cons key keys ih => exact ih (unique_delete h)

theorem Filed.deletes (h : store.Filed) : (keys.foldl Store.delete store).Filed := by
  induction keys generalizing store with
  | nil => exact h
  | cons key keys ih => exact ih h.delete

theorem mem_own : key ∈ store.keys.filter (Text.startsWith · keyLead) ↔ key ∈ store.keys ∧ IsOwn key := List.mem_filter

/-- The records of others are left alone. -/
theorem get_disowned (hu : store.Unique) (hkey : ¬ IsOwn key) : store.disowned.get key = store.get key := by
  unfold disowned
  cases store with
  | memory records =>
    have hout : key ∉ (memory records).keys.filter (Text.startsWith · keyLead) := fun hin => hkey (mem_own.1 hin).2
    rw [deletes_memory]
    unfold Store.get
    simp only [Keyed.get?_drops (show Keyed.keys records |>.Nodup from hu), if_neg hout]
    rfl
  | files d =>
    have hout : fileName key ∉ ((files d).keys.filter (Text.startsWith · keyLead)).map fileName := by
      intro hin
      obtain ⟨other, hother, he⟩ := List.mem_map.1 hin
      exact hkey ((isOwn_of_fileName he).1 (mem_own.1 hother).2)
    rw [deletes_files]
    unfold Store.get
    simp only [Keyed.get?_drops (show d.files.keys.Nodup from hu), if_neg hout]
    rfl

/-- A record of the system's own is not found any more, if its key names a file as it is. -/
theorem get_disowned_own (hu : store.Unique) (hown : IsOwn key) (hsafe : safeKey key = key)
    (hshort : (fileName key).length ≤ maxNameLength) : store.disowned.get key = .ok none := by
  have htakes : ∀ store : Store, store.takesName (fileName key) = true := fun store => by
    cases store with
    | memory => rfl
    | files => exact decide_eq_true hshort
  unfold disowned
  cases store with
  | memory records =>
    have hgone : Keyed.get? (((memory records).keys.filter (Text.startsWith · keyLead)).foldl Keyed.drop records) key = none := by
      rw [Keyed.get?_drops (show Keyed.keys records |>.Nodup from hu)]
      split
      · rfl
      · rename_i hout
        refine Option.eq_none_iff_forall_ne_some.2 fun v hv => hout (mem_own.2 ⟨?_, hown⟩)
        exact mem_keys_memory.2 (Keyed.mem_keys_iff.2 ⟨v, hv⟩)
    rw [deletes_memory]
    unfold Store.get
    simp only [htakes, hgone]
    rfl
  | files d =>
    have hgone : Keyed.get? ((((files d).keys.filter (Text.startsWith · keyLead)).map fileName).foldl Keyed.drop d.files)
        (fileName key) = none := by
      rw [Keyed.get?_drops (show d.files.keys.Nodup from hu)]
      split
      · rfl
      · rename_i hout
        refine Option.eq_none_iff_forall_ne_some.2 fun text htext => hout (List.mem_map_of_mem (mem_own.2 ⟨?_, hown⟩))
        refine mem_keys_files.2 ⟨_, Keyed.mem_keys_iff.2 ⟨text, htext⟩, ?_⟩
        rw [shownKey?_fileName, if_neg hown.ne_empty, hsafe]
    rw [deletes_files]
    unfold Store.get
    simp only [htakes, hgone]
    rfl

/-- None of the system's own records is left. -/
theorem mem_keys_disowned (hu : store.Unique) (hf : store.Filed) : key ∈ store.disowned.keys ↔ key ∈ store.keys ∧ ¬ IsOwn key := by
  have hdrops : ∀ {α : Type} {table : Keyed String α} {ks : List String} {k : String}, table.keys.Nodup →
      (k ∈ (ks.foldl Keyed.drop table).keys ↔ k ∈ table.keys ∧ k ∉ ks) := by
    intro α table ks k hnd
    simp only [Keyed.mem_keys_iff, Keyed.get?_drops hnd]
    by_cases hk : k ∈ ks <;> simp [hk]
  unfold disowned
  cases store with
  | memory records =>
    rw [deletes_memory, mem_keys_memory, hdrops (show Keyed.keys records |>.Nodup from hu), ← mem_keys_memory, mem_own, not_and]
    exact and_congr_right fun hin => ⟨fun h => h hin, fun h _ => h⟩
  | files d =>
    rw [deletes_files, mem_keys_files, mem_keys_files]
    dsimp only
    -- A file goes if the key that it shows is one of the system's own, and so is then the key that it is named for.
    have hgone : ∀ {name : String}, name ∈ d.files.keys → shownKey? name = some key →
        (name ∉ ((files d).keys.filter (Text.startsWith · keyLead)).map fileName ↔ ¬ IsOwn key) := by
      intro name hname hshown
      obtain ⟨other, rfl⟩ := hf d rfl name hname
      have hkey : (if other = "" then recordEnding else safeKey other) = key :=
        Option.some.inj (shownKey?_fileName.symm.trans hshown)
      refine not_congr ⟨fun hin => ?_, fun hown => ?_⟩
      · obtain ⟨own, hmem, he⟩ := List.mem_map.1 hin
        have hother : IsOwn other := (isOwn_of_fileName he).1 (mem_own.1 hmem).2
        rw [if_neg hother.ne_empty] at hkey
        exact hkey ▸ isOwn_safeKey.2 hother
      · have hne : other ≠ "" := by
          rintro rfl
          rw [if_pos rfl] at hkey
          subst hkey
          exact absurd hown (by unfold IsOwn; decide)
        rw [if_neg hne] at hkey
        refine List.mem_map.2 ⟨key, mem_own.2 ⟨mem_keys_files.2 ⟨_, hname, hshown⟩, hown⟩, ?_⟩
        unfold fileName
        rw [← hkey, safeKey_safeKey]
    constructor
    · rintro ⟨name, hname, hshown⟩
      obtain ⟨hin, hout⟩ := (hdrops (show d.files.keys.Nodup from hu)).1 hname
      exact ⟨⟨name, hin, hshown⟩, (hgone hin hshown).1 hout⟩
    · rintro ⟨⟨name, hin, hshown⟩, hkey⟩
      exact ⟨name, (hdrops (show d.files.keys.Nodup from hu)).2 ⟨hin, (hgone hin hshown).2 hkey⟩, hshown⟩

/-! ## Writing anew -/

/-- A store that holds some records, of which each can be read, and beside them what another one holds that is
not the system's own. -/
structure Renewed (records : List (String × Except Fault Json)) (old new : Store) : Prop where
  written : ∀ r ∈ records, ∃ v, r.2 = .ok v ∧ new.get r.1 = .ok (some (new.echo v))
  spared : ∀ key, ¬ IsOwn key → new.get key = old.get key
  listed : ∀ key, key ∈ new.keys ↔ key ∈ records.map Prod.fst ∨ key ∈ old.keys ∧ ¬ IsOwn key

theorem ownKeys_plain : ∀ key ∈ ownKeys, safeKey key = key ∧ IsOwn key := by
  unfold IsOwn
  decide +kernel

theorem mem_keys_setAll (hu : store.Unique) (hrs : ∀ r ∈ rs, r.1 ∈ ownKeys) :
    key ∈ (store.setAll rs).keys ↔ key ∈ rs.map Prod.fst ∨ key ∈ store.keys := by
  induction rs generalizing store with
  | nil => simp [setAll]
  | cons r rs ih =>
    obtain ⟨hsafe, hown⟩ := ownKeys_plain r.1 (hrs r List.mem_cons_self)
    show key ∈ ((store.set r.1 r.2).setAll rs).keys ↔ _
    rw [ih (unique_set hu) fun q hq => hrs q (List.mem_cons_of_mem _ hq), mem_keys_set hsafe hown.ne_empty hu, List.map_cons,
      List.mem_cons]
    tauto

/-- The system's own records, removed and written anew. -/
theorem renewed_setAll (hu : store.Unique) (hf : store.Filed) (hkeys : rs.map Prod.fst = ownKeys)
    (hfits : ∀ r ∈ rs, r.2.Fits Json.maxDepth) :
    Renewed (rs.map fun r => (r.1, .ok r.2)) store (store.disowned.setAll rs) := by
  have hmem : ∀ r ∈ rs, r.1 ∈ ownKeys := fun r hr => hkeys ▸ List.mem_map_of_mem hr
  have hpairs : rs.Pairwise fun a b => Clear a.1 b.1 ∧ Clear b.1 a.1 := List.pairwise_map.1 (hkeys ▸ ownKeys_clear)
  refine ⟨fun q hq => ?_, fun key hkey => ?_, fun key => ?_⟩
  · obtain ⟨r, hr, rfl⟩ := List.mem_map.1 hq
    refine ⟨r.2, rfl, ?_⟩
    rw [echo_setAll]
    exact get_setAll hpairs (fun r hr => ⟨ownKeys_short _ (hmem r hr), hfits r hr⟩) r hr
  · rw [get_setAll_other, get_disowned hu hkey]
    exact fun r hr => clear_foreign hkey (ownKeys_plain _ (hmem r hr)).2
  · have hdisowned : store.disowned.Unique := unique_deletes hu
    rw [mem_keys_setAll hdisowned hmem, mem_keys_disowned hu hf, List.map_map]
    rfl

end SimUnix.Store
