/-
Where a store keeps its records. A record in memory lies under its key, one of files in the file that is named
for its key; files that are being written have names that no record has. A key that a directory shows is kept in
the same file as the key that the file was named for, and both are the system's own, or neither.
-/
import SimUnix.Proofs.Machine.Records
import SimUnix.Proofs.Machine.Sound

namespace SimUnix

/-! ## Tables -/

namespace Keyed

variable {κ α : Type} [DecidableEq κ] {k : κ}

theorem get?_drops {ks : List κ} {table : Keyed κ α} (h : table.keys.Nodup) :
    (ks.foldl drop table).get? k = if k ∈ ks then none else table.get? k := by
  induction ks generalizing table with
  | nil => rw [if_neg List.not_mem_nil]; rfl
  | cons l ks ih =>
    rw [List.foldl_cons, ih (nodup_drop h), get?_drop h]
    by_cases hl : k = l <;> by_cases hk : k ∈ ks <;> simp [hl, hk]

theorem mem_keys_put {l : κ} {x : α} {table : Keyed κ α} : k ∈ (table.put l x).keys ↔ k = l ∨ k ∈ table.keys := by
  rw [keys_put]
  split
  · exact ⟨.inr, fun h => h.elim (fun he => he ▸ by assumption) id⟩
  · rw [List.mem_append, List.mem_singleton, or_comm]

end Keyed

namespace Store

variable {store : Store} {key other name : String} {v : Json} {keys : List String}

/-! ## Names of files -/

theorem toList_fileName : (fileName key).toList = (key.toList.map fun c => if isSafe c then c else '_') ++ recordEnding.toList := by
  unfold fileName safeKey
  rw [String.toList_append, String.toList_map]

theorem getLast?_append_of {s t : String} {c : Char} (h : t.toList.getLast? = some c) : (s ++ t).toList.getLast? = some c := by
  rw [String.toList_append, List.getLast?_append, h]
  rfl

/-- A record's name and the name of a file that is being written end in different letters. -/
theorem getLast?_of_endsWith (h : Text.endsWith name recordEnding = true) : name.toList.getLast? = some 'n' := by
  unfold Text.endsWith at h
  obtain ⟨front, hfront⟩ := List.isSuffixOf_iff_suffix.1 h
  rw [← hfront, List.getLast?_append]
  rfl

theorem getLast?_draftName : (draftName key).toList.getLast? = some 'p' := by
  unfold draftName
  split <;> exact getLast?_append_of (by decide)

theorem endsWith_draftName : Text.endsWith (draftName key) recordEnding = false := by
  rw [← Bool.not_eq_true]
  intro hends
  exact absurd (getLast?_draftName.symm.trans (getLast?_of_endsWith hends)) (by decide)

theorem endsWith_fileName : Text.endsWith (fileName key) recordEnding = true := by
  unfold Text.endsWith
  rw [List.isSuffixOf_iff_suffix, toList_fileName]
  exact List.suffix_append _ _

/-- No record is kept in a file that is being written. -/
theorem fileName_ne_draftName : fileName key ≠ draftName other := by
  intro he
  have hends : Text.endsWith (fileName key) recordEnding = true := endsWith_fileName
  rw [he, endsWith_draftName] at hends
  cases hends

theorem length_fileName_le : (fileName key).length ≤ (draftName key).length := by
  unfold draftName
  split
  · rename_i hkey
    subst hkey
    decide +kernel
  · rw [String.length_append]
    exact Nat.le_add_right ..

/-- A key with safe characters only is taken over as it is. -/
theorem safeKey_of_safe (h : ∀ c ∈ key.toList, isSafe c = true) : safeKey key = key := by
  unfold safeKey
  refine String.toList_injective ?_
  rw [String.toList_map]
  exact (List.map_congr_left fun c hc => if_pos (h c hc)).trans (List.map_id' _)

/-- A key that has been made safe is safe. -/
theorem safeKey_safeKey : safeKey (safeKey key) = safeKey key := by
  refine safeKey_of_safe fun c hc => ?_
  unfold safeKey at hc
  rw [String.toList_map] at hc
  obtain ⟨d, -, rfl⟩ := List.mem_map.1 hc
  split
  · assumption
  · decide

theorem fileName_safeKey : fileName (safeKey key) = fileName key := by
  unfold fileName
  rw [safeKey_safeKey]

/-- The file of a record shows the key that it has been named for, made safe; only the empty one shows itself. -/
theorem shownKey?_fileName : shownKey? (fileName key) = some (if key = "" then recordEnding else safeKey key) := by
  unfold shownKey?
  by_cases hkey : key = ""
  · subst hkey
    decide +kernel
  have hne : fileName key ≠ recordEnding := by
    intro he
    have hlen : (fileName key).toList.length = recordEnding.toList.length := by rw [he]
    rw [toList_fileName, List.length_append, List.length_map] at hlen
    exact hkey (String.toList_eq_nil_iff.1 (List.eq_nil_of_length_eq_zero (by omega)))
  rw [if_neg hne, if_pos endsWith_fileName, if_neg hkey]
  congr 1
  refine String.toList_injective ?_
  rw [String.toList_ofList]
  unfold fileName
  rw [String.length_append, Nat.add_sub_cancel, String.toList_append]
  exact List.take_left

/-! ## The system's own records -/

/-- The keys of the system's own records. -/
def IsOwn (key : String) : Prop := Text.startsWith key keyLead = true

theorem lead_safe {lead cs : List Char} (hlead : ∀ c ∈ lead, isSafe c = true ∧ c ≠ '_') :
    lead.isPrefixOf (cs.map fun c => if isSafe c then c else '_') = lead.isPrefixOf cs := by
  induction lead generalizing cs with
  | nil => simp
  | cons d lead ih =>
    cases cs with
    | nil => rfl
    | cons c cs =>
      rw [List.map_cons, List.isPrefixOf_cons_cons, List.isPrefixOf_cons_cons, ih fun c hc => hlead c (List.mem_cons_of_mem _ hc)]
      congr 1
      obtain ⟨hsafe, hne⟩ := hlead d List.mem_cons_self
      by_cases hc : isSafe c = true
      · rw [if_pos hc]
      · rw [if_neg hc, beq_false_of_ne hne, beq_false_of_ne]
        rintro rfl
        exact hc hsafe

theorem keyLead_safe : ∀ c ∈ keyLead.toList, isSafe c = true ∧ c ≠ '_' := by
  have hall : keyLead.toList.all (fun c => isSafe c && c != '_') = true := by decide
  simpa using hall

theorem isOwn_safeKey : IsOwn (safeKey key) ↔ IsOwn key := by
  unfold IsOwn Text.startsWith safeKey
  rw [String.toList_map, lead_safe keyLead_safe]

theorem isOwn_of_fileName (h : fileName key = fileName other) : IsOwn key ↔ IsOwn other := by
  have hsafe : safeKey key = safeKey other := (String.append_left_inj recordEnding).1 h
  rw [← isOwn_safeKey, hsafe, isOwn_safeKey]

theorem IsOwn.ne_empty (h : IsOwn key) : key ≠ "" := by
  rintro rfl
  have hno : Text.startsWith "" keyLead = false := by decide
  exact absurd (h.symm.trans hno) (by decide)

/-- A record that is not the system's own stays as it is when one of the system's own is written. -/
theorem clear_foreign (hkey : ¬ IsOwn key) (hother : IsOwn other) : Clear key other :=
  ⟨fun he => hkey (he ▸ hother), fun he => hkey ((isOwn_of_fileName he).2 hother), fileName_ne_draftName⟩

/-! ## What is listed -/

theorem mem_keys_memory {records : Keyed String Json} : key ∈ (memory records).keys ↔ key ∈ Keyed.keys records := List.mem_mergeSort

theorem mem_keys_files {d : Directory} : key ∈ (files d).keys ↔ ∃ name ∈ d.files.keys, shownKey? name = some key := by
  show key ∈ List.mergeSort _ _ ↔ _
  rw [List.mem_mergeSort, List.mem_filterMap]

/-- A file that is being written is no record. -/
theorem shownKey?_draftName : shownKey? (draftName key) = none := by
  have hne : draftName key ≠ recordEnding := by
    intro he
    have hends : Text.endsWith (draftName key) recordEnding = false := endsWith_draftName
    rw [he] at hends
    exact absurd hends (by decide)
  unfold shownKey?
  rw [if_neg hne, endsWith_draftName]
  rfl

/-- What is listed once a record has been written was listed before, or is the key of the record, as it is or made safe. -/
theorem mem_keys_of_set (hne : other ≠ "") (h : key ∈ (store.set other v).keys) :
    (key = other ∨ key = safeKey other) ∨ key ∈ store.keys := by
  cases store with
  | memory records =>
    unfold Store.set at h
    rw [mem_keys_memory, Keyed.mem_keys_put] at h
    exact h.imp .inl mem_keys_memory.2
  | files d =>
    obtain ⟨name, hname, hshown⟩ := mem_keys_files.1 h
    rcases Keyed.mem_keys_put.1 hname with rfl | hname
    · rw [shownKey?_fileName, if_neg hne] at hshown
      exact .inl (.inr (Option.some.inj hshown).symm)
    · rw [Keyed.keys_drop] at hname
      exact .inr (mem_keys_files.2 ⟨name, List.mem_of_mem_erase hname, hshown⟩)

/-- A safe key that is not empty is listed as it is once its record has been written. -/
theorem mem_keys_set (hsafe : safeKey other = other) (hne : other ≠ "") (hu : store.Unique) :
    key ∈ (store.set other v).keys ↔ key = other ∨ key ∈ store.keys := by
  constructor
  · intro h
    have hkeys := mem_keys_of_set hne h
    rwa [hsafe, or_self] at hkeys
  cases store with
  | memory records =>
    unfold Store.set
    rw [mem_keys_memory, mem_keys_memory, Keyed.mem_keys_put]
    exact id
  | files d =>
    have hu : d.files.keys.Nodup := hu
    unfold Store.set
    rw [mem_keys_files, mem_keys_files]
    rintro (rfl | ⟨name, hname, hshown⟩)
    · exact ⟨fileName key, Keyed.mem_keys_put.2 (.inl rfl), by rw [shownKey?_fileName, if_neg hne, hsafe]⟩
    · refine ⟨name, Keyed.mem_keys_put.2 (.inr ?_), hshown⟩
      rw [Keyed.keys_drop]
      refine hu.mem_erase_iff.2 ⟨?_, hname⟩
      rintro rfl
      rw [shownKey?_draftName] at hshown
      cases hshown

/-- What is found in a store is listed, if not under the same key, then under one that is kept in the same file. -/
theorem listed_of_get (hne : key ≠ "") (h : store.get key = .ok (some v)) : ∃ listed ∈ store.keys, fileName listed = fileName key := by
  unfold Store.get at h
  dsimp only at h
  split at h
  · cases h
  cases store with
  | memory records => exact ⟨key, mem_keys_memory.2 (Keyed.mem_keys_iff.2 ⟨v, Except.ok.inj h⟩), rfl⟩
  | files d =>
    dsimp only at h
    rcases htext : d.files.get? (fileName key) with _ | text
    · rw [htext] at h
      cases h
    · refine ⟨safeKey key, mem_keys_files.2 ⟨fileName key, Keyed.mem_keys_iff.2 ⟨text, htext⟩, ?_⟩, fileName_safeKey⟩
      rw [shownKey?_fileName, if_neg hne]

/-! ## Filed stores -/

/-- Every file of a store is named for some key. -/
def Filed (store : Store) : Prop := ∀ d, store = files d → ∀ name ∈ d.files.keys, ∃ key, name = fileName key

theorem Filed.set (h : store.Filed) : (store.set key v).Filed := by
  intro d hd name hname
  cases store with
  | memory records => cases hd
  | files d' =>
    cases hd
    rcases Keyed.mem_keys_put.1 hname with rfl | hname
    · exact ⟨key, rfl⟩
    · rw [Keyed.keys_drop] at hname
      exact h d' rfl _ (List.mem_of_mem_erase hname)

theorem Filed.delete (h : store.Filed) : (store.delete key).Filed := by
  intro d hd name hname
  cases store with
  | memory records => cases hd
  | files d' =>
    cases hd
    rw [Keyed.keys_drop] at hname
    exact h d' rfl name (List.mem_of_mem_erase hname)

end Store

end SimUnix
