/-
When a store of files answers like one in memory. It does as long as no two keys that are used are the same once
they have been made safe, and all of them are short enough for the name of a file: calls under one key then never
change what is read under another one. Keys of users whose names are written in plain letters are of that kind;
those of other users may share a file.
-/
import SimUnix.Machine.Administration
import SimUnix.Proofs.Store.Places

namespace SimUnix.Store

/-! ## Calls -/

/-- What may be asked of a store. -/
inductive Call where
  | read (key : String)
  | write (key : String) (value : Json)
  | remove (key : String)

/-- The key that a call is about. -/
def Call.key : Call → String
  | read key | write key _ | remove key => key

/-- Performs a call, and tells the answer. Only a read is answered by more than success. -/
def Call.run (store : Store) : Call → Except Fault (Option Json) × Store
  | read key => (store.get key, store)
  | write key value => settle (store.write key value)
  | remove key => settle (store.remove key)
where
  /-- The store after a change, or the fault and the store as it was. -/
  settle : Except Fault Store → Except Fault (Option Json) × Store
    | .ok store => (.ok none, store)
    | .error e => (.error e, store)

/-- The answers to calls that are made one after the other. -/
def answers (store : Store) : List Call → List (Except Fault (Option Json))
  | [] => []
  | c :: calls => (c.run store).1 :: answers (c.run store).2 calls

/-! ## Keys with files of their own -/

/-- Keys that are short enough, and of which no two are the same once they have been made safe. -/
structure Separate (K : String → Prop) : Prop where
  short : ∀ {key}, K key → (draftName key).length ≤ maxNameLength
  apart : ∀ {key other}, K key → K other → safeKey key = safeKey other → key = other

/-- A call under a key of some kind. What it writes can be read, and has no field twice. -/
structure Call.Within (K : String → Prop) (c : Call) : Prop where
  key : K c.key
  value : ∀ {key v}, c = .write key v → v.Fits Json.maxDepth ∧ v.normal = v

variable {K : String → Prop} {store a b : Store} {key other : String} {v : Json} {c : Call} {calls : List Call}

theorem Separate.clear (h : Separate K) (hkey : K key) (hother : K other) (hne : key ≠ other) : Clear key other :=
  ⟨hne, fun he => hne (h.apart hkey hother ((String.append_left_inj recordEnding).1 he)), fileName_ne_draftName⟩

theorem takesName_short {name : String} (h : name.length ≤ maxNameLength) : store.takesName name = true := by
  cases store with
  | memory _ => rfl
  | files _ => exact decide_eq_true h

theorem get_delete_self (hu : store.Unique) (hshort : (fileName key).length ≤ maxNameLength) : (store.delete key).get key = .ok none := by
  cases store with
  | memory records =>
    have hgone : Keyed.get? (Keyed.drop records key) key = none := by
      rw [Keyed.get?_drop hu, if_pos rfl]
    unfold Store.get Store.delete
    simp only [hgone]
    rfl
  | files d =>
    have htakes : ∀ d : Directory, (files d).takesName (fileName key) = true := fun _ => decide_eq_true hshort
    have hgone : Keyed.get? (d.files.drop (fileName key)) (fileName key) = none := by
      rw [Keyed.get?_drop hu, if_pos rfl]
    unfold Store.get Store.delete
    simp only [htakes, hgone]
    rfl

theorem get_delete_other (hc : Clear key other) : (store.delete other).get key = store.get key := by
  cases store with
  | memory records =>
    have hsame : Keyed.get? (Keyed.drop records other) key = Keyed.get? records key := Keyed.get?_drop_of_ne _ hc.keys
    unfold Store.get Store.delete
    simp only [hsame]
    rfl
  | files d =>
    have hsame : Keyed.get? (d.files.drop (fileName other)) (fileName key) = Keyed.get? d.files (fileName key) :=
      Keyed.get?_drop_of_ne _ hc.files
    unfold Store.get Store.delete
    simp only [hsame]
    rfl

/-! ## Agreement -/

/-- Two stores in which the same is read under each of some keys. -/
structure Agree (K : String → Prop) (a b : Store) : Prop where
  left : a.Unique
  right : b.Unique
  get : ∀ {key}, K key → b.get key = a.get key

theorem echo_normal (h : v.normal = v) : store.echo v = v := by
  cases store with
  | memory _ => rfl
  | files _ => exact h

/-- Two stores that agree on the keys in use answer a call alike, and agree afterwards. -/
theorem Agree.call (hK : Separate K) (h : Agree K a b) (hc : c.Within K) :
    (c.run b).1 = (c.run a).1 ∧ Agree K (c.run a).2 (c.run b).2 := by
  have hkey := hc.key
  cases c with
  | read key => exact ⟨h.get hkey, h⟩
  | write key v =>
    have hkey : K key := hkey
    obtain ⟨hfits, hnormal⟩ := hc.value rfl
    have hshort := hK.short hkey
    have hrun : ∀ s : Store, (Call.write key v).run s = (.ok none, s.set key v) := fun s => by
      show Call.run.settle s (s.write key v) = _
      rw [show s.write key v = .ok (s.set key v) from if_pos (takesName_short hshort)]
      rfl
    have hread : ∀ s : Store, (s.set key v).get key = .ok (some v) := fun s => by
      rw [get_set (Nat.le_trans length_fileName_le hshort) hfits, echo_normal hnormal]
    rw [hrun a, hrun b]
    refine ⟨rfl, unique_set h.left, unique_set h.right, fun {other} hother => ?_⟩
    by_cases he : other = key
    · rw [he, hread a, hread b]
    · rw [get_set_other (hK.clear hother hkey he), get_set_other (hK.clear hother hkey he), h.get hother]
  | remove key =>
    have hkey : K key := hkey
    have hshort := Nat.le_trans length_fileName_le (hK.short hkey)
    have hrun : ∀ s : Store, (Call.remove key).run s = (.ok none, s.delete key) := fun s => by
      show Call.run.settle s (s.remove key) = _
      rw [show s.remove key = .ok (s.delete key) from if_pos (takesName_short hshort)]
      rfl
    rw [hrun a, hrun b]
    refine ⟨rfl, unique_delete h.left, unique_delete h.right, fun {other} hother => ?_⟩
    by_cases he : other = key
    · rw [he, get_delete_self h.left hshort, get_delete_self h.right hshort]
    · rw [get_delete_other (hK.clear hother hkey he), get_delete_other (hK.clear hother hkey he), h.get hother]

theorem Agree.answers (hK : Separate K) (h : Agree K a b) (hc : ∀ c ∈ calls, c.Within K) :
    b.answers calls = a.answers calls := by
  induction calls generalizing a b with
  | nil => rfl
  | cons c calls ih =>
    obtain ⟨hanswer, hafter⟩ := h.call hK (hc c List.mem_cons_self)
    unfold Store.answers
    rw [hanswer, ih hafter fun d hd => hc d (List.mem_cons_of_mem _ hd)]

/-- On keys with files of their own, a store of files answers like one in memory. -/
theorem Separate.answers_files (hK : Separate K) (hc : ∀ c ∈ calls, c.Within K) {path : String} :
    (files { path }).answers calls = (memory []).answers calls := by
  refine Agree.answers hK ⟨.nil, .nil, fun {key} hkey => ?_⟩ hc
  have htakes : (files { path }).takesName (fileName key) = true :=
    takesName_short (Nat.le_trans length_fileName_le (hK.short hkey))
  unfold Store.get
  simp only [htakes]
  rfl

/-! ## Keys of users -/

theorem safeKey_append {s t : String} : safeKey (s ++ t) = safeKey s ++ safeKey t := by
  unfold safeKey
  refine String.toList_injective ?_
  simp only [String.toList_map, String.toList_append, List.map_append]

/-- The records of two users are kept in the same file exactly if their names become the same. -/
theorem fileName_historyKey_iff {n m : String} : fileName (historyKey n) = fileName (historyKey m) ↔ safeKey n = safeKey m := by
  unfold fileName historyKey
  rw [String.append_left_inj, safeKey_append, safeKey_append (t := m), String.append_right_inj]

theorem fileName_inputKey_iff {n m : String} : fileName (inputKey n) = fileName (inputKey m) ↔ safeKey n = safeKey m := by
  unfold fileName inputKey
  rw [String.append_left_inj, safeKey_append, safeKey_append (t := m), String.append_right_inj]

theorem safeKey_historyKey {n : String} : safeKey (historyKey n) = historyKey (safeKey n) := by
  unfold historyKey
  rw [safeKey_append, safeKey_of_safe (List.all_eq_true.1 (by decide))]

theorem safeKey_inputKey {n : String} : safeKey (inputKey n) = inputKey (safeKey n) := by
  unfold inputKey
  rw [safeKey_append, safeKey_of_safe (List.all_eq_true.1 (by decide))]

theorem length_draftName (h : key ≠ "") : (draftName key).length = key.length + 9 := by
  have hsafe : (safeKey key).length = key.length := by
    rw [← String.length_toList, ← String.length_toList]
    unfold safeKey
    rw [String.toList_map, List.length_map]
  unfold draftName fileName
  rw [if_neg h, String.length_append, String.length_append, hsafe]
  rfl

theorem length_historyKey {n : String} : (historyKey n).length = 20 + n.length := by
  unfold historyKey
  rw [String.length_append, show (keyLead ++ "term-history-").length = 20 by decide]

theorem length_inputKey {n : String} : (inputKey n).length = 18 + n.length := by
  unfold inputKey
  rw [String.length_append, show (keyLead ++ "term-input-").length = 18 by decide]

theorem ne_empty_of_length (h : 0 < key.length) : key ≠ "" := by
  rintro rfl
  exact absurd h (by decide)

theorem historyKey_ne_empty {n : String} : historyKey n ≠ "" := ne_empty_of_length (by rw [length_historyKey]; omega)

theorem inputKey_ne_empty {n : String} : inputKey n ≠ "" := ne_empty_of_length (by rw [length_inputKey]; omega)

theorem length_draftName_historyKey {n : String} : (draftName (historyKey n)).length = n.length + 29 := by
  rw [length_draftName historyKey_ne_empty, length_historyKey]
  omega

theorem length_draftName_inputKey {n : String} : (draftName (inputKey n)).length = n.length + 27 := by
  rw [length_draftName inputKey_ne_empty, length_inputKey]
  omega

theorem getElem?_lead {lead rest : String} {k : Nat} {c : Char} (h : lead.toList[k]? = some c) :
    (lead ++ rest).toList[k]? = some c := by
  rw [String.toList_append, List.getElem?_append_left (List.getElem?_eq_some_iff.1 h).1, h]

/-- A history is kept under none of the keys of the system. -/
theorem historyKey_ne_own {n : String} (h : key ∈ ownKeys) : key ≠ historyKey n := by
  rintro rfl
  exact (show ∀ key ∈ ownKeys, key.toList[7]? ≠ some 't' by decide +kernel) _ h (getElem?_lead (by decide))

theorem inputKey_ne_own {n : String} (h : key ∈ ownKeys) : key ≠ inputKey n := by
  rintro rfl
  exact (show ∀ key ∈ ownKeys, key.toList[7]? ≠ some 't' by decide +kernel) _ h (getElem?_lead (by decide))

theorem historyKey_ne_inputKey {n m : String} : historyKey n ≠ inputKey m := by
  intro he
  have hhistory : (historyKey n).toList[12]? = some 'h' := getElem?_lead (by decide)
  have hinput : (inputKey m).toList[12]? = some 'i' := getElem?_lead (by decide)
  rw [he, hinput] at hhistory
  exact absurd hhistory (by decide)

/-- The keys of the system, and those of the users with names of some kind. -/
def UserKey (N : String → Prop) (key : String) : Prop := key ∈ ownKeys ∨ ∃ n, N n ∧ (key = historyKey n ∨ key = inputKey n)

/-- Names that are short enough, and of which no two become the same. -/
structure Distinct (N : String → Prop) : Prop where
  short : ∀ {n}, N n → n.length ≤ 226
  apart : ∀ {n m}, N n → N m → safeKey n = safeKey m → n = m

variable {N : String → Prop} {n m : String}

/-- The keys of users with such names have files of their own. -/
theorem separate_userKey (h : Distinct N) : Separate (UserKey N) where
  short {key} hkey := by
    have hmax : maxNameLength = 255 := rfl
    rcases hkey with hkey | ⟨n, hn, rfl | rfl⟩
    · exact (show ∀ key ∈ ownKeys, (draftName key).length ≤ maxNameLength by decide +kernel) key hkey
    · have hshort := h.short hn
      rw [length_draftName_historyKey]
      omega
    · have hshort := h.short hn
      rw [length_draftName_inputKey]
      omega
  apart {key other} hkey hother he := by
    have hown : ∀ key ∈ ownKeys, safeKey key = key := by decide +kernel
    rcases hkey with hkey | ⟨n, hn, rfl | rfl⟩ <;> rcases hother with hother | ⟨m, hm, rfl | rfl⟩
    · rwa [hown _ hkey, hown _ hother] at he
    · rw [hown _ hkey, safeKey_historyKey] at he
      exact absurd he (historyKey_ne_own hkey)
    · rw [hown _ hkey, safeKey_inputKey] at he
      exact absurd he (inputKey_ne_own hkey)
    · rw [hown _ hother, safeKey_historyKey] at he
      exact absurd he.symm (historyKey_ne_own hother)
    · rw [h.apart hn hm (fileName_historyKey_iff.1 (congrArg (· ++ recordEnding) he))]
    · rw [safeKey_historyKey, safeKey_inputKey] at he
      exact absurd he historyKey_ne_inputKey
    · rw [hown _ hother, safeKey_inputKey] at he
      exact absurd he.symm (inputKey_ne_own hother)
    · rw [safeKey_inputKey, safeKey_historyKey] at he
      exact absurd he.symm historyKey_ne_inputKey
    · rw [h.apart hn hm (fileName_inputKey_iff.1 (congrArg (· ++ recordEnding) he))]

theorem within_read (hkey : UserKey N key) : (Call.read key).Within (UserKey N) := ⟨hkey, nofun⟩

theorem within_null (hkey : UserKey N key) : (Call.write key .null).Within (UserKey N) where
  key := hkey
  value he := by
    obtain ⟨rfl, rfl⟩ := Call.write.inj he
    exact ⟨trivial, rfl⟩

/-- A history that is too long for the name of a file is written in memory only. -/
theorem answers_long (h : 226 < n.length) {path : String} :
    (files { path }).answers [.write (historyKey n) .null] ≠ (memory []).answers [.write (historyKey n) .null] := by
  have hno : ¬ (draftName (historyKey n)).length ≤ maxNameLength := by
    have hmax : maxNameLength = 255 := rfl
    rw [length_draftName_historyKey]
    omega
  have hfiles : (files { path }).write (historyKey n) .null = .error .unnameable := if_neg fun ht => hno (of_decide_eq_true ht)
  intro he
  have hfirst := (List.cons.inj he).1
  unfold Call.run at hfirst
  simp only [hfiles] at hfirst
  cases hfirst

/-- Writing the history of a user whose name becomes the same writes the same file. -/
theorem set_clash {d : Directory} (he : safeKey n = safeKey m) : (files d).set (historyKey n) v = (files d).set (historyKey m) v := by
  have hfile : fileName (historyKey n) = fileName (historyKey m) := fileName_historyKey_iff.2 he
  have hdraft : draftName (historyKey n) = draftName (historyKey m) := by
    unfold draftName
    rw [if_neg historyKey_ne_empty, if_neg historyKey_ne_empty, hfile]
  unfold Store.set
  simp only [hfile, hdraft]

/-- Of two users whose names become the same, each is told the history of the other when it is kept in a file. -/
theorem answers_clash (path : String) (hshort : n.length ≤ 226) (he : safeKey n = safeKey m) (hne : n ≠ m) :
    (files { path }).answers [.write (historyKey n) .null, .read (historyKey m)] = [.ok none, .ok (some .null)] ∧
      (memory []).answers [.write (historyKey n) .null, .read (historyKey m)] = [.ok none, .ok none] := by
  have hmax : maxNameLength = 255 := rfl
  have hdraft : (draftName (historyKey n)).length ≤ maxNameLength := by
    rw [length_draftName_historyKey]
    omega
  have hrun : ∀ store : Store, (Call.write (historyKey n) .null).run store = (.ok none, store.set (historyKey n) .null) := by
    intro store
    show Call.run.settle store (store.write (historyKey n) .null) = _
    rw [show store.write (historyKey n) .null = .ok (store.set (historyKey n) .null) from if_pos (takesName_short hdraft)]
    rfl
  have hkeys : historyKey m ≠ historyKey n := fun hk => hne ((String.append_right_inj _).1 hk).symm
  have hname : (fileName (historyKey m)).length ≤ maxNameLength := by
    rw [← fileName_historyKey_iff.2 he]
    exact Nat.le_trans length_fileName_le hdraft
  have hfiles : ((files { path }).set (historyKey n) .null).get (historyKey m) = .ok (some .null) := by
    rw [set_clash he]
    exact get_set hname trivial
  have hmemory : ((memory []).set (historyKey n) .null).get (historyKey m) = .ok none := by
    have hput : Keyed.get? (Keyed.put [] (historyKey n) Json.null) (historyKey m) = none := by
      rw [Keyed.get?_put, if_neg hkeys]
      rfl
    unfold Store.get Store.set
    simp only [hput]
    rfl
  unfold Store.answers Store.answers Store.answers
  rw [hrun, hrun]
  exact ⟨congrArg (fun answer => [.ok none, answer]) hfiles, congrArg (fun answer => [.ok none, answer]) hmemory⟩

/-- On the keys of the system and of some users, a store of files answers like one in memory exactly if the names
of the users are short enough and no two of them become the same. -/
theorem answers_files_iff {path : String} :
    (∀ calls, (∀ c ∈ calls, c.Within (UserKey N)) → (files { path }).answers calls = (memory []).answers calls) ↔ Distinct N := by
  constructor
  · intro h
    have hkey : ∀ {n}, N n → UserKey N (historyKey n) := fun {n} hn => .inr ⟨n, hn, .inl rfl⟩
    have hshort : ∀ {n}, N n → n.length ≤ 226 := by
      intro n hn
      by_contra hlong
      exact answers_long (Nat.lt_of_not_le hlong) (h _ (List.forall_mem_singleton.2 (within_null (hkey hn))))
    refine ⟨hshort, fun {n m} hn hm he => ?_⟩
    by_contra hne
    obtain ⟨hfiles, hmemory⟩ := answers_clash path (hshort hn) he hne
    have hsame := h [.write (historyKey n) .null, .read (historyKey m)]
      (List.forall_mem_cons.2 ⟨within_null (hkey hn), List.forall_mem_singleton.2 (within_read (hkey hm))⟩)
    rw [hfiles, hmemory] at hsame
    exact absurd hsame (by decide)
  · intro h calls hc
    exact (separate_userKey h).answers_files hc

/-- Two names that a user may be given become the same, so that what is read of one user is what was written of
the other. -/
theorem valid_names_share_a_file :
    ¬ ∀ (path : String) (calls : List Call),
      (∀ c ∈ calls, c.Within (UserKey fun n => Machine.validUserName n = true)) →
        (files { path }).answers calls = (memory []).answers calls := by
  intro h
  have hvalid : Machine.validUserName "é" = true ∧ Machine.validUserName "ü" = true ∧ safeKey "é" = safeKey "ü" := by
    decide +kernel
  have hkey : ∀ {n}, Machine.validUserName n = true → UserKey (fun n => Machine.validUserName n = true) (historyKey n) :=
    fun {n} hn => .inr ⟨n, hn, .inl rfl⟩
  obtain ⟨hfiles, hmemory⟩ := answers_clash "/store" (n := "é") (m := "ü") (by decide) hvalid.2.2 (by decide)
  have hsame := h "/store" [.write (historyKey "é") .null, .read (historyKey "ü")]
    (List.forall_mem_cons.2 ⟨within_null (hkey hvalid.1), List.forall_mem_singleton.2 (within_read (hkey hvalid.2.1))⟩)
  rw [hfiles, hmemory] at hsame
  exact absurd hsame (by decide)

/-- A name that is taken over as it is, and with which the name of a file is not too long. -/
structure PlainName (n : String) : Prop where
  safe : ∀ c ∈ n.toList, isSafe c = true
  short : n.length ≤ 226

theorem distinct_plainName : Distinct PlainName where
  short hn := hn.short
  apart hn hm he := by rwa [safeKey_of_safe hn.safe, safeKey_of_safe hm.safe] at he

/-- On the keys of the system and of users with plain names, a store of files answers like one in memory. -/
theorem plain_answers_files (hc : ∀ c ∈ calls, c.Within (UserKey PlainName)) {path : String} :
    (files { path }).answers calls = (memory []).answers calls := (separate_userKey distinct_plainName).answers_files hc

/-- A name that a user may be given is taken over as it is if it is written in plain letters. -/
theorem safe_of_validUserName {n : String} (h : Machine.validUserName n = true) (hplain : ∀ c ∈ n.toList, c.toNat < 128) :
    ∀ c ∈ n.toList, isSafe c = true := by
  have hranges : ∀ r ∈ Text.alphanumericRanges, r.1 < 128 → r ∈ [(48, 57), (65, 90), (97, 122)] := by decide +kernel
  have hall : ∀ k < 128, (∃ r ∈ [(48, 57), (65, 90), (97, 122)], r.1 ≤ k ∧ k ≤ r.2) → isSafe (Char.ofNat k) = true := by
    decide +kernel
  intro c hc
  by_cases hdash : c = '-'
  · subst hdash
    decide
  by_cases hunder : c = '_'
  · subst hunder
    decide
  have halnum : Text.isAlphanumeric c = true := Machine.alphanumeric_of_mem h hc hdash hunder
  unfold Text.isAlphanumeric Text.inRanges at halnum
  obtain ⟨r, hr, hin⟩ := List.any_eq_true.1 halnum
  simp only [Bool.and_eq_true, decide_eq_true_eq] at hin
  have hlow := hplain c hc
  have hsafe := hall c.toNat hlow ⟨r, hranges r hr (Nat.lt_of_le_of_lt hin.1 hlow), hin⟩
  rwa [Char.ofNat_toNat] at hsafe

end SimUnix.Store
