/-
Tables of users and groups in order: what they hold is what a record can hold, under the name of each
entry, and every user knows the groups that list it. Such tables come back from their records with the
same users and the same groups, only the order in which they are listed is that of their numbers.
-/
import SimUnix.Account.Table
import SimUnix.Proofs.Tree.Marks

namespace SimUnix

/-! ## Sorting -/

/-- The order of texts is that of their characters. -/
theorem Text.precedes_iff {a b : String} : Text.precedes a b = true ↔ a ≤ b := by
  have hlt : (fun c d : Char => c.toNat.blt d.toNat) = fun c d => decide (c < d) := by
    funext c d
    rw [Bool.eq_iff_iff, decide_eq_true_iff, Char.lt_def, UInt32.lt_iff_toNat_lt, Nat.blt_eq]
    rfl
  unfold Text.precedes
  rw [hlt, List.lex_eq_decide_lex, Bool.not_eq_true', decide_eq_false_iff_not]
  simp only [decide_eq_true_eq]
  rw [← String.not_lt]
  exact Iff.rfl

namespace Json

variable {α β : Type} {k : α → Json} {items : List α}

/-- The order of keys: numbers by their size, texts by their characters. -/
def Ascends : Json → Json → Prop
  | .int m, .int n => m ≤ n
  | .str s, .str t => s ≤ t
  | _, _ => False

theorem Ascends.antisymm : ∀ {a b : Json}, a.Ascends b → b.Ascends a → a = b
  | .int _, .int _, h, h' => congrArg Json.int (Int.le_antisymm h h')
  | .str _, .str _, h, h' => congrArg Json.str (String.le_antisymm h h')

theorem mapM_some {α β : Type} {f : α → Option β} : ∀ {xs : List α}, (∀ x ∈ xs, ∃ y, f x = some y) →
    ∃ ys, xs.mapM f = some ys ∧ List.Forall₂ (fun x y => f x = some y) xs ys
  | [], _ => ⟨[], rfl, .nil⟩
  | x :: xs, h => by
    obtain ⟨y, hy⟩ := h x (List.mem_cons_self ..)
    obtain ⟨ys, hys, hall⟩ := mapM_some fun z hz => h z (List.mem_cons_of_mem _ hz)
    exact ⟨y :: ys, by rw [List.mapM_cons, hy, hys]; rfl, .cons hy hall⟩

/-- Each item stands beside its key. -/
theorem keyed_of {f : α → Option β} {xs : List α} {ps : List (β × α)}
    (h : List.Forall₂ (fun x p => (f x).map (·, x) = some p) xs ps) : ps.map Prod.snd = xs ∧ ∀ p ∈ ps, f p.2 = some p.1 := by
  induction h with
  | nil => exact ⟨rfl, fun p hp => absurd hp List.not_mem_nil⟩
  | cons hp _ ih =>
    obtain ⟨b, hb, rfl⟩ := Option.map_eq_some_iff.1 hp
    exact ⟨by rw [List.map_cons, ih.1], List.forall_mem_cons.2 ⟨hb, ih.2⟩⟩

/-- Items that are sorted by their keys are all there, in the order of their keys. -/
theorem sorted_pairs {r : β → β → Bool} (trans : ∀ a b c, r a b = true → r b c = true → r a c = true)
    (total : ∀ a b, (r a b || r b a) = true) {f : α → Option β} {ps : List (β × α)}
    (hps : List.Forall₂ (fun x p => (f x).map (·, x) = some p) items ps)
    (hkey : ∀ {x y b c}, x ∈ items → y ∈ items → f x = some b → f y = some c → r b c = true → (k x).Ascends (k y)) :
    ((ps.mergeSort fun p q => r p.1 q.1).map Prod.snd).Perm items ∧
      ((ps.mergeSort fun p q => r p.1 q.1).map Prod.snd).Pairwise fun x y => (k x).Ascends (k y) := by
  obtain ⟨hitems, hread⟩ := keyed_of hps
  have hperm := List.mergeSort_perm ps fun p q => r p.1 q.1
  have hsorted : (ps.mergeSort fun p q => r p.1 q.1).Pairwise fun p q => r p.1 q.1 = true :=
    List.pairwise_mergeSort (fun p q o => trans p.1 q.1 o.1) (fun p q => total p.1 q.1) ps
  have hmem : ∀ {p : β × α}, p ∈ ps → p.2 ∈ items := fun hp => hitems ▸ List.mem_map_of_mem hp
  refine ⟨hitems ▸ hperm.map Prod.snd, List.pairwise_map.2 (hsorted.imp_of_mem fun hp hq hle => ?_)⟩
  rw [hperm.mem_iff] at hp hq
  exact hkey (hmem hp) (hmem hq) (hread _ hp) (hread _ hq) hle

theorem pairwise_short {R : α → α → Prop} : ∀ {xs : List α}, xs.length ≤ 1 → xs.Pairwise R
  | [], _ => .nil
  | [_], _ => List.pairwise_singleton ..

/-- Items with numbers for keys can be sorted. -/
theorem sortedBy_numbers {items : List α} (h : ∀ x ∈ items, ∃ n, k x = .int n) :
    ∃ ys, sortedBy k items = .ok ys ∧ ys.Perm items ∧ ys.Pairwise fun x y => (k x).Ascends (k y) := by
  unfold sortedBy
  split
  · rename_i hshort
    exact ⟨items, rfl, .refl _, pairwise_short hshort⟩
  · obtain ⟨ps, hps, hall⟩ := mapM_some (f := fun x => (k x).asInt.toOption.map (·, x)) fun x hx => by
      obtain ⟨n, hn⟩ := h x hx
      exact ⟨(n, x), by simp [hn, asInt, Except.toOption]⟩
    have hsorted : sortedByNumber? k items = some ((ps.mergeSort fun p q => decide (p.1 ≤ q.1)).map Prod.snd) := by
      unfold sortedByNumber?
      rw [hps]
      rfl
    rw [hsorted]
    refine ⟨_, rfl, sorted_pairs (r := fun m n => decide (m ≤ n)) (fun a b c hab hbc => ?_) (fun a b => ?_) hall
      fun {x y b c} hx hy hb hc hle => ?_⟩
    · exact decide_eq_true (Int.le_trans (of_decide_eq_true hab) (of_decide_eq_true hbc))
    · simpa using Int.le_total a b
    · obtain ⟨m, hm⟩ := h x hx
      obtain ⟨n, hn⟩ := h y hy
      rw [hm] at hb ⊢
      rw [hn] at hc ⊢
      cases hb
      cases hc
      exact of_decide_eq_true (p := b ≤ c) hle

/-- Items with texts for keys can be sorted. -/
theorem sortedBy_texts {items : List α} (h : ∀ x ∈ items, (k x).IsText) :
    ∃ ys, sortedBy k items = .ok ys ∧ ys.Perm items ∧ ys.Pairwise fun x y => (k x).Ascends (k y) := by
  unfold sortedBy
  split
  · rename_i hshort
    exact ⟨items, rfl, .refl _, pairwise_short hshort⟩
  · rename_i hlong
    obtain ⟨ps, hps, hall⟩ := mapM_some (f := fun x => (k x).asText.toOption.map (·, x)) fun x hx => by
      obtain ⟨s, hs⟩ := h x hx
      exact ⟨(s, x), by simp [hs, asText, Except.toOption]⟩
    have hno : sortedByNumber? k items = none := by
      rcases items with _ | ⟨x, xs⟩
      · exact absurd (Nat.zero_le _) hlong
      · obtain ⟨s, hs⟩ := h x (List.mem_cons_self ..)
        unfold sortedByNumber?
        rw [List.mapM_cons, hs]
        rfl
    have hsorted : sortedByText? k items = some ((ps.mergeSort fun p q => Text.precedes p.1 q.1).map Prod.snd) := by
      unfold sortedByText?
      rw [hps]
      rfl
    rw [hno, hsorted]
    refine ⟨_, rfl, sorted_pairs (fun a b c hab hbc => ?_) (fun a b => ?_) hall fun {x y b c} hx hy hb hc hle => ?_⟩
    · exact Text.precedes_iff.2 (String.le_trans (Text.precedes_iff.1 hab) (Text.precedes_iff.1 hbc))
    · rw [Bool.or_eq_true, Text.precedes_iff, Text.precedes_iff]
      exact String.le_total a b
    · obtain ⟨s, hs⟩ := h x hx
      obtain ⟨t, ht⟩ := h y hy
      rw [hs] at hb ⊢
      rw [ht] at hc ⊢
      cases hb
      cases hc
      exact Text.precedes_iff.1 hle

/-- Texts that differ are all kept as keys. -/
theorem distinctKeys_texts {xs : List Json} (ht : ∀ x ∈ xs, x.IsText) (hnd : xs.Nodup) : distinctKeys (.arr xs) = .ok xs := by
  have hkeys : xs.all isKey = true := List.all_eq_true.2 fun x hx => by
    obtain ⟨s, rfl⟩ := ht x hx
    rfl
  have hsame : ∀ {a b : Json}, a.IsText → sameKey a b = true → a = b := by
    rintro a b ⟨s, rfl⟩ h
    simpa [sameKey, asInt] using h
  have hfold : ∀ {xs seen : List Json}, (∀ x ∈ xs, x.IsText) → (seen ++ xs).Nodup →
      xs.foldl (fun seen key => if seen.any (sameKey key) then seen else seen ++ [key]) seen = seen ++ xs := by
    intro xs
    induction xs with
    | nil => exact fun _ _ => (List.append_nil _).symm
    | cons x xs ih =>
      intro seen ht hnd
      have hnew : seen.any (sameKey x) = false := by
        by_contra hany
        obtain ⟨y, hy, hxy⟩ := List.any_eq_true.1 (Bool.not_eq_false _ ▸ hany)
        cases hsame (ht x (List.mem_cons_self ..)) hxy
        exact (List.nodup_append.1 hnd).2.2 x hy x (List.mem_cons_self ..) rfl
      rw [List.foldl_cons, hnew, if_neg (by decide), ih (fun y hy => ht y (List.mem_cons_of_mem _ hy))
        (by rwa [List.append_assoc]), List.append_assoc]
      rfl
  unfold distinctKeys
  show (if xs.all isKey then Except.ok (xs.foldl _ []) else _) = _
  rw [if_pos hkeys, @hfold xs [] ht hnd, List.nil_append]

end Json

/-! ## Entries that correspond -/

section

variable {α β : Type} {x? : Option α} {y? : Option β}

theorem rel_to {R : α → β → Prop} (h : Option.Rel R x? y?) {x : α} (hx : x? = some x) : ∃ y, y? = some y ∧ R x y := by
  cases h with
  | none => cases hx
  | some h =>
    cases hx
    exact ⟨_, rfl, h⟩

theorem rel_of {R : α → β → Prop} (h : Option.Rel R x? y?) {y : β} (hy : y? = some y) : ∃ x, x? = some x ∧ R x y := by
  cases h with
  | none => cases hy
  | some h =>
    cases hy
    exact ⟨_, rfl, h⟩

theorem rel_refl {R : α → α → Prop} (hR : ∀ x, R x x) : ∀ x? : Option α, Option.Rel R x? x?
  | none => .none
  | some x => .some (hR x)

theorem rel_trans {R : α → α → Prop} (hR : ∀ {x y z}, R x y → R y z → R x z) {x y z : Option α}
    (h₁ : Option.Rel R x y) (h₂ : Option.Rel R y z) : Option.Rel R x z := by
  cases h₁ with
  | none => exact h₂
  | some h₁ =>
    cases h₂ with
    | some h₂ => exact .some (hR h₁ h₂)

theorem rel_imp {R S : α → β → Prop} (hRS : ∀ {x y}, R x y → S x y) (h : Option.Rel R x? y?) : Option.Rel S x? y? := by
  cases h with
  | none => exact .none
  | some h => exact .some (hRS h)

theorem rel_map {R : α → α → Prop} {f : α → α} (hf : ∀ x, R x (f x)) : ∀ x? : Option α, Option.Rel R x? (x?.map f)
  | none => .none
  | some x => .some (hf x)

end

/-! ## Entries -/

/-- A user whose record holds all of it. -/
structure User.Plain (u : User) : Prop where
  name : u.name.IsText
  uid : ∃ n, u.uid = .int n
  gid : ∃ n, u.gid = .int n
  fullName : u.fullName.IsText
  passwordDigest : u.passwordDigest.IsText
  passwordHint : u.passwordHint.IsText
  home : u.home.IsText ∧ u.home ≠ .str ""
  shell : u.shell.IsText

/-- A group whose record holds all of it. -/
structure Group.Plain (g : Group) : Prop where
  name : g.name.IsText
  gid : ∃ n, g.gid = .int n
  members : ∀ m ∈ g.members, m.IsText
  once : g.members.Nodup

variable {g : Json → Json}

/-- A user comes back from its record, except for the groups. -/
theorem User.Plain.back {u : User} (h : u.Plain) (hg : Json.Echoes g) :
    User.ofJson (g u.toJson) = .ok { u with groups := [] } := by
  obtain ⟨⟨name, hname⟩, ⟨uid, huid⟩, ⟨gid, hgid⟩, ⟨full, hfull⟩, ⟨digest, hdigest⟩, ⟨hint, hhint⟩, ⟨⟨home, hhome⟩, hne⟩,
    ⟨shell, hshell⟩⟩ := h
  have hkeys : ["username", "uid", "gid", "full_name", "password_hash", "password_hint", "home", "shell"].Nodup := by decide
  have hobj : g u.toJson = .obj (u.toJson.fields.map fun f => (f.1, g f.2)) := hg.obj u.toJson.fields hkeys
  have htruthy : Json.truthy (.str home) = true := by
    rw [hhome] at hne
    simpa [Json.truthy] using hne
  obtain ⟨a, b, c, d, e, f, i, j, k⟩ := u
  dsimp only at hname huid hgid hfull hdigest hhint hhome hshell
  subst hname huid hgid hfull hdigest hhint hhome hshell
  rw [hobj]
  simp only [User.toJson, Json.fields, List.map_cons, List.map_nil, hg.str, hg.int]
  unfold User.ofJson
  simp only [Json.require, Json.fieldOr, Json.field?, List.lookup_cons, String.reduceBEq, Except.map, Option.getD_some, bind,
    Except.bind, htruthy, if_true]

/-- A group with its members in order. -/
def Group.stored (x : Group) : Group := { x with members := x.sortedMembers.toOption.getD x.members }

/-- The record of a group whose members can be sorted. -/
def Group.record (x : Group) : Json := .obj [("name", x.name), ("gid", x.gid), ("members", .arr x.stored.members)]

/-- A group comes back from its record with its members in order. -/
theorem Group.Plain.back {x : Group} (h : x.Plain) :
    x.toJson = .ok x.record ∧ x.stored.members.Perm x.members ∧
      ∀ {g : Json → Json}, Json.Echoes g → Group.ofJson (g x.record) = .ok x.stored := by
  obtain ⟨⟨name, hname⟩, ⟨gid, hgid⟩, hmembers, honce⟩ := h
  obtain ⟨members, hsorted, hperm, -⟩ := Json.sortedBy_texts (k := id) hmembers
  have hstored : x.stored = { x with members } := by
    unfold Group.stored Group.sortedMembers
    rw [hsorted]
    rfl
  have ht : ∀ m ∈ members, m.IsText := fun m hm => hmembers m (hperm.mem_iff.1 hm)
  refine ⟨?_, by rw [hstored]; exact hperm, fun {g} hg => ?_⟩
  · unfold Group.toJson Group.record Group.sortedMembers
    rw [hsorted, hstored]
    rfl
  · have hkeys : ["name", "gid", "members"].Nodup := by decide
    have hback : g x.record = x.record := by
      unfold Group.record
      rw [hstored, hg.obj [("name", x.name), ("gid", x.gid), ("members", .arr members)] hkeys]
      simp only [List.map_cons, List.map_nil, hname, hgid, hg.str, hg.int, hg.arr, Tree.map_texts hg ht]
    rw [hback]
    unfold Group.record Group.ofJson
    rw [hstored]
    simp only [Json.require, Json.fieldOr, Json.field?, List.lookup_cons, String.reduceBEq, Except.map, Option.getD_some, bind,
      Except.bind, Json.distinctKeys_texts ht (hperm.nodup_iff.2 honce)]

theorem Group.Plain.stored {x : Group} (h : x.Plain) : x.stored.Plain :=
  ⟨h.name, h.gid, fun m hm => h.members m (h.back.2.1.mem_iff.1 hm), h.back.2.1.nodup_iff.2 h.once⟩

/-! ## Tables -/

/-- The same user, whose groups may be listed in another order. -/
structure User.Same (u v : User) : Prop where
  rest : { u with groups := [] } = { v with groups := [] }
  groups : u.groups.Perm v.groups

theorem User.Same.numbers {u v : User} (h : u.Same v) : v.uid = u.uid ∧ v.gid = u.gid := by
  have huid := congrArg User.uid h.rest
  have hgid := congrArg User.gid h.rest
  exact ⟨huid.symm, hgid.symm⟩

/-- The same group, whose members may be listed in another order. -/
structure Group.Same (a b : Group) : Prop where
  name : a.name = b.name
  gid : a.gid = b.gid
  members : a.members.Perm b.members

namespace Accounts

/-- Tables that a record can hold. -/
structure InOrder (a : Accounts) : Prop where
  users : a.users.keys.Nodup
  user : ∀ p ∈ a.users, p.2.name = p.1 ∧ p.2.Plain
  groups : a.groups.keys.Nodup
  group : ∀ p ∈ a.groups, p.2.name = p.1 ∧ p.2.Plain
  root : a.users.has rootName = true
  system : ∀ g ∈ systemGroups, a.groups.has (.str g.1) = true
  apart : ∀ g ∈ systemGroups, a.users.has (.str g.1) = true → g.1 = rootName

/-- Every user knows the groups that list it. -/
def Indexed (a : Accounts) : Prop := a.reindexed = a

/-- The same users and groups, listed in any order. -/
structure Same (a b : Accounts) : Prop where
  user : ∀ name, Option.Rel User.Same (a.user? name) (b.user? name)
  group : ∀ name, Option.Rel Group.Same (a.group? name) (b.group? name)

end Accounts

namespace Keyed

variable {κ α β : Type} [DecidableEq κ]

theorem get?_map {f : α → β} {k : κ} : ∀ {table : Keyed κ α}, Keyed.get? (table.map fun p => (p.1, f p.2)) k = (table.get? k).map f
  | [] => rfl
  | p :: table => by
    have ih : Keyed.get? (table.map fun p => (p.1, f p.2)) k = (Keyed.get? table k).map f := get?_map
    unfold Keyed.get? at ih ⊢
    rw [List.map_cons, List.lookup_cons, List.lookup_cons]
    split
    · rfl
    · exact ih

theorem get?_iff_mem {k : κ} {a : α} : ∀ {table : Keyed κ α}, table.keys.Nodup → (table.get? k = some a ↔ (k, a) ∈ table)
  | [], _ => by simp [Keyed.get?]
  | p :: table, hnd => by
    obtain ⟨hp, hnd⟩ := List.nodup_cons.1 hnd
    have ih := get?_iff_mem (k := k) (a := a) hnd
    unfold Keyed.get? at ih ⊢
    rw [List.lookup_cons, List.mem_cons]
    split
    · rename_i heq
      cases beq_iff_eq.1 heq
      constructor
      · intro h
        cases h
        exact .inl rfl
      · rintro (hm | hm)
        · rw [← hm]
        · exact absurd (List.mem_map_of_mem (f := Prod.fst) hm) hp
    · rename_i hne
      rw [ih]
      constructor
      · exact .inr
      · rintro (hm | hm)
        · rw [← hm] at hne
          simp at hne
        · exact hm

/-- Two tables that list the same entries give the same answers. -/
theorem get?_perm {a b : Keyed κ α} (hp : a.Perm b) (ha : a.keys.Nodup) (k : κ) : a.get? k = b.get? k := by
  have hb : b.keys.Nodup := (hp.map Prod.fst).nodup_iff.1 ha
  ext v
  rw [get?_iff_mem ha, get?_iff_mem hb, hp.mem_iff]

end Keyed

namespace Accounts

variable {a b : Accounts} {g : Json → Json}

/-! ## Reading tables -/

/-- Reading entries one after the other, whose names are keys that differ. -/
theorem readEntries {α β : Type} {read : Json → Except Fault β} {name : β → Json} {record : α → Json} (back : α → β) :
    ∀ {xs : List α} {done : Keyed Json β}, (∀ x ∈ xs, read (record x) = .ok (back x) ∧ (name (back x)).isKey = true) →
      (done.keys ++ xs.map fun x => name (back x)).Nodup →
        (xs.map record).foldlM (fun table item => do
          let u ← read item
          withEntry table (name u) u) done = .ok (done ++ xs.map fun x => (name (back x), back x))
  | [], done, _, _ => congrArg Except.ok (List.append_nil done).symm
  | x :: xs, done, hx, hnd => by
    obtain ⟨hread, hkey⟩ := hx x (List.mem_cons_self ..)
    rw [List.map_cons] at hnd
    have hnew : name (back x) ∉ done.keys := fun hm =>
      (List.nodup_append.1 hnd).2.2 _ hm _ (List.mem_cons_self ..) rfl
    have hkeys : Keyed.keys (done ++ [(name (back x), back x)]) = done.keys ++ [name (back x)] := List.map_append
    rw [List.map_cons, List.foldlM_cons, hread]
    have hentry : withEntry done (name (back x)) (back x) = .ok (done ++ [(name (back x), back x)]) := by
      unfold withEntry
      rw [if_pos hkey, Keyed.put_new hnew]
    show (withEntry done (name (back x)) (back x) >>= fun done => (xs.map record).foldlM _ done) = _
    rw [hentry]
    show (xs.map record).foldlM _ (done ++ [(name (back x), back x)]) = _
    rw [readEntries back (fun y hy => hx y (List.mem_cons_of_mem _ hy)) (by rw [hkeys, List.append_assoc]; exact hnd),
      List.append_assoc]
    rfl

theorem mapM_ok_map {α β : Type} {f : α → Except Fault β} {h : α → β} : ∀ {xs : List α}, (∀ x ∈ xs, f x = .ok (h x)) →
    xs.mapM f = .ok (xs.map h)
  | [], _ => rfl
  | x :: xs, hx => by
    rw [List.mapM_cons, hx x (List.mem_cons_self ..), mapM_ok_map fun y hy => hx y (List.mem_cons_of_mem _ hy)]
    rfl

/-- The entries of a table, each under its name. -/
theorem entries_perm {α : Type} {name : α → Json} {table : Keyed Json α} {xs : List α} (hn : ∀ p ∈ table, name p.2 = p.1)
    (hp : xs.Perm table.values) {β : Type} (f : α → β) :
    (xs.map fun x => (name x, f x)).Perm (table.map fun p => (p.1, f p.2)) := by
  refine (hp.map _).trans (List.Perm.of_eq ?_)
  unfold Keyed.values
  rw [List.map_map]
  exact List.map_congr_left fun p hmem => by rw [Function.comp_apply, hn p hmem]

theorem InOrder.names_nodup {α : Type} {name : α → Json} {table : Keyed Json α} {xs : List α} (hnd : table.keys.Nodup)
    (hn : ∀ p ∈ table, name p.2 = p.1) (hp : xs.Perm table.values) : (xs.map name).Nodup := by
  have h := (entries_perm hn hp id).map Prod.fst
  rw [List.map_map, List.map_map] at h
  exact (h.nodup_iff).2 hnd

/-- The tables as they are read back: users without groups, and groups with their members in order. -/
theorem InOrder.read (h : a.InOrder) : ∃ (us : List User) (gs : List Group) (records : List Json),
    a.usersJson = .ok (.arr (us.map User.toJson)) ∧
    a.groupsJson = .ok (.arr records) ∧ us.Perm a.users.values ∧ gs.Perm a.groups.values ∧ records = gs.map Group.record ∧
      ∀ {g : Json → Json}, Json.Echoes g →
        readUsers (g (.arr (us.map User.toJson))) = .ok (us.map fun u => (u.name, { u with groups := [] })) ∧
        readGroups (g (.arr records)) = .ok (gs.map fun x => (x.name, x.stored)) := by
  have huser : ∀ u ∈ a.users.values, u.Plain := fun u hu => by
    obtain ⟨p, hp, rfl⟩ := List.mem_map.1 hu
    exact (h.user p hp).2
  have hgroup : ∀ x ∈ a.groups.values, x.Plain := fun x hx => by
    obtain ⟨p, hp, rfl⟩ := List.mem_map.1 hx
    exact (h.group p hp).2
  obtain ⟨us, hus, hup, -⟩ := Json.sortedBy_numbers fun u hu => (huser u hu).uid
  obtain ⟨gs, hgs, hgp, -⟩ := Json.sortedBy_numbers fun x hx => (hgroup x hx).gid
  have hrecords : gs.mapM Group.toJson = .ok (gs.map Group.record) :=
    mapM_ok_map fun x hx => (hgroup x (hgp.mem_iff.1 hx)).back.1
  refine ⟨us, gs, gs.map Group.record, ?_, ?_, hup, hgp, rfl, fun {g} hg => ⟨?_, ?_⟩⟩
  · unfold usersJson sortedUsers User.sorted
    rw [hus]
    rfl
  · unfold groupsJson sortedGroups Group.sorted
    simp only [hgs, bind, Except.bind, hrecords]
  · rw [hg.arr, List.map_map]
    refine (readEntries (fun u => { u with groups := [] }) (fun u hu => ?_) ?_).trans (by rw [List.nil_append])
    · have hplain := huser u (hup.mem_iff.1 hu)
      obtain ⟨name, hname⟩ := hplain.name
      exact ⟨hplain.back hg, by show u.name.isKey = true; rw [hname]; rfl⟩
    · exact InOrder.names_nodup h.users (fun p hp => (h.user p hp).1) hup
  · rw [hg.arr, List.map_map]
    refine (readEntries Group.stored (fun x hx => ?_) ?_).trans (by rw [List.nil_append]; rfl)
    · have hplain := hgroup x (hgp.mem_iff.1 hx)
      obtain ⟨name, hname⟩ := hplain.name
      exact ⟨hplain.back.2.2 hg, by show x.name.isKey = true; rw [hname]; rfl⟩
    · exact InOrder.names_nodup h.groups (fun p hp => (h.group p hp).1) hgp

/-! ## Completing tables -/

/-- The groups of a table that list a user. -/
def listing (groups : Keyed Json Group) (user : Json) : List Json :=
  (groups.values.filter (·.members.contains user)).map (·.name)

theorem user?_reindexed_eq {name : Json} :
    a.reindexed.user? name = (a.user? name).map fun u => { u with groups := listing a.groups u.name } :=
  @Keyed.get?_map Json User User _ (fun u => { u with groups := listing a.groups u.name }) name a.users

theorem reindexed_reindexed : a.reindexed.reindexed = a.reindexed := by
  unfold reindexed Keyed.mapValues
  simp only [List.map_map, Function.comp_def]

theorem reindexed_keys : a.reindexed.users.keys = a.users.keys := by
  unfold reindexed Keyed.mapValues Keyed.keys
  simp only [List.map_map, Function.comp_def]

theorem InOrder.reindexed (h : a.InOrder) : a.reindexed.InOrder where
  users := reindexed_keys.symm ▸ h.users
  user p hp := by
    obtain ⟨q, hq, rfl⟩ := List.mem_map.1 hp
    obtain ⟨hname, hplain⟩ := h.user q hq
    exact ⟨hname, hplain.name, hplain.uid, hplain.gid, hplain.fullName, hplain.passwordDigest, hplain.passwordHint,
      hplain.home, hplain.shell⟩
  groups := h.groups
  group := h.group
  root := by
    have hroot := h.root
    unfold Keyed.has at hroot ⊢
    rw [show a.reindexed.users.get? rootName = _ from user?_reindexed_eq, Option.isSome_map]
    exact hroot
  system := h.system
  apart g hg hhas := by
    refine h.apart g hg ?_
    unfold Keyed.has at hhas ⊢
    rwa [show a.reindexed.users.get? (.str g.1) = _ from user?_reindexed_eq, Option.isSome_map] at hhas

theorem completed_of (hroot : a.users.has rootName = true) (hsystem : ∀ g ∈ systemGroups, a.groups.has (.str g.1) = true) :
    a.completed = a.reindexed := by
  have hfold : ∀ {gs : List (String × Int)} {t : Keyed Json Group}, (∀ g ∈ gs, t.has (.str g.1) = true) →
      gs.foldl (fun t g => if t.has g.1 then t else t.put g.1 { name := g.1, gid := .int g.2 }) t = t := by
    intro gs
    induction gs with
    | nil => exact fun _ => rfl
    | cons g gs ih =>
      intro t h
      rw [List.foldl_cons, if_pos (h g (List.mem_cons_self ..)), ih fun x hx => h x (List.mem_cons_of_mem _ hx)]
  unfold completed
  rw [if_pos hroot, hfold hsystem]

theorem listing_perm {G : Keyed Json Group} {user : Json} (hgroup : ∀ x ∈ a.groups.values, x.Plain)
    (hG : G.Perm (a.groups.map fun p => (p.1, p.2.stored))) : (listing a.groups user).Perm (listing G user) := by
  have hvalues : G.values.Perm (a.groups.values.map Group.stored) := by
    have h := hG.map Prod.snd
    rw [List.map_map] at h
    unfold Keyed.values
    rw [List.map_map]
    exact h
  have hsame : ∀ x ∈ a.groups.values, x.stored.members.contains user = x.members.contains user := fun x hx => by
    rw [Bool.eq_iff_iff, List.contains_iff_mem, List.contains_iff_mem]
    exact (hgroup x hx).back.2.1.mem_iff
  have hfilter : (a.groups.values.map Group.stored).filter (·.members.contains user) =
      (a.groups.values.filter (·.members.contains user)).map Group.stored := by
    rw [List.filter_map]
    exact congrArg _ (List.filter_congr hsame)
  have hperm := (hvalues.filter (·.members.contains user)).map (·.name)
  rw [hfilter, List.map_map] at hperm
  exact hperm.symm

/-- What is read back of the records of some tables: users without their groups, groups with their members in
order, both listed in any order. -/
structure ReadBack (a b : Accounts) : Prop where
  users : b.users.Perm (a.users.map fun p => (p.1, { p.2 with groups := [] }))
  groups : b.groups.Perm (a.groups.map fun p => (p.1, p.2.stored))

theorem InOrder.readBack_users (h : a.InOrder) : (Keyed.keys (a.users.map fun p => (p.1, { p.2 with groups := [] }))).Nodup := by
  unfold Keyed.keys
  rw [List.map_map]
  exact h.users

theorem InOrder.readBack_groups (h : a.InOrder) : (Keyed.keys (a.groups.map fun p => (p.1, p.2.stored))).Nodup := by
  unfold Keyed.keys
  rw [List.map_map]
  exact h.groups

theorem ReadBack.user? (hb : ReadBack a b) (h : a.InOrder) (name : Json) :
    b.user? name = (a.user? name).map fun u => { u with groups := [] } :=
  (Keyed.get?_perm hb.users.symm h.readBack_users name).symm.trans
    (Keyed.get?_map (f := fun u : User => { u with groups := [] }))

theorem ReadBack.group? (hb : ReadBack a b) (h : a.InOrder) (name : Json) : b.group? name = (a.group? name).map Group.stored :=
  (Keyed.get?_perm hb.groups.symm h.readBack_groups name).symm.trans Keyed.get?_map

theorem ReadBack.inOrder (hb : ReadBack a b) (h : a.InOrder) : b.InOrder where
  users := (hb.users.map Prod.fst).nodup_iff.2 h.readBack_users
  user p hp := by
    obtain ⟨q, hq, rfl⟩ := List.mem_map.1 (hb.users.mem_iff.1 hp)
    obtain ⟨hname, hplain⟩ := h.user q hq
    exact ⟨hname, hplain.name, hplain.uid, hplain.gid, hplain.fullName, hplain.passwordDigest, hplain.passwordHint,
      hplain.home, hplain.shell⟩
  groups := (hb.groups.map Prod.fst).nodup_iff.2 h.readBack_groups
  group p hp := by
    obtain ⟨q, hq, rfl⟩ := List.mem_map.1 (hb.groups.mem_iff.1 hp)
    obtain ⟨hname, hplain⟩ := h.group q hq
    exact ⟨hname, hplain.stored⟩
  root := by
    have hroot := h.root
    unfold Keyed.has at hroot ⊢
    rw [show b.users.get? rootName = _ from hb.user? h rootName, Option.isSome_map]
    exact hroot
  system g hg := by
    have hsystem := h.system g hg
    unfold Keyed.has at hsystem ⊢
    rw [show b.groups.get? (.str g.1) = _ from hb.group? h (.str g.1), Option.isSome_map]
    exact hsystem
  apart g hg hhas := by
    refine h.apart g hg ?_
    unfold Keyed.has at hhas ⊢
    rwa [show b.users.get? (.str g.1) = _ from hb.user? h (.str g.1), Option.isSome_map] at hhas

/-- Once they are indexed again, tables that are read back are the same as before. -/
theorem ReadBack.same (hb : ReadBack a b) (h : a.InOrder) (hi : a.Indexed) : a.Same b.reindexed := by
  have hgroup : ∀ x ∈ a.groups.values, x.Plain := fun x hx => by
    obtain ⟨p, hp, rfl⟩ := List.mem_map.1 hx
    exact (h.group p hp).2
  refine ⟨fun name => ?_, fun name => ?_⟩
  · -- the groups of a user are those that list it, before and after
    have hself : a.user? name = (a.user? name).map fun u => { u with groups := listing a.groups u.name } := by
      rw [← user?_reindexed_eq, hi]
    rw [user?_reindexed_eq, hb.user? h, Option.map_map]
    rcases hu : a.user? name with _ | u
    · exact .none
    · rw [hu] at hself
      have hgroups : u.groups = listing a.groups u.name := congrArg User.groups (Option.some.inj hself)
      refine .some ⟨rfl, ?_⟩
      rw [hgroups]
      exact listing_perm hgroup hb.groups
  · rw [show b.reindexed.group? name = _ from hb.group? h name]
    rcases hx : a.group? name with _ | x
    · exact .none
    · have hplain : x.Plain := hgroup x (List.mem_map.2 ⟨(name, x), (Keyed.get?_iff_mem h.groups).1 hx, rfl⟩)
      exact .some ⟨rfl, rfl, hplain.back.2.1.symm⟩

/-- Tables in order that are completed after they have been read back are the same as before. -/
theorem InOrder.same_completed (h : a.InOrder) (hi : a.Indexed) {us : List User} {gs : List Group} (hus : us.Perm a.users.values)
    (hgs : gs.Perm a.groups.values) (hb : b = completed {
      users := us.map fun u => (u.name, { u with groups := [] }), groups := gs.map fun x => (x.name, x.stored) }) :
    a.Same b ∧ b.InOrder ∧ b.Indexed := by
  have hread : ReadBack a {
      users := us.map fun u => (u.name, { u with groups := [] }), groups := gs.map fun x => (x.name, x.stored) } :=
    ⟨entries_perm (fun p hp => (h.user p hp).1) hus fun u => { u with groups := [] },
      entries_perm (fun p hp => (h.group p hp).1) hgs Group.stored⟩
  have horder := hread.inOrder h
  rw [hb.trans (completed_of horder.root horder.system)]
  exact ⟨hread.same h hi, horder.reindexed, reindexed_reindexed⟩

end Accounts

end SimUnix
