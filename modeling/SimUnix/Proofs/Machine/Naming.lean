/-
Names for what comes into a directory in which its own name is taken. One name after the other is tried, from the second
one on with a number, until no child has it. All names that are tried differ, so that the search is over after at most one
round for each child; and the name that it ends with is the first one that is free.
-/
import SimUnix.Machine.Relocation
import SimUnix.Proofs.Tree.Path
import SimUnix.Proofs.Tree.Walk

namespace SimUnix

namespace Tree

variable {t : Tree} {dir c : Node} {name : Json} {e : Fault} {ids : List NodeId} {children : List Node}

/-! ## Looking names up -/

/-- What is found under a name is listed and has the name. -/
theorem firstNamed_some : ∀ {ids : List NodeId}, t.firstNamed name ids = .ok (some c) → ∃ a ∈ ids, t.get? a = some c ∧ c.name = name
  | [], h => by cases h
  | a :: ids, h => by
    unfold firstNamed at h
    split at h
    · cases h
    · rename_i n hn
      split at h
      · rename_i hname
        cases h
        exact ⟨a, List.mem_cons_self, node_ok.1 hn, hname⟩
      · obtain ⟨b, hb, hfound⟩ := firstNamed_some h
        exact ⟨b, List.mem_cons_of_mem _ hb, hfound⟩

/-- Where everything that is listed is there, the first one of the name is found. -/
theorem firstNamed_eq (h : ids.mapM t.node = .ok children) : t.firstNamed name ids = .ok (children.find? fun c => c.name = name) := by
  have hall := mapM_ok.1 h
  clear h
  induction hall with
  | nil => rfl
  | @cons a c ids children ha _ ih =>
    unfold firstNamed
    rw [ha]
    by_cases hname : c.name = name <;> simp [hname, ih]

/-- Where something is missing, the name is found before it, or the search fails at it. -/
theorem firstNamed_broken : ∀ {ids : List NodeId}, ids.mapM t.node = .error e →
    t.firstNamed name ids = .error e ∨ ∃ c, t.firstNamed name ids = .ok (some c)
  | [], h => by cases h
  | a :: ids, h => by
    rw [List.mapM_cons] at h
    unfold firstNamed
    rcases bind_error.1 h with ha | ⟨n, hn, h⟩
    · rw [ha]
      exact .inl rfl
    rw [hn]
    dsimp only
    split
    · exact .inr ⟨n, rfl⟩
    · rcases bind_error.1 h with hids | ⟨children, -, h⟩
      · exact firstNamed_broken hids
      · cases h

/-- Where all children are there, a name is free that none of them has. -/
theorem childNamed_none_iff (h : t.childrenOf dir = .ok children) : t.childNamed dir name = .ok none ↔ name ∉ children.map Node.name := by
  unfold childNamed
  rw [firstNamed_eq h]
  simp

theorem childNamed_some_iff (h : t.childrenOf dir = .ok children) :
    (∃ c, t.childNamed dir name = .ok (some c)) ↔ name ∈ children.map Node.name := by
  unfold childNamed
  rw [firstNamed_eq h]
  simp [← Option.isSome_iff_exists]

end Tree

namespace Machine

open Tree

variable {t : Tree} {dir : Node} {base name : String} {names : List Json} {next rounds rounds' j k count : Nat} {r r' : Except Fault String}
  {e : Fault} {children : List Node}

/-! ## Candidates -/

theorem candidate_numbered (hk : 2 ≤ k) : candidate base k = s!"{base} {k}" := if_neg (by omega)

theorem candidate_inj (hj : 1 ≤ j) (hk : 1 ≤ k) (h : candidate base j = candidate base k) : j = k := by
  have hnumbered : ∀ i : Nat, s!"{base} {i}" = base ++ (" " ++ toString i) := by
    intro i
    exact String.append_assoc ..
  have hlonger : ∀ i : Nat, base ≠ s!"{base} {i}" := by
    intro i he
    have hlen := congrArg String.length he
    rw [hnumbered, String.length_append, String.length_append] at hlen
    have hblank : " ".length = 1 := rfl
    omega
  unfold candidate at h
  split at h <;> split at h
  · omega
  · exact absurd h (hlonger k)
  · exact absurd h.symm (hlonger j)
  · rw [hnumbered, hnumbered, String.append_right_inj, String.append_right_inj] at h
    exact toString_inj h

/-- A name that may be given may be given with a number, too. -/
theorem candidate_valid (h : Path.validName base = true) (k : Nat) : Path.validName (candidate base k) = true := by
  unfold candidate
  split
  · exact h
  · have hdigits : '/' ∉ (toString k).toList := fun hm => by
      rw [Nat.toString_eq_ofList_toDigits, String.toList_ofList] at hm
      have hdigit := Nat.isDigit_of_mem_toDigits (by decide) (by decide) hm
      revert hdigit
      decide
    show Path.validName (base ++ " " ++ toString k) = true
    rw [String.append_assoc]
    refine Path.validName_append h ?_ ?_ <;> simp only [String.toList_append, List.mem_append]
    · rintro (hm | hm)
      · revert hm
        decide
      · exact hdigits hm
    · exact .inl (by decide)

/-- A child of a directory has a name. -/
def Taken (t : Tree) (dir : Node) (name : String) : Prop := ∃ c, t.childNamed dir name = .ok (some c)

/-- A directory has too few children to take more candidates than there are. -/
theorem taken_le_children (hk : 1 ≤ k) (htaken : ∀ j, k ≤ j → j < k + count → Taken t dir (candidate base j)) : count ≤ dir.children.length := by
  let tried : List (Option Json) := (List.range' k count).map fun j => some (.str (candidate base j))
  have hnd : tried.Nodup := by
    refine List.Nodup.map_on (fun i hi j hj he => ?_) List.nodup_range'
    have hi := (List.mem_range'_1.1 hi).1
    have hj := (List.mem_range'_1.1 hj).1
    exact candidate_inj (hk.trans hi) (hk.trans hj) (Json.str.inj (Option.some.inj he))
  have hsub : tried ⊆ dir.children.map fun a => (t.get? a).map Node.name := by
    intro x hx
    obtain ⟨j, hj, rfl⟩ := List.mem_map.1 hx
    obtain ⟨hlo, hhi⟩ := List.mem_range'_1.1 hj
    obtain ⟨c, hc⟩ := htaken j hlo hhi
    obtain ⟨a, ha, hget, hname⟩ := firstNamed_some hc
    exact List.mem_map.2 ⟨a, ha, by rw [hget, ← hname]; rfl⟩
  have hlen := (List.subperm_of_subset hnd hsub).length_le
  simpa [tried] using hlen

/-! ## The search -/

/-- The search for a free name, with what it goes by: the name that is tried, and the number that the next one gets. After
some rounds it ends with a name, or with the fault of a child that is not there. -/
inductive Seeks (t : Tree) (dir : Node) (base : String) : String → Nat → Nat → Except Fault String → Prop
  | free {name : String} {next : Nat} (found : t.childNamed dir name = .ok none) : Seeks t dir base name next 0 (.ok name)
  | broken {name : String} {next : Nat} {e : Fault} (found : t.childNamed dir name = .error e) :
      Seeks t dir base name next 0 (.error e)
  | again {name : String} {next rounds : Nat} {r : Except Fault String} (taken : Taken t dir name)
      (rest : Seeks t dir base s!"{base} {next}" (next + 1) rounds r) : Seeks t dir base name next (rounds + 1) r

/-- The search leaves nothing to choose. -/
theorem Seeks.unique (h : Seeks t dir base name next rounds r) (h' : Seeks t dir base name next rounds' r') :
    rounds' = rounds ∧ r' = r := by
  induction h generalizing rounds' with
  | free found =>
    cases h' with
    | free => exact ⟨rfl, rfl⟩
    | broken found' => cases found.symm.trans found'
    | again taken =>
      obtain ⟨c, hc⟩ := taken
      cases found.symm.trans hc
  | broken found =>
    cases h' with
    | free found' => cases found.symm.trans found'
    | broken found' =>
      cases found.symm.trans found'
      exact ⟨rfl, rfl⟩
    | again taken =>
      obtain ⟨c, hc⟩ := taken
      cases found.symm.trans hc
  | again taken _ ih =>
    obtain ⟨c, hc⟩ := taken
    cases h' with
    | free found => cases found.symm.trans hc
    | broken found => cases found.symm.trans hc
    | again _ rest =>
      obtain ⟨hrounds, hr⟩ := ih rest
      exact ⟨congrArg (· + 1) hrounds, hr⟩

/-- Each round is over a candidate that is taken, and the search ends at the first one that is not. -/
theorem Seeks.tries (hk : 1 ≤ k) (h : Seeks t dir base (candidate base k) (k + 1) rounds r) :
    (∀ j, k ≤ j → j < k + rounds → Taken t dir (candidate base j)) ∧
      (r = .ok (candidate base (k + rounds)) ∧ t.childNamed dir (candidate base (k + rounds)) = .ok none ∨
        ∃ e, r = .error e ∧ t.childNamed dir (candidate base (k + rounds)) = .error e) := by
  induction rounds generalizing k with
  | zero =>
    refine ⟨fun j hj hlt => by omega, ?_⟩
    cases h with
    | free found => exact .inl ⟨rfl, found⟩
    | broken found => exact .inr ⟨_, rfl, found⟩
  | succ rounds ih =>
    cases h with
    | again taken rest =>
      rw [← candidate_numbered (by omega)] at rest
      obtain ⟨htaken, hlast⟩ := ih (by omega) rest
      rw [show k + (rounds + 1) = k + 1 + rounds by omega]
      refine ⟨fun j hj hlt => ?_, hlast⟩
      by_cases hjk : j = k
      · exact hjk ▸ taken
      · exact htaken j (by omega) hlt

/-- The search is over after at most one round for each child. -/
theorem Seeks.rounds_le (h : Seeks t dir base base 2 rounds r) : rounds ≤ dir.children.length :=
  taken_le_children (Nat.le_refl 1) (h.tries (k := 1) (Nat.le_refl 1)).1

/-- Trying some candidates is the search, unless all of them are taken. -/
theorem seeks_freeName : ∀ {count k : Nat}, 1 ≤ k → (∃ rounds, Seeks t dir base (candidate base k) (k + 1) rounds (freeName t dir base count k)) ∨
    ∀ j, k ≤ j → j < k + count → Taken t dir (candidate base j)
  | 0, k, _ => .inr fun j hj hlt => by omega
  | count + 1, k, hk => by
    unfold freeName
    rcases hfound : t.childNamed dir (candidate base k) with e | _ | c
    · exact .inl ⟨0, .broken hfound⟩
    · exact .inl ⟨0, .free hfound⟩
    · have htaken : Taken t dir (candidate base k) := ⟨c, hfound⟩
      have hnext : (∃ rounds, Seeks t dir base (candidate base (k + 1)) (k + 2) rounds (freeName t dir base count (k + 1))) ∨ _ :=
        seeks_freeName (by omega)
      rcases hnext with ⟨rounds, hrest⟩ | hall
      · rw [candidate_numbered (by omega)] at hrest
        exact .inl ⟨rounds + 1, .again htaken hrest⟩
      · refine .inr fun j hj hlt => ?_
        by_cases hjk : j = k
        · exact hjk ▸ htaken
        · exact hall j (by omega) (by omega)

/-- The search ends, and it ends with the name that is given. -/
theorem seeks_uniqueName (t : Tree) (dir : Node) (base : String) : ∃ rounds, Seeks t dir base base 2 rounds (uniqueName t dir base) := by
  refine (seeks_freeName (k := 1) (Nat.le_refl 1)).resolve_right fun hall => ?_
  have hle : dir.children.length + 1 ≤ dir.children.length := taken_le_children (Nat.le_refl 1) hall
  omega

/-! ## The first free name -/

/-- The first of the names for a base that none of some names is: the base itself, or the base with the least number from two
on. -/
inductive FirstFree (names : List Json) (base : String) : String → Prop
  | plain (free : .str base ∉ names) : FirstFree names base base
  | numbered {k : Nat} (taken : .str base ∈ names) (two : 2 ≤ k) (free : .str s!"{base} {k}" ∉ names)
      (least : ∀ j, 2 ≤ j → j < k → .str s!"{base} {j}" ∈ names) : FirstFree names base s!"{base} {k}"

/-- The first free name is the first candidate that is not taken. -/
theorem firstFree_candidate (hk : 1 ≤ k) (hfree : .str (candidate base k) ∉ names)
    (htaken : ∀ j, 1 ≤ j → j < k → .str (candidate base j) ∈ names) : FirstFree names base (candidate base k) := by
  by_cases hone : k = 1
  · subst hone
    exact .plain hfree
  · rw [candidate_numbered (by omega)] at hfree ⊢
    refine .numbered (htaken 1 (Nat.le_refl 1) (by omega)) (by omega) hfree fun j hj hlt => ?_
    rw [← candidate_numbered hj]
    exact htaken j (by omega) hlt

theorem FirstFree.exists_candidate (h : FirstFree names base name) : ∃ k, name = candidate base k := by
  cases h with
  | plain => exact ⟨1, rfl⟩
  | numbered _ two => exact ⟨_, (candidate_numbered two).symm⟩

theorem FirstFree.free (h : FirstFree names base name) : .str name ∉ names := by
  cases h <;> assumption

/-- Where all children of a directory are there, the search gives the first name that none of them has. -/
theorem uniqueName_firstFree (h : t.childrenOf dir = .ok children) (base : String) :
    ∃ name, uniqueName t dir base = .ok name ∧ FirstFree (children.map Node.name) base name := by
  obtain ⟨rounds, hseeks⟩ := seeks_uniqueName t dir base
  obtain ⟨htaken, ⟨hr, hfree⟩ | ⟨e, -, hfault⟩⟩ := hseeks.tries (k := 1) (Nat.le_refl 1)
  · refine ⟨_, hr, firstFree_candidate (by omega) ((childNamed_none_iff h).1 hfree) fun j hj hlt => ?_⟩
    exact (childNamed_some_iff h).1 (htaken j hj hlt)
  · unfold childNamed at hfault
    rw [firstNamed_eq h] at hfault
    cases hfault

/-- Where one is missing, the search fails at it. -/
theorem uniqueName_broken (h : t.childrenOf dir = .error e) (base : String) : uniqueName t dir base = .error e := by
  obtain ⟨rounds, hseeks⟩ := seeks_uniqueName t dir base
  obtain ⟨-, ⟨-, hfree⟩ | ⟨e', hr, hfault⟩⟩ := hseeks.tries (k := 1) (Nat.le_refl 1)
  · rcases firstNamed_broken h with hfault | ⟨c, hc⟩
    · cases hfree.symm.trans hfault
    · cases hfree.symm.trans hc
  · rcases firstNamed_broken h with hfault' | ⟨c, hc⟩
    · cases hfault.symm.trans hfault'
      exact hr
    · cases hfault.symm.trans hc

/-- A search for a name for a base, with what comes of it. It is over after the number of rounds, at most one for each child, and
leaves nothing to choose. Where all children are there it gives the first name that none of them has; where one is missing it
fails at it. -/
structure Searched (t : Tree) (dir : Node) (base : String) (rounds : Nat) : Prop where
  ends : Seeks t dir base base 2 rounds (uniqueName t dir base)
  only : ∀ {rounds' r}, Seeks t dir base base 2 rounds' r → rounds' = rounds ∧ r = uniqueName t dir base
  bounded : rounds ≤ dir.children.length
  first : ∀ {children}, t.childrenOf dir = .ok children →
    ∃ name, uniqueName t dir base = .ok name ∧ FirstFree (children.map Node.name) base name
  broken : ∀ {e}, t.childrenOf dir = .error e → uniqueName t dir base = .error e

theorem searched (t : Tree) (dir : Node) (base : String) : ∃ rounds, Searched t dir base rounds := by
  obtain ⟨rounds, hseeks⟩ := seeks_uniqueName t dir base
  exact ⟨rounds, hseeks, hseeks.unique, hseeks.rounds_le, fun h => uniqueName_firstFree h base, fun h => uniqueName_broken h base⟩

/-- In a tree in order a free name is found in every directory. -/
theorem uniqueName_ok (h : Linked t) (hd : t.get? dir.id = some dir) (base : String) : ∃ name, uniqueName t dir base = .ok name := by
  obtain ⟨children, hchildren, -⟩ := h.childrenOf_ok hd
  obtain ⟨name, hname, -⟩ := uniqueName_firstFree hchildren base
  exact ⟨name, hname⟩

/-- No child of the directory has the name that is found. -/
theorem uniqueName_free (h : Linked t) (hd : t.get? dir.id = some dir) (hu : uniqueName t dir base = .ok name) :
    t.childNamed dir name = .ok none ∧ ∃ k, name = candidate base k := by
  obtain ⟨children, hchildren, -⟩ := h.childrenOf_ok hd
  obtain ⟨name', hname', hfirst⟩ := uniqueName_firstFree hchildren base
  cases hu.symm.trans hname'
  exact ⟨(childNamed_none_iff hchildren).2 hfirst.free, hfirst.exists_candidate⟩

end Machine

end SimUnix
