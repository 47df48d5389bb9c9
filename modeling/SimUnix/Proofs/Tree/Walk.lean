/-
What the ways through a tree in order meet. A walk down from a node yields every node below it once;
the chain of parents yields every node above it; and the size of the arena is fuel enough for both.
-/
import SimUnix.Proofs.Action
import SimUnix.Proofs.Tree.Linked
import Mathlib.Data.List.Nodup
import Mathlib.Data.List.Perm.Subperm

namespace SimUnix.Tree

variable {t : Tree} {n m p : Node} {a b c : NodeId}

open Skeleton

/-! ## Children and parents -/

theorem node_ok : t.node a = .ok n ↔ t.get? a = some n := by
  unfold Tree.node
  cases h : t.get? a with
  | none => simp
  | some m => simp

/-- A child of a node, in terms of nodes. -/
theorem Linked.above_iff (h : Linked t) (hn : t.get? a = some n) : t.skeleton.Above a c ↔ c ∈ n.children := by
  have hx : t.skeleton a = some n.joint := skeleton_some.2 ⟨n, hn, rfl⟩
  constructor
  · intro hab
    obtain ⟨y, hy, hm⟩ := h.forest.mem_of_above hab
    rw [hx] at hy
    cases hy
    exact hm
  · exact fun hm => h.forest.above_of_mem hx hm

theorem present_of_above (hab : t.skeleton.Above a c) : ∃ m, t.get? c = some m := by
  obtain ⟨x, hx, -⟩ := hab
  obtain ⟨m, hm, -⟩ := skeleton_some.1 hx
  exact ⟨m, hm⟩

/-- A node names the one above it as its parent. -/
theorem parent_of_above (hn : t.get? a = some n) {b : NodeId} (hab : t.skeleton.Above b a) : n.parent = b := by
  obtain ⟨y, hy, hup, -⟩ := hab
  obtain ⟨m, hm, rfl⟩ := skeleton_some.1 hy
  cases hn.symm.trans hm
  exact hup

theorem present_of_under (hn : t.get? a = some n) (hu : t.skeleton.Under a c) :
    ∃ m, t.get? c = some m := by
  rcases Relation.ReflTransGen.cases_tail hu with rfl | ⟨q, -, hq⟩
  · exact ⟨n, hn⟩
  · exact present_of_above hq

theorem Linked.present_above (h : Linked t) (hab : t.skeleton.Above a c) : ∃ n, t.get? a = some n ∧ c ∈ n.children := by
  obtain ⟨y, hy, hm⟩ := h.forest.mem_of_above hab
  obtain ⟨n, hn, rfl⟩ := skeleton_some.1 hy
  exact ⟨n, hn, hm⟩

/-- In a tree in order the children of a node are all there. -/
theorem Linked.childrenOf_ok (h : Linked t) (hn : t.get? a = some n) :
    ∃ cs, t.childrenOf n = .ok cs ∧ cs.map Node.id = n.children ∧ ∀ c ∈ cs, t.get? c.id = some c := by
  have hall : ∀ k ∈ n.children, ∃ m, t.get? k = some m := by
    intro k hk
    exact present_of_above ((h.above_iff hn).2 hk)
  unfold Tree.childrenOf
  generalize n.children = ks at hall
  induction ks with
  | nil => exact ⟨[], rfl, rfl, by simp⟩
  | cons k ks ih =>
    obtain ⟨m, hm⟩ := hall k (List.mem_cons_self ..)
    obtain ⟨cs, hcs, hids, hget⟩ := ih fun j hj => hall j (List.mem_cons_of_mem _ hj)
    refine ⟨m :: cs, ?_, by simp [hids, h.id_eq hm], ?_⟩
    · rw [List.mapM_cons, node_ok.2 hm, hcs]
      rfl
    · intro c hc
      rcases List.mem_cons.1 hc with rfl | hc
      · exact h.get_self hm
      · exact hget c hc

theorem Linked.parentOf_iff (h : Linked t) (hn : t.get? a = some n) :
    t.parentOf? n = some p ↔ t.get? p.id = some p ∧ t.skeleton.Above p.id a := by
  have hx : t.skeleton a = some n.joint := skeleton_some.2 ⟨n, hn, rfl⟩
  unfold Tree.parentOf?
  constructor
  · intro hp
    split at hp
    · cases hp
    · rename_i hne
      have hid : p.id = n.parent := h.id_eq hp
      refine ⟨h.get_self hp, n.joint, hx, hid.symm, ?_⟩
      rw [hid]
      exact hne
  · rintro ⟨hp, x, hx', hpar, hne⟩
    rw [hx] at hx'
    cases hx'
    have hpar : n.parent = p.id := hpar
    rw [hpar, if_neg hne, hp]

theorem Linked.parentOf_none (h : Linked t) (hn : t.get? a = some n) :
    t.parentOf? n = none ↔ t.skeleton.Loose a := by
  have hx : t.skeleton a = some n.joint := skeleton_some.2 ⟨n, hn, rfl⟩
  constructor
  · intro hp
    refine ⟨n.joint, hx, ?_⟩
    by_contra hne
    obtain ⟨y, hy, -⟩ := h.forest.up hx hne
    obtain ⟨q, hq, -⟩ := skeleton_some.1 hy
    have hq : t.get? n.parent = some q := hq
    have hne : n.parent ≠ .null := hne
    unfold Tree.parentOf? at hp
    rw [if_neg hne, hq] at hp
    cases hp
  · rintro ⟨x, hx', h0⟩
    rw [hx] at hx'
    cases hx'
    have h0 : n.parent = .null := h0
    unfold Tree.parentOf?
    rw [if_pos h0]

/-! ## Walks down -/

/-- The ids of some nodes. -/
def idsOf (nodes : List Node) : List NodeId := nodes.map Node.id

/-- The ids of a walk from a node: those below it, each once. -/
structure Covers (t : Tree) (a : NodeId) (nodes : List Node) : Prop where
  mem : ∀ b, b ∈ idsOf nodes ↔ t.skeleton.Under a b
  once : (idsOf nodes).Nodup
  get : ∀ m ∈ nodes, t.get? m.id = some m

/-- Siblings have nothing below them in common. -/
theorem Linked.apart (h : Linked t) (ha : t.skeleton.Above a b) (hc : t.skeleton.Above a c) (hne : b ≠ c)
    {d : NodeId} (hb : t.skeleton.Under b d) : ¬ t.skeleton.Under c d := by
  have key : ∀ {b c}, t.skeleton.Above a b → t.skeleton.Above a c → b ≠ c → ¬ t.skeleton.Under b c := by
    intro b c ha hc hne hu
    rcases Relation.ReflTransGen.cases_tail hu with rfl | ⟨q, hq, hqc⟩
    · exact hne rfl
    · exact h.forest.not_above_under ha (hqc.unique hc ▸ hq)
  intro hcd
  rcases Under.total hb hcd with hu | hu
  · exact key ha hc hne hu
  · exact key hc ha hne.symm hu

/-- Walks from siblings, put together. -/
theorem Linked.covers_siblings (h : Linked t) {cs : List Node} {walks : List (List Node)}
    (hw : List.Forall₂ (fun c l => Covers t c.id l) cs walks) (hc : ∀ c ∈ cs, t.skeleton.Above a c.id)
    (hnd : (idsOf cs).Nodup) :
    (∀ b, b ∈ idsOf walks.flatten ↔ ∃ c ∈ cs, t.skeleton.Under c.id b) ∧ (idsOf walks.flatten).Nodup ∧
      ∀ m ∈ walks.flatten, t.get? m.id = some m := by
  induction hw with
  | nil => exact ⟨by simp [idsOf], by simp [idsOf], by simp⟩
  | @cons c l cs walks hcl _ ih =>
    obtain ⟨hmem, hnodup, hget⟩ := ih (fun d hd => hc d (List.mem_cons_of_mem _ hd)) (List.nodup_cons.1 hnd).2
    have happ : idsOf (l :: walks).flatten = idsOf l ++ idsOf walks.flatten := by
      simp [idsOf]
    refine ⟨?_, ?_, ?_⟩
    · intro b
      rw [happ, List.mem_append, hcl.mem, hmem]
      simp
    · rw [happ]
      refine List.nodup_append.2 ⟨hcl.once, hnodup, ?_⟩
      rintro d hd e he rfl
      obtain ⟨c', hc', hu⟩ := (hmem d).1 he
      have hne : c.id ≠ c'.id := by
        intro heq
        exact (List.nodup_cons.1 hnd).1 (heq ▸ List.mem_map_of_mem hc')
      exact h.apart (hc c (List.mem_cons_self ..)) (hc c' (List.mem_cons_of_mem _ hc')) hne ((hcl.mem d).1 hd) hu
    · intro m hm
      rw [List.flatten_cons] at hm
      rcases List.mem_append.1 hm with hm | hm
      · exact hcl.get m hm
      · exact hget m hm

/-- A walk that comes to an end has met everything below its start, and everything once. -/
theorem Linked.covers_of_walkDown (h : Linked t) :
    ∀ {depth : Nat} {n : Node} {nodes : List Node}, t.get? n.id = some n → t.walkDown depth n = .ok nodes →
      Covers t n.id nodes
  | 0, n, nodes, _, hw => by
    unfold Tree.walkDown at hw
    cases hw
  | depth + 1, n, nodes, hn, hw => by
    unfold Tree.walkDown at hw
    obtain ⟨cs, hcs, hw⟩ := bind_ok.1 hw
    obtain ⟨walks, hwalks, hw⟩ := bind_ok.1 hw
    cases hw
    obtain ⟨cs', hcs', hids, hget⟩ := h.childrenOf_ok hn
    rw [hcs] at hcs'
    cases hcs'
    have habove : ∀ c ∈ cs, t.skeleton.Above n.id c.id := by
      intro c hc
      exact (h.above_iff hn).2 (hids ▸ List.mem_map_of_mem hc)
    have hnd : (idsOf cs).Nodup := by
      have hx : t.skeleton n.id = some n.joint := skeleton_some.2 ⟨n, hn, rfl⟩
      have hnodup : n.children.Nodup := h.forest.once hx
      unfold idsOf
      rw [hids]
      exact hnodup
    have hcov : List.Forall₂ (fun c l => Covers t c.id l) cs walks := by
      refine (List.forall₂_and_left _ _).2 ⟨hget, mapM_ok.1 hwalks⟩ |>.imp ?_
      rintro c l ⟨hc, hl⟩
      exact h.covers_of_walkDown hc hl
    obtain ⟨hmem, hnodup, hgets⟩ := h.covers_siblings hcov habove hnd
    have hcons : idsOf (n :: walks.flatten) = n.id :: idsOf walks.flatten := rfl
    refine ⟨?_, ?_, ?_⟩
    · intro b
      rw [hcons, List.mem_cons, hmem]
      constructor
      · rintro (rfl | ⟨c, hc, hu⟩)
        · exact .refl
        · exact Relation.ReflTransGen.head (habove c hc) hu
      · intro hu
        rcases Relation.ReflTransGen.cases_head hu with rfl | ⟨k, hk, hu⟩
        · exact .inl rfl
        · have hk := (h.above_iff hn).1 hk
          rw [← hids] at hk
          obtain ⟨c, hc, rfl⟩ := List.mem_map.1 hk
          exact .inr ⟨c, hc, hu⟩
    · rw [hcons, List.nodup_cons]
      refine ⟨?_, hnodup⟩
      rw [hmem]
      rintro ⟨c, hc, hu⟩
      exact h.forest.not_above_under (habove c hc) hu
    · intro m hm
      rcases List.mem_cons.1 hm with rfl | hm
      · exact hn
      · exact hgets m hm

/-! ## Fuel -/

/-- As many different ids as there are nodes at most have a node above or below them. -/
theorem Linked.length_le {visited : List NodeId} (hnd : visited.Nodup)
    (hin : ∀ v ∈ visited, ∃ m, t.get? v = some m) : visited.length ≤ t.size := by
  have hsub : visited ⊆ t.nodes.keys := fun v hv => mem_keys_iff.2 (hin v hv)
  have hle : visited.length ≤ t.nodes.keys.length := (List.subperm_of_subset hnd hsub).length_le
  have hlen : t.nodes.keys.length = t.size := List.length_map ..
  omega

theorem Linked.chain_sound (h : Linked t) :
    ∀ {count : Nat} {n m : Node}, t.get? n.id = some n → m ∈ t.chain count n →
      t.get? m.id = some m ∧ t.skeleton.Under m.id n.id
  | 0, n, m, _, hm => by
    unfold Tree.chain at hm
    cases hm
  | count + 1, n, m, hn, hm => by
    unfold Tree.chain at hm
    rcases List.mem_cons.1 hm with rfl | hm
    · exact ⟨hn, .refl⟩
    · split at hm
      · cases hm
      · rename_i p hp
        obtain ⟨hget, hab⟩ := (h.parentOf_iff hn).1 hp
        obtain ⟨hmget, hu⟩ := h.chain_sound hget hm
        exact ⟨hmget, hu.tail hab⟩

/-- With fuel enough the chain of parents meets every node above its start and ends at one without
a parent. -/
theorem Linked.chain_complete (h : Linked t) :
    ∀ (count : Nat) (visited : List NodeId) {n : Node}, t.get? n.id = some n → visited.Nodup →
      (∀ v ∈ visited, Relation.TransGen t.skeleton.Above n.id v) → t.size < count + visited.length →
      (∀ a, t.skeleton.Under a n.id → a ∈ idsOf (t.chain count n)) ∧
        ∃ r, (t.chain count n).getLast? = some r ∧ t.get? r.id = some r ∧ t.skeleton.Loose r.id
  | 0, visited, n, _, hnd, hv, hlt => by
    have hin : ∀ v ∈ visited, ∃ m, t.get? v = some m := by
      intro v hm
      obtain ⟨c, -, hc⟩ := Relation.TransGen.tail'_iff.1 (hv v hm)
      exact present_of_above hc
    have hle := length_le hnd hin
    omega
  | count + 1, visited, n, hn, hnd, hv, hlt => by
    unfold Tree.chain
    rcases hp : t.parentOf? n with _ | p
    · have hl := (h.parentOf_none hn).1 hp
      refine ⟨fun a ha => ?_, n, rfl, hn, hl⟩
      rw [hl.eq_of_under ha]
      simp [idsOf]
    · obtain ⟨hget, hab⟩ := (h.parentOf_iff hn).1 hp
      have hnew : n.id ∉ visited := fun hm => (h.forest.grounded.transGen).irrefl.irrefl _ (hv _ hm)
      have hv' : ∀ v ∈ n.id :: visited, Relation.TransGen t.skeleton.Above p.id v := by
        intro v hm
        rcases List.mem_cons.1 hm with rfl | hm
        · exact .single hab
        · exact .head hab (hv v hm)
      obtain ⟨hall, r, hr, hrget, hrl⟩ := h.chain_complete count (n.id :: visited) hget (List.nodup_cons.2 ⟨hnew, hnd⟩) hv'
        (by simp only [List.length_cons]; omega)
      refine ⟨fun a ha => ?_, r, ?_, hrget, hrl⟩
      · rcases Relation.ReflTransGen.cases_tail ha with heq | ⟨q, hq, hqn⟩
        · rw [← heq]
          simp [idsOf]
        · exact List.mem_cons_of_mem _ (hall a (hqn.unique hab ▸ hq))
      · simp only
        rw [List.getLast?_cons, hr]
        rfl

theorem Linked.mem_lineage (h : Linked t) (hn : t.get? n.id = some n) :
    a ∈ idsOf (t.lineage n) ↔ t.skeleton.Under a n.id := by
  constructor
  · intro hm
    obtain ⟨m, hin, rfl⟩ := List.mem_map.1 hm
    exact (h.chain_sound hn hin).2
  · exact (h.chain_complete (t.size + 1) [] hn List.nodup_nil (by simp) (by simp)).1 a

/-- The chain of parents ends at a node without a parent. -/
theorem Linked.lineage_last (h : Linked t) (hn : t.get? n.id = some n) :
    ∃ r, (t.lineage n).getLast? = some r ∧ t.get? r.id = some r ∧ t.skeleton.Loose r.id :=
  (h.chain_complete (t.size + 1) [] hn List.nodup_nil (by simp) (by simp)).2

theorem Linked.isAncestor_iff (h : Linked t) (hn : t.get? n.id = some n) :
    t.isAncestor m n = true ↔ t.skeleton.Under m.id n.id := by
  rw [← h.mem_lineage hn]
  unfold Tree.isAncestor idsOf
  rw [List.any_eq_true, List.mem_map]
  constructor
  · rintro ⟨x, hx, he⟩
    exact ⟨x, hx, beq_iff_eq.1 he⟩
  · rintro ⟨x, hx, he⟩
    exact ⟨x, hx, beq_iff_eq.2 he⟩

end SimUnix.Tree
