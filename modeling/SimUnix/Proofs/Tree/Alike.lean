/-
Trees that differ in ids and times only. A pairing tells which id stands for which one; the trees hold nodes
of the same names, kinds, owners, groups, permissions and contents, in the same order, and their links run
between paired ids. What is looked up in both under paired ids is alike, and what is done to both under paired
ids leaves them alike, as long as their supplies give paired ids, too.
-/
import SimUnix.Proofs.Tree.Linked
import Mathlib.Data.List.Forall2

namespace SimUnix

/-! ## Pairings -/

/-- A pairing of ids: none of them has two partners. -/
def Pairing (P : NodeId → NodeId → Prop) : Prop := ∀ ⦃a a' b b' : NodeId⦄, P a a' → P b b' → (a = b ↔ a' = b')

/-- The ids that two supplies give in the same turn. -/
def IdSupply.Turns (ids ids' : IdSupply) (a a' : NodeId) : Prop := ∃ k, a = ids.at (ids.next + k) ∧ a' = ids'.at (ids'.next + k)

theorem IdSupply.pairing_turns (ids ids' : IdSupply) : Pairing (ids.Turns ids') := by
  rintro a a' b b' ⟨j, rfl, rfl⟩ ⟨k, rfl, rfl⟩
  constructor <;> intro h
  · have hjk : j = k := Nat.add_left_cancel (IdSupply.at_inj h)
    rw [hjk]
  · have hjk : j = k := Nat.add_left_cancel (IdSupply.at_inj h)
    rw [hjk]

/-- Two supplies that go on to give paired ids. -/
def IdSupply.InTurn (P : NodeId → NodeId → Prop) (ids ids' : IdSupply) : Prop :=
  ∀ k, P (ids.at (ids.next + k)) (ids'.at (ids'.next + k))

namespace IdSupply

variable {P : NodeId → NodeId → Prop} {ids ids' : IdSupply}

theorem inTurn_turns (ids ids' : IdSupply) : InTurn (ids.Turns ids') ids ids' := fun k => ⟨k, rfl, rfl⟩

theorem InTurn.id (h : InTurn P ids ids') : P ids.id ids'.id := h 0

theorem InTurn.rest (h : InTurn P ids ids') : InTurn P ids.rest ids'.rest := by
  intro k
  have hnext : ∀ ids : IdSupply, ids.rest.at (ids.rest.next + k) = ids.at (ids.next + (k + 1)) := by
    intro ids
    rw [← Nat.succ_add_eq_add_succ]
    rfl
  rw [hnext, hnext]
  exact h (k + 1)

end IdSupply

/-! ## Nodes -/

/-- Two nodes that differ in ids and times only. -/
structure Node.Alike (P : NodeId → NodeId → Prop) (n n' : Node) : Prop where
  id : P n.id n'.id
  name : n'.name = n.name
  kind : n'.kind = n.kind
  owner : n'.owner = n.owner
  group : n'.group = n.group
  permissions : n'.permissions = n.permissions
  content : n'.content = n.content
  children : List.Forall₂ P n.children n'.children
  parent : n.parent = .null ∧ n'.parent = .null ∨ P n.parent n'.parent

/-! ## Trees -/

/-- Two trees that differ in ids and times only. -/
structure Tree.Alike (P : NodeId → NodeId → Prop) (t t' : Tree) : Prop where
  root : P t.rootId t'.rootId
  nodes : List.Forall₂ (fun p p' => P p.1 p'.1 ∧ p.2.Alike P p'.2) t.nodes t'.nodes

/-- Two such trees that will go on to take paired ids. -/
structure Tree.Apace (P : NodeId → NodeId → Prop) (t t' : Tree) : Prop extends t.Alike P t' where
  ids : t.ids.InTurn P t'.ids

namespace Tree

variable {P : NodeId → NodeId → Prop} {t t' : Tree} {n n' m : Node} {a a' p p' : NodeId} {xs xs' : List NodeId}
  {now now' : Time.Stamp} {name : Json}

/-- Trees of nothing but their roots. -/
theorem apace_empty {ids ids' : IdSupply} (h : ids.InTurn P ids') : (Tree.empty ids now).Apace P (Tree.empty ids' now') where
  root := h.id
  nodes := .cons ⟨h.id, h.id, rfl, rfl, rfl, rfl, rfl, rfl, .nil, .inl ⟨rfl, rfl⟩⟩ .nil
  ids := h.rest

/-! ## Looking up -/

theorem Alike.get? (hP : Pairing P) (h : t.Alike P t') (ha : P a a') (hn : t.get? a = some n) :
    ∃ n', t'.get? a' = some n' ∧ n.Alike P n' := by
  unfold Tree.get? Keyed.get? at hn ⊢
  have hnodes := h.nodes
  generalize t.nodes = nodes at hn hnodes
  generalize t'.nodes = nodes' at hnodes ⊢
  induction hnodes with
  | nil => cases hn
  | @cons q q' rest rest' hq hrest ih =>
    obtain ⟨b, m⟩ := q
    obtain ⟨b', m'⟩ := q'
    have hpair : (a == b) = (a' == b') := Bool.eq_iff_iff.2 (by rw [beq_iff_eq, beq_iff_eq]; exact hP ha hq.1)
    rw [List.lookup_cons] at hn ⊢
    rw [← hpair]
    cases hab : a == b with
    | true =>
      rw [hab] at hn
      cases hn
      exact ⟨m', rfl, hq.2⟩
    | false =>
      rw [hab] at hn
      exact ih hn

theorem Alike.node (hP : Pairing P) (h : t.Alike P t') (ha : P a a') (hn : t.node a = .ok n) :
    ∃ n', t'.node a' = .ok n' ∧ n.Alike P n' := by
  unfold Tree.node at hn ⊢
  rcases hget : t.get? a with _ | m <;> rw [hget] at hn <;> cases hn
  obtain ⟨n', hget', halike⟩ := h.get? hP ha hget
  rw [hget']
  exact ⟨n', rfl, halike⟩

theorem Alike.rootNode (hP : Pairing P) (h : t.Alike P t') (hn : t.root = .ok n) : ∃ n', t'.root = .ok n' ∧ n.Alike P n' :=
  h.node hP h.root hn

/-- What goes by a name among paired ids is alike, or there is nothing in both trees. -/
theorem Alike.firstNamed (hP : Pairing P) (h : t.Alike P t') (hx : List.Forall₂ P xs xs') {r : Option Node}
    (hr : t.firstNamed name xs = .ok r) : ∃ r', t'.firstNamed name xs' = .ok r' ∧ Option.Rel (Node.Alike P) r r' := by
  induction hx with
  | nil =>
    cases hr
    exact ⟨none, rfl, .none⟩
  | @cons a a' rest rest' ha hrest ih =>
    unfold Tree.firstNamed at hr ⊢
    rcases hnode : t.node a with e | n <;> rw [hnode] at hr
    · cases hr
    obtain ⟨n', hnode', halike⟩ := h.node hP ha hnode
    rw [hnode']
    dsimp only at hr ⊢
    rw [halike.name]
    by_cases hname : n.name = name
    · rw [if_pos hname] at hr ⊢
      cases hr
      exact ⟨some n', rfl, .some halike⟩
    · rw [if_neg hname] at hr ⊢
      exact ih hr

theorem Alike.childNamed (hP : Pairing P) (h : t.Alike P t') (hn : n.Alike P n') {r : Option Node}
    (hr : t.childNamed n name = .ok r) : ∃ r', t'.childNamed n' name = .ok r' ∧ Option.Rel (Node.Alike P) r r' :=
  h.firstNamed hP hn.children hr

/-! ## Changing -/

theorem Apace.update {f f' : Node → Node} (hP : Pairing P) (h : t.Apace P t') (ha : P a a')
    (hf : ∀ {n n' : Node}, n.Alike P n' → (f n).Alike P (f' n')) : (t.update a f).Apace P (t'.update a' f') := by
  refine ⟨⟨h.root, ?_⟩, h.ids⟩
  show List.Forall₂ _ (t.nodes.update a f) (t'.nodes.update a' f')
  have hnodes := h.nodes
  generalize t.nodes = nodes at hnodes ⊢
  generalize t'.nodes = nodes' at hnodes ⊢
  induction hnodes with
  | nil => exact .nil
  | @cons q q' rest rest' hq hrest ih =>
    obtain ⟨b, m⟩ := q
    obtain ⟨b', m'⟩ := q'
    have hpair : (b == a) = (b' == a') := Bool.eq_iff_iff.2 (by rw [beq_iff_eq, beq_iff_eq]; exact hP hq.1 ha)
    unfold Keyed.update
    rw [← hpair]
    cases b == a with
    | true => exact .cons ⟨hq.1, hf hq.2⟩ hrest
    | false => exact .cons hq ih

theorem Apace.insert (hP : Pairing P) (h : t.Apace P t') (hn : n.Alike P n') : (t.insert n).Apace P (t'.insert n') := by
  refine ⟨⟨h.root, ?_⟩, h.ids⟩
  show List.Forall₂ _ (t.nodes.put n.id n) (t'.nodes.put n'.id n')
  have hnodes := h.nodes
  generalize t.nodes = nodes at hnodes ⊢
  generalize t'.nodes = nodes' at hnodes ⊢
  induction hnodes with
  | nil => exact .cons ⟨hn.id, hn⟩ .nil
  | @cons q q' rest rest' hq hrest ih =>
    obtain ⟨b, m⟩ := q
    obtain ⟨b', m'⟩ := q'
    have hpair : (b == n.id) = (b' == n'.id) := Bool.eq_iff_iff.2 (by rw [beq_iff_eq, beq_iff_eq]; exact hP hq.1 hn.id)
    unfold Keyed.put
    rw [← hpair]
    cases b == n.id with
    | true => exact .cons ⟨hq.1, hn⟩ hrest
    | false => exact .cons hq ih

theorem Apace.takeId (h : t.Apace P t') : t.takeId.2.Apace P t'.takeId.2 := ⟨⟨h.root, h.nodes⟩, h.ids.rest⟩

theorem Apace.attach (hP : Pairing P) (h : t.Apace P t') (ha : P a a') (hp : P p p') :
    (t.attach a p now).Apace P (t'.attach a' p' now') := by
  refine (h.update hP ha fun hn => ?_).update hP hp fun hn => ?_
  · exact ⟨hn.id, hn.name, hn.kind, hn.owner, hn.group, hn.permissions, hn.content, hn.children, .inr hp⟩
  · exact ⟨hn.id, hn.name, hn.kind, hn.owner, hn.group, hn.permissions, hn.content,
      List.rel_append hn.children (.cons ha .nil), hn.parent⟩

theorem Apace.add (hP : Pairing P) (h : t.Apace P t') (hn : n.Alike P n') (hp : P p p') :
    (t.add n p now).Apace P (t'.add n' p' now') := (h.insert hP hn).attach hP hn.id hp

end Tree

end SimUnix
