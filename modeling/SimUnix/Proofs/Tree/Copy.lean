/-
What copying does to a tree in order. The nodes of before stay as they are; every new node has the
name and the kind of one of them; and where the copy is finished, its root is the only new node
without a parent. A copy that gives up half way leaves the part that was made, in order but unlinked.
-/
import SimUnix.Proofs.Tree.Change

namespace SimUnix.Tree

open Skeleton

variable {t t₁ t₂ t' : Tree} {n m c : Node} {a id : NodeId} {new : NewOwner} {now : Time.Stamp}

/-! ## Growth -/

/-- A node takes after one of the tree: it has that node's name and kind, children only if that node has
any, and a parent only if that node has one. -/
def Model (t : Tree) (m : Node) : Prop :=
  ∃ o, t.get? o.id = some o ∧ m.name = o.name ∧ m.kind = o.kind ∧ (o.children = [] → m.children = []) ∧
    (o.parent = .null → m.parent = .null)

/-- A tree in order has grown: what was there is unchanged, what is new takes after it. -/
structure Grown (t t' : Tree) : Prop where
  linked : Linked t'
  rootId : t'.rootId = t.rootId
  ids : t.ids.Later t'.ids
  old : ∀ {a n}, t.get? a = some n → t'.get? a = some n
  model : ∀ {a m}, t'.get? a = some m → t.get? a = some m ∨ Model t m
  born : ∀ {a m}, t'.get? a = some m → t.get? a = none → t.ids.Yields a

theorem Grown.refl (h : Linked t) : Grown t t :=
  ⟨h, rfl, .refl _, id, .inl, fun hm ha => by rw [ha] at hm; cases hm⟩

theorem Grown.trans (h₁ : Grown t t₁) (h₂ : Grown t₁ t₂) : Grown t t₂ := by
  refine ⟨h₂.linked, h₂.rootId.trans h₁.rootId, h₁.ids.trans h₂.ids, fun h => h₂.old (h₁.old h), fun hm => ?_,
    fun {a} _ hm ha => ?_⟩
  · rcases h₂.model hm with hm | ⟨o, ho, hname, hkind, hkids, hpar⟩
    · exact h₁.model hm
    · rcases h₁.model ho with ho | ⟨o', ho', hname', hkind', hkids', hpar'⟩
      · exact .inr ⟨o, ho, hname, hkind, hkids, hpar⟩
      · exact .inr ⟨o', ho', hname.trans hname', hkind.trans hkind', fun h => hkids (hkids' h), fun h => hpar (hpar' h)⟩
  · rcases h₁a : t₁.get? a with _ | m₁
    · exact (h₂.born hm h₁a).earlier h₁.ids
    · exact h₁.born h₁a ha

/-- A finished copy of a node. -/
structure HasCopy (t t' : Tree) (n : Node) (id : NodeId) : Prop where
  fresh : t.get? id = none
  there : ∃ c, t'.get? id = some c ∧ c.parent = .null ∧ c.name = n.name ∧ c.kind = n.kind ∧
    (n.children = [] → c.children = [])
  loose : ∀ {a}, t'.skeleton.Loose a ↔ a = id ∨ t.skeleton.Loose a

/-- From a node there is a way down of a number of steps. -/
def Deep (t : Tree) : Nat → NodeId → Prop
  | 0, _ => True
  | k + 1, a => ∃ c, t.skeleton.Above a c ∧ Deep t k c

/-- What a copy leaves that has been given up: a number of new nodes without a parent. -/
def Remains (t t' : Tree) (k : Nat) : Prop :=
  ∃ left : List NodeId, left.Nodup ∧ left.length = k ∧ ∀ a ∈ left, t.get? a = none ∧ t'.skeleton.Loose a

/-- What comes of copying a node for some levels: the tree has grown, by a finished copy or by the part
of it that was made before it went too deep. -/
structure Copied (t t' : Tree) (n : Node) (depth : Nat) (r : Except Fault NodeId) : Prop where
  grown : Grown t t'
  copy : ∀ id, r = .ok id → HasCopy t t' n id
  fault : ∀ e, r = .error e → Deep t depth n.id ∧ Remains t t' depth

theorem Grown.loose (hg : Grown t t') (hl : t.skeleton.Loose a) : t'.skeleton.Loose a := by
  obtain ⟨x, hx, h0⟩ := hl
  obtain ⟨n, hn, rfl⟩ := skeleton_some.1 hx
  exact ⟨n.joint, skeleton_some.2 ⟨n, hg.old hn, rfl⟩, h0⟩

/-- The nodes on a way down are all different. -/
theorem Linked.deep_lt (h : Linked t) : ∀ {k : Nat} {a : NodeId} {visited : List NodeId}, Deep t k a →
    (∃ n, t.get? a = some n) → visited.Nodup → (∀ v ∈ visited, Relation.TransGen t.skeleton.Above v a) →
      k + visited.length < t.size
  | 0, a, visited, _, hn, hnd, hv => by
    have hnew : a ∉ visited := fun hm => (h.forest.grounded.transGen).irrefl.irrefl _ (hv _ hm)
    have hin : ∀ v ∈ a :: visited, ∃ m, t.get? v = some m := by
      intro v hm
      rcases List.mem_cons.1 hm with rfl | hm
      · exact hn
      · obtain ⟨c, hc, -⟩ := Relation.TransGen.head'_iff.1 (hv v hm)
        obtain ⟨q, hq, -⟩ := h.present_above hc
        exact ⟨q, hq⟩
    have hle := length_le (List.nodup_cons.2 ⟨hnew, hnd⟩) hin
    simp only [List.length_cons] at hle
    omega
  | k + 1, a, visited, ⟨c, hab, hd⟩, hn, hnd, hv => by
    have hnew : a ∉ visited := fun hm => (h.forest.grounded.transGen).irrefl.irrefl _ (hv _ hm)
    have hbelow : ∀ v ∈ a :: visited, Relation.TransGen t.skeleton.Above v c := by
      intro v hm
      rcases List.mem_cons.1 hm with rfl | hm
      · exact .single hab
      · exact (hv v hm).tail hab
    have hlt := h.deep_lt hd (present_of_above hab) (List.nodup_cons.2 ⟨hnew, hnd⟩) hbelow
    simp only [List.length_cons] at hlt
    omega

/-- Above an old node there are old nodes only. -/
theorem Grown.old_of_under (h : Linked t) (hg : Grown t t') {b : NodeId} (hb : ∃ n, t.get? b = some n)
    (hu : t'.skeleton.Under a b) : ∃ n, t.get? a = some n := by
  induction hu using Relation.ReflTransGen.head_induction_on with
  | refl => exact hb
  | head hac _ ih =>
    obtain ⟨n, hn⟩ := ih
    obtain ⟨x, hx, rfl, hne⟩ := hac
    obtain ⟨m, hm, rfl⟩ := skeleton_some.1 hx
    rw [hg.old hn] at hm
    cases hm
    obtain ⟨y, hy, -⟩ := h.forest.up (skeleton_some.2 ⟨n, hn, rfl⟩) hne
    obtain ⟨q, hq, -⟩ := skeleton_some.1 hy
    exact ⟨q, hq⟩

theorem Grown.absent (hg : Grown t t') (ha : t'.get? a = none) : t.get? a = none := by
  by_contra hne
  obtain ⟨n, hn⟩ := Option.ne_none_iff_exists'.1 hne
  rw [hg.old hn] at ha
  cases ha

/-- Below an old node there are old nodes only, as far as they are not linked anew. -/
theorem Grown.deep_of (h : Linked t) (hg : Grown t t') : ∀ {k : Nat} {a : NodeId}, Deep t' k a →
    (∃ n, t.get? a = some n) → Deep t k a
  | 0, _, _, _ => ⟨⟩
  | k + 1, a, ⟨c, hab, hd⟩, ⟨n, hn⟩ => by
    have hc : c ∈ n.children := (hg.linked.above_iff (hg.old hn)).1 hab
    have hab' : t.skeleton.Above a c := (h.above_iff hn).2 hc
    exact ⟨c, hab', hg.deep_of h hd (present_of_above hab')⟩

/-! ## Copying the children -/

/-- A copy of a node with the copies of some of its children. -/
structure Filled (t t' : Tree) (n : Node) (id : NodeId) (done : List Node) : Prop extends Grown t t' where
  fresh : t.get? id = none
  there : ∃ c, t'.get? id = some c ∧ c.parent = .null ∧ c.name = n.name ∧ c.kind = n.kind ∧
    (n.children = [] → c.children = []) ∧ ∀ k ∈ c.children, ∀ m, t'.get? k = some m → ∃ o ∈ done, m.name = o.name
  loose : ∀ {a}, t'.skeleton.Loose a ↔ a = id ∨ t.skeleton.Loose a

theorem Filled.hasCopy {done : List Node} (h : Filled t t' n id done) : HasCopy t t' n id := by
  obtain ⟨c, hc, hp, hname, hkind, hkids, -⟩ := h.there
  exact ⟨h.fresh, ⟨c, hc, hp, hname, hkind, hkids⟩, h.loose⟩

/-- Links a child to the copy of its parent. -/
def graft (t : Tree) (child parent : NodeId) : Tree :=
  (t.update child fun c => { c with parent }).update parent
    fun c => { c with children := c.children ++ [child] }

theorem skeleton_graft {k : NodeId} : (t.graft k id).skeleton = t.skeleton.link k id := skeleton_linking fun _ => rfl

theorem rewired_graft {k : NodeId} : Rewired t (t.graft k id) :=
  (rewired_update (by intro; rfl)).trans (rewired_update (by intro; rfl))

theorem get?_graft {k : NodeId} (hne : k ≠ id) : (t.graft k id).get? a =
    if a = id then (t.get? a).map fun c => { c with children := c.children ++ [k] }
    else if a = k then (t.get? a).map fun c => { c with parent := id } else t.get? a := by
  unfold graft
  rw [get?_update, get?_update]
  by_cases ha : a = id
  · have hak : a ≠ k := by
      rintro rfl
      exact hne ha
    simp only [if_pos ha, if_neg hak]
  · simp only [if_neg ha]

theorem present_of_graft {k : NodeId} (hne : k ≠ id) (hm : (t.graft k id).get? a = some m) : ∃ q, t.get? a = some q := by
  rw [get?_graft hne] at hm
  split at hm
  · obtain ⟨q, hq, -⟩ := Option.map_eq_some_iff.1 hm
    exact ⟨q, hq⟩
  · split at hm
    · obtain ⟨q, hq, -⟩ := Option.map_eq_some_iff.1 hm
      exact ⟨q, hq⟩
    · exact ⟨m, hm⟩

/-- Linking keeps the name of every node. -/
theorem name_graft {k : NodeId} (hne : k ≠ id) (hn : t.get? a = some n) (hm : (t.graft k id).get? a = some m) :
    m.name = n.name := by
  rw [get?_graft hne, hn] at hm
  split at hm
  · cases hm
    rfl
  · split at hm <;> cases hm <;> rfl

/-! ### One more child

The copy `id` of `n` holds copies of the children `done`; now the child `c` has been copied as well, under
the new id `k`. -/

section

variable {done : List Node} {k : NodeId}

/-- The copies of parent and child are two nodes. -/
theorem Filled.ne_child (h : Filled t t₁ n id done) (hc : HasCopy t₁ t₂ c k) : k ≠ id := by
  rintro rfl
  obtain ⟨p, hp, -⟩ := h.there
  rw [hc.fresh] at hp
  cases hp

/-- The copy of the parent is still loose when its child has been copied. -/
theorem Filled.loose_parent (h : Filled t t₁ n id done) (hg : Grown t₁ t₂) : t₂.skeleton.Loose id := by
  obtain ⟨p, hp, hpar, -⟩ := h.there
  exact ⟨p.joint, skeleton_some.2 ⟨p, hg.old hp, rfl⟩, hpar⟩

/-- A new node is not the root. -/
theorem HasCopy.ne_root (h : Linked t₁) (hg : Grown t₁ t₂) (hc : HasCopy t₁ t₂ c k) : k ≠ t₂.rootId := by
  rintro rfl
  obtain ⟨x, hx, -⟩ := h.rooted
  obtain ⟨r, hr, -⟩ := skeleton_some.1 hx
  rw [← hg.rootId, hc.fresh] at hr
  cases hr

/-- A node of before is neither copy. -/
theorem Filled.ne_copies (h : Filled t t₁ n id done) (hc : HasCopy t₁ t₂ c k) (ha : t.get? a = some m) :
    a ≠ id ∧ a ≠ k := by
  constructor
  · rintro rfl
    rw [h.fresh] at ha
    cases ha
  · rintro rfl
    have hnone := hc.fresh
    rw [h.old ha] at hnone
    cases hnone

/-- A child of a node has a parent. -/
theorem Linked.parent_ne_null (h : Linked t) (hn : t.get? n.id = some n) (hc : t.get? c.id = some c)
    (hkid : c.id ∈ n.children) : c.parent ≠ .null := by
  obtain ⟨x, hx, hpar, hne⟩ := (h.above_iff hn).2 hkid
  rw [skeleton_some.2 ⟨c, hc, rfl⟩] at hx
  cases hx
  have hpar : c.parent = n.id := hpar
  rw [hpar]
  exact hne

theorem Filled.linked_graft (h : Filled t t₁ n id done) (hg : Grown t₁ t₂) (hc : HasCopy t₁ t₂ c k)
    (hnew : ∀ o ∈ done, o.name ≠ c.name) : Linked (t₂.graft k id) := by
  obtain ⟨p, hp, -, -, -, -, hpnames⟩ := h.there
  obtain ⟨k₀, hk₀, hkpar, hkname, -⟩ := hc.there
  refine hg.linked.link rewired_graft skeleton_graft (skeleton_some.2 ⟨k₀, hk₀, rfl⟩) hkpar (hc.ne_root h.linked hg)
    (skeleton_some.2 ⟨p, hg.old hp, rfl⟩) (fun hu => h.ne_child hc ((h.loose_parent hg).eq_of_under hu)) ?_
  intro j hj y hy
  obtain ⟨m, hm, rfl⟩ := skeleton_some.1 hy
  obtain ⟨m', hm'⟩ := present_of_above ((h.linked.above_iff hp).2 hj)
  rw [hg.old hm'] at hm
  cases hm
  obtain ⟨o, ho, heq⟩ := hpnames j hj _ hm'
  show Node.name _ ≠ k₀.name
  rw [heq, hkname]
  exact hnew o ho

theorem Filled.model_graft (h : Filled t t₁ n id done) (hn : t.get? n.id = some n) (hcget : t.get? c.id = some c)
    (hg : Grown t₁ t₂) (hc : HasCopy t₁ t₂ c k) (hkid : c.id ∈ n.children) (hm : (t₂.graft k id).get? a = some m) :
    t.get? a = some m ∨ Model t m := by
  obtain ⟨p, hp, hpar, hpname, hpkind, -⟩ := h.there
  obtain ⟨k₀, hk₀, -, hkname, hkkind, hkkids⟩ := hc.there
  rw [get?_graft (h.ne_child hc)] at hm
  split at hm
  -- the parent's copy has children now, and so has the parent
  · obtain ⟨q, hq, rfl⟩ := Option.map_eq_some_iff.1 hm
    rename_i hb
    rw [hb, hg.old hp] at hq
    cases hq
    exact .inr ⟨n, hn, hpname, hpkind, fun h0 => by (rw [h0] at hkid; cases hkid), fun _ => hpar⟩
  · split at hm
    · obtain ⟨q, hq, rfl⟩ := Option.map_eq_some_iff.1 hm
      rename_i hb
      rw [hb, hk₀] at hq
      cases hq
      exact .inr ⟨c, hcget, hkname, hkkind, hkkids,
        fun h0 => absurd h0 (h.linked.parent_ne_null (h.old hn) (h.old hcget) hkid)⟩
    · exact (h.toGrown.trans hg).model hm

theorem Filled.grown_graft (h : Filled t t₁ n id done) (hn : t.get? n.id = some n) (hcget : t.get? c.id = some c)
    (hg : Grown t₁ t₂) (hc : HasCopy t₁ t₂ c k) (hkid : c.id ∈ n.children) (hnew : ∀ o ∈ done, o.name ≠ c.name) :
    Grown t (t₂.graft k id) := by
  have hne := h.ne_child hc
  have hgrown : Grown t t₂ := h.toGrown.trans hg
  refine ⟨h.linked_graft hg hc hnew, hgrown.rootId, hgrown.ids, ?_, h.model_graft hn hcget hg hc hkid, ?_⟩
  · intro b q hb
    obtain ⟨hbid, hbk⟩ := h.ne_copies hc hb
    rw [get?_graft hne, if_neg hbid, if_neg hbk]
    exact hgrown.old hb
  · intro b m hm hb
    obtain ⟨q, hq⟩ := present_of_graft hne hm
    exact hgrown.born hq hb

theorem Filled.names_graft (h : Filled t t₁ n id done) (hg : Grown t₁ t₂) (hc : HasCopy t₁ t₂ c k) {p : Node}
    (hp : t₁.get? id = some p)
    (hnames : ∀ k ∈ p.children, ∀ m, t₁.get? k = some m → ∃ o ∈ done, m.name = o.name) :
    ∀ j ∈ p.children ++ [k], ∀ m, (t₂.graft k id).get? j = some m → ∃ o ∈ done ++ [c], m.name = o.name := by
  have hne := h.ne_child hc
  intro j hj m hm
  rcases List.mem_append.1 hj with hj | hj
  · obtain ⟨m', hm'⟩ := present_of_above ((h.linked.above_iff hp).2 hj)
    obtain ⟨o, ho, heq⟩ := hnames j hj _ hm'
    exact ⟨o, List.mem_append_left _ ho, (name_graft hne (hg.old hm') hm).trans heq⟩
  · obtain ⟨k₀, hk₀, -, hkname, -⟩ := hc.there
    rw [List.mem_singleton.1 hj] at hm
    exact ⟨c, by simp, (name_graft hne hk₀ hm).trans hkname⟩

theorem Filled.loose_graft (h : Filled t t₁ n id done) (hg : Grown t₁ t₂) (hc : HasCopy t₁ t₂ c k) :
    (t₂.graft k id).skeleton.Loose a ↔ a = id ∨ t.skeleton.Loose a := by
  obtain ⟨p, hp, -⟩ := h.there
  rw [skeleton_graft, loose_link (hg.linked.forest.ne_null (skeleton_some.2 ⟨p, hg.old hp, rfl⟩)), hc.loose, h.loose]
  constructor
  · rintro ⟨hak, ha | ha⟩
    · exact absurd ha hak
    · exact ha
  · intro ha
    refine ⟨?_, .inr ha⟩
    rintro rfl
    rcases ha with ha | ⟨x, hx, -⟩
    · exact h.ne_child hc ha
    · obtain ⟨q, hq, -⟩ := skeleton_some.1 hx
      exact (h.ne_copies hc hq).2 rfl

/-- One more child of a copied node has been copied and is linked to the copy. -/
theorem Filled.graft (h : Filled t t₁ n id done) (hn : t.get? n.id = some n) (hcget : t.get? c.id = some c)
    (hg : Grown t₁ t₂) (hc : HasCopy t₁ t₂ c k) (hkid : c.id ∈ n.children) (hnew : ∀ o ∈ done, o.name ≠ c.name) :
    Filled t (t₂.graft k id) n id (done ++ [c]) := by
  obtain ⟨p, hp, hpar, hpname, hpkind, -, hpnames⟩ := h.there
  refine ⟨h.grown_graft hn hcget hg hc hkid hnew, h.fresh, ⟨{ p with children := p.children ++ [k] }, ?_, hpar, hpname,
    hpkind, fun h0 => by (rw [h0] at hkid; cases hkid), h.names_graft hg hc hp hpnames⟩, h.loose_graft hg hc⟩
  rw [get?_graft (h.ne_child hc), if_pos rfl, hg.old hp]
  rfl

end

/-! ## Copying a subtree -/

/-- The unlinked copy of a node alone. -/
def blankCopy (n : Node) (new : NewOwner) (now : Time.Stamp) (id : NodeId) : Node :=
  { id, name := n.name, kind := n.kind, owner := replaced new.owner? n.owner
    group := replaced new.group? n.group, permissions := n.permissions, content := n.content
    created := now, modified := now }

theorem Linked.isNew_blankCopy (h : Linked t) (hn : t.get? n.id = some n) :
    IsNew t (blankCopy n new now t.ids.id) := by
  obtain ⟨-, hname, hcont⟩ := h.written (bare_some.2 ⟨n, hn, rfl⟩)
  exact ⟨rfl, rfl, rfl, hname, hcont⟩

/-- The copy of a node has been put into the arena, still without children. -/
theorem Linked.filled_nil (h : Linked t) (hn : t.get? n.id = some n) (new : NewOwner) (now : Time.Stamp) :
    Filled t (t.takeId.2.insert (blankCopy n new now t.ids.id)) n t.ids.id [] := by
  have hnew : IsNew t (blankCopy n new now t.ids.id) := h.isNew_blankCopy hn
  have habs : t.get? t.ids.id = none := Option.map_eq_none_iff.1 (h.new_absent hnew)
  have hget : ∀ a, (t.takeId.2.insert (blankCopy n new now t.ids.id)).get? a =
      if a = t.ids.id then some (blankCopy n new now t.ids.id) else t.get? a := fun a => get?_insert
  have hlinked := h.insert hnew.id hnew.children hnew.parent hnew.name hnew.content
  refine ⟨⟨hlinked, rfl, t.ids.later_rest, ?_, ?_, ?_⟩, habs, ?_, ?_⟩
  · intro a m hm
    have hne : a ≠ t.ids.id := by
      rintro rfl
      rw [habs] at hm
      cases hm
    rw [hget, if_neg hne, hm]
  · intro a m hm
    rw [hget] at hm
    split at hm
    · cases hm
      exact .inr ⟨n, hn, rfl, rfl, fun _ => rfl, fun _ => rfl⟩
    · exact .inl hm
  · intro a m hm ha
    rw [hget] at hm
    split at hm
    · rename_i heq
      exact heq ▸ t.ids.yields_id
    · rw [ha] at hm
      cases hm
  · refine ⟨blankCopy n new now t.ids.id, by rw [hget, if_pos rfl], rfl, rfl, rfl, fun _ => rfl, ?_⟩
    intro k hk
    cases hk
  · intro a
    have hσ : (t.takeId.2.insert (blankCopy n new now t.ids.id)).skeleton = _ := skeleton_insert
    rw [hσ, loose_put rfl]
    rfl

/-- Copies nodes one after the other and links each copy to the copy of their parent. -/
def copyBelow (new : NewOwner) (now : Time.Stamp) (depth : Nat) (id : NodeId) : List Node → Edit PUnit
  | [] => pure ⟨⟩
  | c :: cs => do
    let childId ← cloneDown new now depth c
    modify fun t => t.graft childId id
    copyBelow new now depth id cs

/-- A copy is the blank copy of the node and then the copies of its children. -/
theorem run_cloneDown_succ {depth : Nat} : (cloneDown new now (depth + 1) n).run t =
    let t₁ := t.takeId.2.insert (blankCopy n new now t.ids.id)
    match t₁.childrenOf n with
    | .error e => (.error e, t₁)
    | .ok cs => match (copyBelow new now depth t.ids.id cs).run t₁ with
      | (.ok _, t₂) => (.ok t.ids.id, t₂)
      | (.error e, t₂) => (.error e, t₂) := by
  have hloop : ∀ {id : NodeId} (cs : List Node), (forIn cs PUnit.unit fun child _ => do
      let childId ← cloneDown new now depth child
      modify fun t => t.graft childId id
      pure (ForInStep.yield PUnit.unit) : Edit PUnit) = copyBelow new now depth id cs := by
    intro id cs
    induction cs with
    | nil => rfl
    | cons c cs ih =>
      rw [List.forIn_cons, copyBelow, ← ih]
      simp only [bind_assoc, pure_bind]
  have hclone : cloneDown new now (depth + 1) n = (do
      let id ← modifyGet takeId
      modify (·.insert (blankCopy n new now id))
      let children ← remove.liftExcept ((← get).childrenOf n)
      copyBelow new now depth id children
      pure id : Edit NodeId) := by
    simp only [← hloop]
    rfl
  rw [hclone]
  simp only [run_bind, run_get, run_modifyGet, run_modify, run_pure, run_liftExcept, takeId]
  rcases (insert { t with ids := t.ids.rest } (blankCopy n new now t.ids.id)).childrenOf n with e | cs
  · rfl
  · dsimp only
    rcases (copyBelow new now depth t.ids.id cs).run _ with ⟨_ | _, _⟩ <;> rfl

/-- Copying the children one after the other, where copying one of them does what it should. -/
theorem run_copyBelow {depth : Nat} (h : Linked t)
    (ih : ∀ {t t' : Tree} {c : Node} {r : Except Fault NodeId}, Linked t → t.get? c.id = some c →
      (cloneDown new now depth c).run t = (r, t') → Copied t t' c depth r)
    (hn : t.get? n.id = some n) :
    ∀ {cs done : List Node} {t₁ : Tree} {r : Except Fault PUnit}, Filled t t₁ n id done →
      (∀ c ∈ cs, t.get? c.id = some c ∧ c.id ∈ n.children) →
      (done ++ cs).Pairwise (fun o c => o.name ≠ c.name) →
      (copyBelow new now depth id cs).run t₁ = (r, t') →
      Grown t t' ∧ (∀ u, r = .ok u → Filled t t' n id (done ++ cs)) ∧
        ∀ e, r = .error e → Deep t (depth + 1) n.id ∧ Remains t t' (depth + 1)
  | [], done, t₁, r, hf, _, _, hrun => by
    cases hrun
    refine ⟨hf.toGrown, fun _ _ => ?_, fun _ he => by cases he⟩
    rw [List.append_nil]
    exact hf
  | c :: cs, done, t₁, r, hf, hin, hnames, hrun => by
    obtain ⟨hc, hkid⟩ := hin c (List.mem_cons_self ..)
    simp only [copyBelow, run_bind, run_modify] at hrun
    rcases hchild : (cloneDown new now depth c).run t₁ with ⟨r₁, t₂⟩
    obtain ⟨hg, hcopy, hfault⟩ := ih hf.linked (hf.old hc) hchild
    rw [hchild] at hrun
    cases r₁ with
    | error e =>
      cases hrun
      obtain ⟨hdeep, left, hnd, hlen, hleft⟩ := hfault e rfl
      obtain ⟨q, hq, -⟩ := hf.there
      refine ⟨hf.toGrown.trans hg, fun u hu => (by cases hu), fun _ _ => ⟨⟨c.id, ?_, ?_⟩, id :: left, ?_, ?_, ?_⟩⟩
      · exact (h.above_iff hn).2 hkid
      · exact hf.toGrown.deep_of h hdeep ⟨c, hc⟩
      · refine List.nodup_cons.2 ⟨fun hm => ?_, hnd⟩
        rw [(hleft id hm).1] at hq
        cases hq
      · rw [List.length_cons, hlen]
      · intro b hb
        rcases List.mem_cons.1 hb with rfl | hb
        · exact ⟨hf.fresh, hg.loose (hf.loose.2 (.inl rfl))⟩
        · exact ⟨hf.toGrown.absent (hleft b hb).1, (hleft b hb).2⟩
    | ok k =>
      have hnew : ∀ o ∈ done, o.name ≠ c.name := fun o ho =>
        (List.pairwise_append.1 hnames).2.2 o ho c (List.mem_cons_self ..)
      have hnext := hf.graft hn hc hg (hcopy k rfl) hkid hnew
      have happ : done ++ c :: cs = (done ++ [c]) ++ cs := by simp
      rw [happ] at hnames ⊢
      exact run_copyBelow h ih hn hnext (fun d hd => hin d (List.mem_cons_of_mem _ hd)) hnames hrun

/-- The children of an old node are the same in the grown tree. -/
theorem Grown.childrenOf (h : Linked t) (hg : Grown t t') (hn : t.get? n.id = some n) :
    ∃ cs, t'.childrenOf n = .ok cs ∧ cs.map Node.id = n.children ∧ (∀ c ∈ cs, t.get? c.id = some c ∧ c.id ∈ n.children) ∧
      cs.Pairwise fun o c => o.name ≠ c.name := by
  obtain ⟨cs, hcs, hids, hget⟩ := hg.linked.childrenOf_ok (hg.old hn)
  have hmem : ∀ c ∈ cs, c.id ∈ n.children := fun c hc => hids ▸ List.mem_map_of_mem hc
  have hx : t.skeleton n.id = some n.joint := skeleton_some.2 ⟨n, hn, rfl⟩
  have hold : ∀ c ∈ cs, t.get? c.id = some c := by
    intro c hc
    obtain ⟨m, hm⟩ := present_of_above ((h.above_iff hn).2 (hmem c hc))
    have hnew := hg.old hm
    rw [hget c hc] at hnew
    rw [hm, hnew]
  refine ⟨cs, hcs, hids, fun c hc => ⟨hold c hc, hmem c hc⟩, ?_⟩
  have hnd : (cs.map Node.id).Nodup := hids ▸ h.forest.once hx
  refine ((List.pairwise_map.1 hnd).imp_of_mem ?_)
  intro o c ho hc hne hname
  exact hne (h.forest.names hx (hmem o ho) (hmem c hc) (skeleton_some.2 ⟨o, hold o ho, rfl⟩)
    (skeleton_some.2 ⟨c, hold c hc, rfl⟩) hname)

/-- Copying keeps a tree in order, whatever comes of it. -/
theorem run_cloneDown : ∀ {depth : Nat} {n : Node} {t t' : Tree} {r : Except Fault NodeId}, Linked t →
    t.get? n.id = some n → (cloneDown new now depth n).run t = (r, t') → Copied t t' n depth r
  | 0, n, t, t', r, h, _, hrun => by
    cases hrun
    exact ⟨.refl h, fun id hid => (by cases hid), fun _ _ => ⟨⟨⟩, [], List.nodup_nil, rfl, by simp⟩⟩
  | depth + 1, n, t, t', r, h, hn, hrun => by
    have hf := h.filled_nil hn new now
    obtain ⟨cs, hcs, -, hin, hnames⟩ := hf.toGrown.childrenOf h hn
    rw [run_cloneDown_succ] at hrun
    simp only [hcs] at hrun
    rcases hloop : (copyBelow new now depth t.ids.id cs).run _ with ⟨u, t₂⟩
    rw [hloop] at hrun
    obtain ⟨hg, hfill, hfault⟩ := run_copyBelow h run_cloneDown hn hf hin hnames hloop
    cases u with
    | error e =>
      cases hrun
      exact ⟨hg, fun id hid => (by cases hid), fun _ _ => hfault e rfl⟩
    | ok u =>
      cases hrun
      refine ⟨hg, fun id hid => ?_, fun _ he => by cases he⟩
      cases hid
      exact (hfill u rfl).hasCopy

/-- A copy is given up only where it would go down further than any copy may. -/
theorem run_clone {r : Except Fault NodeId} (h : Linked t) (hn : t.get? n.id = some n)
    (hrun : (clone n new now).run t = (r, t')) :
    Grown t t' ∧ (∀ id, r = .ok id → HasCopy t t' n id) ∧ ∀ e, r = .error e → Remains t t' maxDepth := by
  unfold clone at hrun
  simp only [run_bind, run_get] at hrun
  obtain ⟨hg, hc, hfault⟩ := run_cloneDown h hn hrun
  refine ⟨hg, hc, fun e he => ?_⟩
  obtain ⟨hdeep, hrem⟩ := hfault e he
  have hlt := h.deep_lt hdeep ⟨n, hn⟩ List.nodup_nil (by simp)
  have hmax : min (t.size + 1) maxDepth = maxDepth := by
    simp only [List.length_nil] at hlt
    omega
  exact hmax ▸ hrem

/-- A tree in which a copy was given up once: it has as many nodes without a parent as a copy may go down,
beside the root. -/
def Stranded (t : Tree) : Prop :=
  ∃ left : List NodeId, left.Nodup ∧ left.length = maxDepth ∧ ∀ a ∈ left, a ≠ t.rootId ∧ t.skeleton.Loose a

/-- No node but the root is without a parent, unless a copy was given up. -/
def Gathered (t : Tree) : Prop := Whole t ∨ Stranded t

theorem Grown.stranded (h : Linked t) (hg : Grown t t') (hr : Remains t t' maxDepth) : Stranded t' := by
  obtain ⟨left, hnd, hlen, hleft⟩ := hr
  refine ⟨left, hnd, hlen, fun a ha => ⟨?_, (hleft a ha).2⟩⟩
  rintro rfl
  obtain ⟨x, hx, -⟩ := h.rooted
  obtain ⟨r, hr, -⟩ := skeleton_some.1 hx
  rw [← hg.rootId, (hleft _ ha).1] at hr
  cases hr

/-! ## Hanging the copy -/

variable {dir : Node}

/-- A finished copy can be hung below any old node under a name that is free there. -/
theorem HasCopy.hang (h : Linked t) (hg : Grown t t') (hc : HasCopy t t' n id) {name : String}
    (hd : t.get? dir.id = some dir) (hfree : t.skeleton.NoneNamed dir.children name) :
    Linked (t'.hung id name dir.id now) := by
  refine hg.linked.hang (hc.loose.2 (.inl rfl)) ?_ (hg.old hd) ?_ ?_
  · intro hroot
    obtain ⟨x, hx, -⟩ := h.rooted
    obtain ⟨r, hr, -⟩ := skeleton_some.1 hx
    rw [← hg.rootId, ← hroot, hc.fresh] at hr
    cases hr
  · intro hu
    obtain ⟨m, hm⟩ := hg.old_of_under h ⟨dir, hd⟩ hu
    rw [hc.fresh] at hm
    cases hm
  · intro k hk y hy
    obtain ⟨m, hm⟩ := present_of_above ((h.above_iff hd).2 hk)
    obtain ⟨m', hm', rfl⟩ := skeleton_some.1 hy
    rw [hg.old hm] at hm'
    cases hm'
    exact hfree k hk _ (skeleton_some.2 ⟨m, hm, rfl⟩)

/-- The directory gets one more child by that, and no other old node is touched. -/
theorem HasCopy.hung_old (hg : Grown t t') (hc : HasCopy t t' n id) {name : Json} (hd : t.get? dir.id = some dir) {m : Node}
    (hm : t.get? a = some m) : (t'.hung id name dir.id now).get? a =
      some (if a = dir.id then { m with children := m.children ++ [id], modified := now } else m) := by
  have hnew : ∀ {b o}, t.get? b = some o → b ≠ id := by
    rintro b o ho rfl
    cases hc.fresh.symm.trans ho
  rw [get?_hung (hnew hd).symm, if_neg (hnew hm), hg.old hm]
  split <;> rfl

theorem HasCopy.hung_new (hc : HasCopy t t' n id) {name : Json} (hd : t.get? dir.id = some dir) :
    ∃ c, (t'.hung id name dir.id now).get? id = some c ∧ c.name = name := by
  have hne : id ≠ dir.id := by
    rintro rfl
    cases hc.fresh.symm.trans hd
  obtain ⟨c, hget, -⟩ := hc.there
  rw [get?_hung hne, if_neg hne, if_pos rfl, hget]
  exact ⟨_, rfl, rfl⟩

theorem HasCopy.loose_hung (h : Linked t) (hc : HasCopy t t' n id) {name : Json} (hd : t.get? dir.id = some dir) :
    (t'.hung id name dir.id now).skeleton.Loose a ↔ t.skeleton.Loose a := by
  have hne : dir.id ≠ .null := h.forest.ne_null (skeleton_some.2 ⟨dir, hd, rfl⟩)
  rw [Tree.loose_hung hne, hc.loose]
  constructor
  · rintro ⟨hne, heq | hl⟩
    · exact absurd heq hne
    · exact hl
  · intro hl
    refine ⟨?_, .inr hl⟩
    rintro rfl
    obtain ⟨x, hx, -⟩ := hl
    obtain ⟨m, hm, -⟩ := skeleton_some.1 hx
    rw [hc.fresh] at hm
    cases hm

end SimUnix.Tree
