/-
Moves that are taken back. What a move does is said for each node alone; moving the node back to the directory and
the name that it had gives the nodes of before, but for the order of children and for the times, and the same node is
found at every path. A node that is added and removed again leaves the nodes of before, but for the times.
-/
import SimUnix.Proofs.Tree.Place
import SimUnix.Proofs.Tree.Reshape

namespace SimUnix

/-! ## One node -/

/-- What becomes of a node when the node `c` is moved from `p` to `q` and given a name. -/
def Node.moved (m : Node) (c : NodeId) (name : Json) (p q : NodeId) (now : Time.Stamp) : Node :=
  if m.id = c then { m with name, parent := q, modified := now }
  else if m.id = p ∨ m.id = q then
    { m with children := (if m.id = p then m.children.erase c else m.children) ++ (if m.id = q then [c] else []), modified := now }
  else m

/-- The same node, but for the order of its children and the time of its last change. -/
structure Node.Reordered (n m : Node) : Prop where
  same : m = { n with children := m.children, modified := m.modified }
  children : m.children.Perm n.children

namespace Node

variable {m : Node} {c p q : NodeId} {name own : Json} {now later : Time.Stamp}

theorem Reordered.refl (n : Node) : n.Reordered n := ⟨rfl, .refl _⟩

@[simp] theorem moved_id : (m.moved c name p q now).id = m.id := by
  unfold moved
  split_ifs <;> rfl

theorem moved_core : (m.moved c name p q now).core = m.core := by
  unfold moved
  split_ifs <;> rfl

theorem moved_kind : (m.moved c name p q now).kind = m.kind := by
  unfold moved
  split_ifs <;> rfl

theorem moved_isDir : (m.moved c name p q now).isDir = m.isDir := by
  unfold isDir
  rw [moved_kind]

theorem moved_self (h : m.id = c) : m.moved c name p q now = { m with name, parent := q, modified := now } := if_pos h

/-- The other nodes keep all but their children and the time of the last change. -/
theorem moved_other (h : m.id ≠ c) : m.moved c name p q now =
    { m with children := (m.moved c name p q now).children, modified := (m.moved c name p q now).modified } := by
  unfold moved
  rw [if_neg h]
  split_ifs <;> rfl

theorem moved_name (h : m.id ≠ c) : (m.moved c name p q now).name = m.name := by
  rw [moved_other h]

theorem moved_parent (h : m.id ≠ c) : (m.moved c name p q now).parent = m.parent := by
  rw [moved_other h]

theorem moved_children (h : m.id ≠ c) : (m.moved c name p q now).children =
    (if m.id = p then m.children.erase c else m.children) ++ (if m.id = q then [c] else []) := by
  unfold moved
  rw [if_neg h]
  split_ifs <;> simp_all

/-- A node lists the same children as before, but for the one that is moved. -/
theorem mem_moved_children {k : NodeId} (hc : m.id ≠ c) (hk : k ≠ c) : k ∈ (m.moved c name p q now).children ↔ k ∈ m.children := by
  rw [moved_children hc, List.mem_append]
  split_ifs <;> simp [hk, List.mem_erase_of_ne hk]

/-- Moving back restores every node, if the one that is moved had that name and was listed by the directory alone. -/
theorem reordered_back (hself : m.id = c → m.name = own ∧ m.parent = p) (hlisted : c ∈ m.children ↔ m.id = p) :
    m.Reordered ((m.moved c name p q now).moved c own q p later) := by
  by_cases hc : m.id = c
  · obtain ⟨rfl, rfl⟩ := hself hc
    rw [moved_self (m := m.moved c name _ q now) (by simp [hc]), moved_self hc]
    exact ⟨rfl, .refl _⟩
  have hkids : ((m.moved c name p q now).moved c own q p later).children.Perm m.children := by
    rw [moved_children (by simp [hc]), moved_children hc, moved_id]
    by_cases hp : m.id = p
    · have hmem := hlisted.2 hp
      have hback : (m.children.erase c ++ [c]).Perm m.children :=
        (List.perm_append_singleton c _).trans (List.perm_cons_erase hmem).symm
      by_cases hq : m.id = q
      · simp only [if_pos hp, if_pos hq]
        refine .trans (.append_right _ ?_) hback
        exact (hback.erase c)
      · simp only [if_pos hp, if_neg hq, List.append_nil]
        exact hback
    · have hnot : c ∉ m.children := fun hm => hp (hlisted.1 hm)
      by_cases hq : m.id = q
      · simp only [if_neg hp, if_pos hq, List.append_nil, List.erase_append_right _ hnot]
        simp
      · simp [if_neg hp, if_neg hq]
  refine ⟨?_, hkids⟩
  rw [moved_other (m := m.moved c name p q now) (by simpa using hc), moved_other hc]

end Node

namespace Tree

open Skeleton

variable {t t' t₁ t₂ : Tree} {n m d dir : Node} {a : NodeId} {name own : String} {names way : List String} {now later : Time.Stamp}

/-! ## One move -/

/-- The tree `t₁` is `t` with a node moved from the directory `d` to the directory `dir`, under a name that was free there. -/
structure Moves (t t₁ : Tree) (n d dir : Node) (name : String) (now : Time.Stamp) : Prop where
  node : t.get? n.id = some n
  parent : t.parentOf? n = some d
  target : t.get? dir.id = some dir
  apart : ¬ t.skeleton.Under n.id dir.id
  free : t.childNamed dir name = .ok none
  linked : Linked t₁
  keys : t₁.nodes.keys = t.nodes.keys
  rootId : t₁.rootId = t.rootId
  get : ∀ a, t₁.get? a = (t.get? a).map (·.moved n.id name d.id dir.id now)

theorem get?_detached (hp : t.parentOf? n = some d) (hne : n.id ≠ d.id) (ht : t.detach n now = .ok t') : t'.get? a =
    if a = n.id then (t.get? a).map fun n => { n with parent := .null }
    else if a = d.id then (t.get? a).map fun p => { p with children := p.children.erase n.id, modified := now }
    else t.get? a := by
  unfold Tree.detach at ht
  simp only [hp] at ht
  split at ht
  · cases ht
    rw [get?_update, get?_update]
    by_cases hself : a = n.id
    · rw [if_pos hself, if_pos hself, if_neg fun hd => hne (hself.symm.trans hd)]
    · rw [if_neg hself, if_neg hself]
  · cases ht

theorem Linked.get?_relinked (h : Linked t) (hn : t.get? n.id = some n) (hp : t.parentOf? n = some d) (hu : ¬ t.skeleton.Under n.id dir.id)
    (ht : t.detach n now = .ok t') (a : NodeId) :
    (t'.relinked n.id name dir.id now).get? a = (t.get? a).map (·.moved n.id name d.id dir.id now) := by
  obtain ⟨-, hab⟩ := (h.parentOf_iff hn).1 hp
  have hd : n.id ≠ d.id := fun he => h.forest.not_above_under hab (he ▸ .refl)
  have hdir : n.id ≠ dir.id := fun he => hu (he ▸ .refl)
  unfold relinked
  rw [get?_update, get?_hung hdir, get?_detached hp hd ht]
  rcases hm : t.get? a with _ | m
  · simp
  obtain rfl : m.id = a := h.id_eq hm
  show _ = some (m.moved n.id name d.id dir.id now)
  by_cases hself : m.id = n.id
  · have hnot : ¬ m.id = dir.id := fun he => hdir (hself.symm.trans he)
    simp only [Node.moved_self hself, if_pos hself, if_neg hnot, Option.map_some, Node.touch]
  · unfold Node.moved
    by_cases hp : m.id = d.id
    · have heither : m.id = d.id ∨ m.id = dir.id := .inl hp
      by_cases hq : m.id = dir.id
      · simp only [if_neg hself, if_pos heither, if_pos hp, if_pos hq, Option.map_some]
      · simp only [if_neg hself, if_pos heither, if_pos hp, if_neg hq, Option.map_some, List.append_nil]
    · by_cases hq : m.id = dir.id
      · have heither : m.id = d.id ∨ m.id = dir.id := .inr hq
        simp only [if_neg hself, if_pos heither, if_neg hp, if_pos hq, Option.map_some]
      · have hneither : ¬ (m.id = d.id ∨ m.id = dir.id) := not_or.2 ⟨hp, hq⟩
        simp only [if_neg hself, if_neg hneither, if_neg hp, if_neg hq]

theorem Linked.moves (h : Linked t) (hn : t.get? n.id = some n) (hp : t.parentOf? n = some d) (hdir : t.get? dir.id = some dir)
    (hu : ¬ t.skeleton.Under n.id dir.id) (hfree : t.childNamed dir name = .ok none) (ht : t.detach n now = .ok t') :
    Moves t (t'.relinked n.id name dir.id now) n d dir name now where
  node := hn
  parent := hp
  target := hdir
  apart := hu
  free := hfree
  linked := h.move hn hp ht hdir hu (h.childNamed_none hdir hfree)
  keys := keys_update.trans (rewired_attach.keys.trans (keys_update.trans (rewired_detach ht).keys))
  rootId := (rewired_detach ht).rootId
  get := h.get?_relinked hn hp hu ht

/-! ## Ways down the tree -/

/-- Valid names lead from the root to a node. -/
structure Sits (t : Tree) (names : List String) (n : Node) : Prop where
  valid : Path.Valid names
  found : t.lookup (Path.ofComponents names) = .ok (some n)

theorem Sits.present (hsits : t.Sits names n) (h : Linked t) : t.get? n.id = some n := (h.lookup_found hsits.found).1

theorem Sits.pathOf (hsits : t.Sits names n) (h : Linked t) : t.pathOf n = .ok (Path.ofComponents names) :=
  h.pathOf_lookup (Path.normalize_ofComponents hsits.valid) hsits.found

theorem lookup_ofComponents {r : Node} (hr : t.root = .ok r) (hvalid : Path.Valid names) :
    t.lookup (Path.ofComponents names) = t.descend r names := by
  unfold Tree.lookup
  rw [hr, Path.components_ofComponents hvalid]

theorem sits_nil : t.Sits [] n ↔ t.root = .ok n := by
  have hnil : Path.Valid [] := List.forall_mem_nil _
  constructor
  · rintro ⟨-, hl⟩
    unfold Tree.lookup at hl
    split at hl
    · cases hl
    · rename_i r hr
      rw [Path.components_ofComponents hnil] at hl
      cases hl
      exact hr
  · exact fun hr => ⟨hnil, lookup_ofComponents hr hnil⟩

theorem sits_snoc (h : Linked t) : t.Sits (names ++ [name]) n ↔
    Path.validName name = true ∧ ∃ d, t.Sits names d ∧ d.isDir = true ∧ t.childNamed d name = .ok (some n) := by
  obtain ⟨r, hr, -⟩ := h.root_ok
  constructor
  · rintro ⟨hvalid, hl⟩
    obtain ⟨hfront, hname⟩ := Path.valid_snoc.1 hvalid
    rw [lookup_ofComponents hr hvalid, descend_snoc] at hl
    obtain ⟨d, hd, hdir, hc⟩ := hl
    exact ⟨hname, d, ⟨hfront, (lookup_ofComponents hr hfront).trans hd⟩, hdir, hc⟩
  · rintro ⟨hname, d, ⟨hfront, hl⟩, hdir, hc⟩
    have hvalid := Path.valid_snoc.2 ⟨hfront, hname⟩
    rw [lookup_ofComponents hr hfront] at hl
    exact ⟨hvalid, (lookup_ofComponents hr hvalid).trans (descend_snoc.2 ⟨d, hl, hdir, hc⟩)⟩

/-- Whatever has a name on its way sits in its parent. -/
theorem Sits.inside (h : Linked t) (hsits : t.Sits (names ++ [name]) n) : ∃ d, t.Sits names d ∧ d.isDir = true ∧
    t.parentOf? n = some d ∧ t.skeleton.Above d.id n.id ∧ n.name = .str name := by
  obtain ⟨-, d, hd, hdir, hc⟩ := (sits_snoc h).1 hsits
  obtain ⟨hmem, hn, hname⟩ := h.childNamed_some (hd.present h) hc
  have hab := (h.above_iff (hd.present h)).2 hmem
  exact ⟨d, hd, hdir, (h.parentOf_iff hn).2 ⟨hd.present h, hab⟩, hab, hname⟩

namespace Moves

variable (h : Linked t) (hmove : Moves t t₁ n d dir name now)

include hmove

theorem get_some (hm : t.get? a = some m) : t₁.get? a = some (m.moved n.id name d.id dir.id now) := by
  rw [hmove.get, hm]
  rfl

theorem target_ne : dir.id ≠ n.id := fun he => hmove.apart (he ▸ .refl)

include h

theorem listed : t.get? d.id = some d ∧ n.id ∈ d.children := by
  obtain ⟨hd, hab⟩ := (h.parentOf_iff hmove.node).1 hmove.parent
  exact ⟨hd, (h.above_iff hd).1 hab⟩

theorem parent_ne : d.id ≠ n.id := fun he =>
  have hab := ((h.parentOf_iff hmove.node).1 hmove.parent).2
  h.forest.not_above_under hab (he ▸ .refl)

/-- Only the directory of before lists the node. -/
theorem listed_iff (hm : t.get? m.id = some m) : n.id ∈ m.children ↔ m.id = d.id := by
  obtain ⟨hd, hn⟩ := hmove.listed h
  constructor
  · intro hk
    exact ((h.above_iff hm).2 hk).unique ((h.above_iff hd).2 hn)
  · intro he
    rw [he, hd] at hm
    cases hm
    exact hn

/-- What lies below the node lay below it before. -/
theorem under_of {b : NodeId} (hu : t₁.skeleton.Under n.id b) : t.skeleton.Under n.id b := by
  induction hu with
  | refl => exact .refl
  | @tail b c hb hbc ih =>
    obtain ⟨x', hx', hc⟩ := hmove.linked.present_above hbc
    obtain ⟨x, hx, rfl⟩ := Option.map_eq_some_iff.1 ((hmove.get b).symm.trans hx')
    have hid : x.id = b := h.id_eq hx
    by_cases hcn : c = n.id
    · exact hcn ▸ .refl
    · by_cases hxn : x.id = n.id
      · rw [Node.moved_self hxn] at hc
        exact ih.tail ((h.above_iff hx).2 hc)
      · exact ih.tail ((h.above_iff hx).2 ((Node.mem_moved_children hxn hcn).1 hc))

/-! ## The way back -/

omit h in
theorem back_parent : t₁.parentOf? (n.moved n.id name d.id dir.id now) = some (dir.moved n.id name d.id dir.id now) := by
  have hdir := hmove.get_some hmove.target
  refine (hmove.linked.parentOf_iff (hmove.get_some hmove.node)).2 ⟨by rwa [Node.moved_id], ?_⟩
  rw [Node.moved_id, hmove.linked.above_iff hdir, Node.moved_children hmove.target_ne]
  simp

theorem back_apart : ¬ t₁.skeleton.Under n.id d.id := fun hu =>
  h.forest.not_above_under ((h.parentOf_iff hmove.node).1 hmove.parent).2 (hmove.under_of h hu)

/-- No other node has taken the name of before. -/
theorem vacated : t₁.childNamed (d.moved n.id name d.id dir.id now) n.name = .ok none := by
  obtain ⟨hd, hn⟩ := hmove.listed h
  rcases hmove.linked.childNamed_cases (hmove.get_some hd) n.name with ⟨hnone, -⟩ | ⟨c', -, hc, hget, hname⟩
  · exact hnone
  obtain ⟨c, hcget, hc'⟩ := Option.map_eq_some_iff.1 ((hmove.get c'.id).symm.trans hget)
  subst hc'
  rw [Node.moved_id] at hc hcget
  by_cases hcn : c.id = n.id
  · -- The node itself is still listed only if it has been renamed, and its new name was free.
    rw [hcn, Node.moved_children (hmove.parent_ne h), if_pos rfl, List.mem_append] at hc
    have hin : d.id = dir.id := by
      rcases hc with hc | hc
      · exact absurd hc ((h.forest.once (skeleton_some.2 ⟨d, hd, rfl⟩)).not_mem_erase)
      · by_contra hne
        rw [if_neg hne] at hc
        cases hc
    rw [Node.moved_self hcn] at hname
    have hfree := hmove.free
    rw [hin, hmove.target] at hd
    cases hd
    rw [show (Json.str name) = n.name from hname, h.childNamed_of_mem hmove.target hn hmove.node] at hfree
    cases hfree
  · have hcm := (Node.mem_moved_children (hmove.parent_ne h) hcn).1 hc
    rw [Node.moved_name hcn] at hname
    exact absurd (h.forest.names (skeleton_some.2 ⟨d, hd, rfl⟩) hcm hn (skeleton_some.2 ⟨c, hcget, rfl⟩)
      (skeleton_some.2 ⟨n, hmove.node, rfl⟩) hname) hcn

/-- After the way back every node is as it was before, but for the order of children and the times. -/
theorem reordered {own : String} (hown : n.name = .str own) (hback : Moves t₁ t₂ (n.moved n.id name d.id dir.id now)
    (dir.moved n.id name d.id dir.id now) (d.moved n.id name d.id dir.id now) own later) (hm : t.get? a = some m) :
    ∃ m', t₂.get? a = some m' ∧ m.Reordered m' := by
  refine ⟨_, hback.get_some (hmove.get_some hm), ?_⟩
  simp only [Node.moved_id]
  obtain ⟨hd, -⟩ := hmove.listed h
  refine Node.reordered_back (fun hself => ?_) (hmove.listed_iff h (h.get_self hm))
  have hn := h.get_self hm
  rw [hself, hmove.node] at hn
  cases hn
  obtain ⟨-, x, hx, hparent, -⟩ := (h.parentOf_iff hmove.node).1 hmove.parent
  obtain ⟨k, hk, rfl⟩ := skeleton_some.1 hx
  rw [hmove.node] at hk
  cases hk
  exact ⟨hown, hparent⟩

/-! ## Ways after the move -/

/-- What does not lie below the node is found where it was. -/
theorem lookup_moved {path : String} (hl : t.lookup path = .ok (some m)) (hu : ¬ t.skeleton.Under n.id m.id) :
    t₁.lookup path = .ok (some (m.moved n.id name d.id dir.id now)) := by
  have hkept : ∀ {b m}, ¬ t.skeleton.Under n.id b → t.get? b = some m →
      ∃ m', t₁.get? b = some m' ∧ m'.name = m.name ∧ m'.parent = m.parent ∧ m'.kind = m.kind := fun {b m} hb hm => by
    have hne : m.id ≠ n.id := fun he => hb (he ▸ h.id_eq hm ▸ .refl)
    exact ⟨_, hmove.get_some hm, Node.moved_name hne, Node.moved_parent hne, Node.moved_kind⟩
  obtain ⟨m', hl', hm'⟩ := h.lookup_kept hmove.linked hmove.rootId (fun hab hc hb => hc (hb.tail hab)) hkept hl hu
  rw [hmove.get_some (h.lookup_found hl).1] at hm'
  cases hm'
  exact hl'

/-- What does not lie below the node lies below the same ones as before: no link on the way there has been cut. -/
theorem under_apart {a b : NodeId} (hapart : ¬ t.skeleton.Under n.id b) (hu : t.skeleton.Under a b) : t₁.skeleton.Under a b := by
  induction hu using Relation.ReflTransGen.head_induction_on with
  | refl => exact .refl
  | @head b c hbc hc ih =>
    obtain ⟨x, hx, hup, hnull⟩ := hbc
    obtain ⟨k, hk, rfl⟩ := skeleton_some.1 hx
    have hne : k.id ≠ n.id := fun he => hapart (by rwa [← he, h.id_eq hk])
    exact .head ⟨_, skeleton_some.2 ⟨_, hmove.get_some hk, rfl⟩, (Node.moved_parent hne).trans hup, hnull⟩ ih

theorem sits_moved (hu : ¬ t.skeleton.Under n.id m.id) (hsits : t.Sits names m) : t₁.Sits names (m.moved n.id name d.id dir.id now) :=
  ⟨hsits.valid, hmove.lookup_moved h hsits.found hu⟩

/-- The node itself is found in the directory, by the name that it has been given. -/
theorem sits_node (hway : t.Sits way dir) (hdir : dir.isDir = true) (hvalid : Path.validName name = true) :
    t₁.Sits (way ++ [name]) (n.moved n.id name d.id dir.id now) := by
  have hname : (n.moved n.id name d.id dir.id now).name = .str name := by rw [Node.moved_self rfl]
  refine (sits_snoc hmove.linked).2 ⟨hvalid, _, hmove.sits_moved h hmove.apart hway, Node.moved_isDir.trans hdir, ?_⟩
  have hmem : (n.moved n.id name d.id dir.id now).id ∈ (dir.moved n.id name d.id dir.id now).children := by
    rw [Node.moved_id, Node.moved_children hmove.target_ne]
    simp
  have hc := hmove.linked.childNamed_of_mem (hmove.get_some hmove.target) hmem (hmove.linked.get_self (hmove.get_some hmove.node))
  rwa [hname] at hc

/-- Where the node has been, nothing is found any more. -/
theorem lookup_vacated {own : String} (hown : n.name = .str own) (hplace : t.Sits names d) (hvalid : Path.validName own = true) :
    t₁.lookup (Path.ofComponents (names ++ [own])) = .ok none := by
  obtain ⟨found?, hfound⟩ := hmove.linked.lookup_ok (Path.ofComponents (names ++ [own]))
  rcases found? with _ | x
  · exact hfound
  have hapart : ¬ t.skeleton.Under n.id d.id :=
    h.forest.not_above_under ((h.parentOf_iff hmove.node).1 hmove.parent).2
  have hd := hmove.sits_moved h hapart hplace
  obtain ⟨-, d', hd', -, hc⟩ := (sits_snoc hmove.linked).1 ⟨Path.valid_snoc.2 ⟨hplace.valid, hvalid⟩, hfound⟩
  cases hd'.found.symm.trans hd.found
  rw [← hown, hmove.vacated h] at hc
  cases hc

end Moves

/-! ## Nodes that differ in the order of their children -/

/-- A tree of the same nodes, which may list their children in another order and have been changed at other times. -/
structure Reordered (t t' : Tree) : Prop where
  keys : t'.nodes.keys = t.nodes.keys
  rootId : t'.rootId = t.rootId
  nodes : ∀ {a m}, t.get? a = some m → ∃ m', t'.get? a = some m' ∧ m.Reordered m'

theorem Reordered.refl (t : Tree) : t.Reordered t := ⟨rfl, rfl, fun hm => ⟨_, hm, .refl _⟩⟩

theorem Moves.undone {own : String} (h : Linked t) (hmove : Moves t t₁ n d dir name now) (hown : n.name = .str own)
    (hback : Moves t₁ t₂ (n.moved n.id name d.id dir.id now) (dir.moved n.id name d.id dir.id now)
      (d.moved n.id name d.id dir.id now) own later) : t.Reordered t₂ :=
  ⟨hback.keys.trans hmove.keys, hback.rootId.trans hmove.rootId, hmove.reordered h hown hback⟩

namespace Reordered

variable (h : Linked t) (h' : Linked t') (hr : t.Reordered t')

include h h' hr

/-- A child of a name is found in both trees, or in none: siblings have different names. -/
theorem childNamed {name : Json} (hm : t.get? m.id = some m) {m' : Node} (hm' : t'.get? m.id = some m') (hmm : m.Reordered m') :
    (t.childNamed m name = .ok none ∧ t'.childNamed m' name = .ok none) ∨
      ∃ c c', t.childNamed m name = .ok (some c) ∧ t'.childNamed m' name = .ok (some c') ∧ t.get? c.id = some c ∧
        t'.get? c.id = some c' ∧ c.Reordered c' := by
  rcases h.childNamed_cases hm name with ⟨hc, hno⟩ | ⟨c, hc, hcm, hcget, rfl⟩
  · rcases h'.childNamed_cases hm' name with ⟨hc', -⟩ | ⟨c', -, hcm', hcget', hname'⟩
    · exact .inl ⟨hc, hc'⟩
    · have hcm := hmm.children.mem_iff.1 hcm'
      obtain ⟨c, hcget⟩ := present_of_above ((h.above_iff hm).2 hcm)
      obtain ⟨x, hx, hcx⟩ := hr.nodes hcget
      rw [hcget'] at hx
      cases hx
      refine absurd ?_ (hno _ hcm _ (skeleton_some.2 ⟨c, hcget, rfl⟩))
      rw [← hname', hcx.same]
      rfl
  · obtain ⟨c', hcget', hcc⟩ := hr.nodes hcget
    have hid : c'.id = c.id := by rw [hcc.same]
    have hname : c'.name = c.name := by rw [hcc.same]
    have hc' := h'.childNamed_of_mem hm' (hid ▸ hmm.children.mem_iff.2 hcm) (h'.get_self hcget')
    exact .inr ⟨c, c', hc, hname ▸ hc', hcget, hcget', hcc⟩

theorem descend : ∀ {names : List String} {m m' : Node}, t.get? m.id = some m → t'.get? m.id = some m' → m.Reordered m' →
    (t.descend m names = .ok none ∧ t'.descend m' names = .ok none) ∨
      ∃ x x', t.descend m names = .ok (some x) ∧ t'.descend m' names = .ok (some x') ∧ x.Reordered x'
  | [], m, m', _, _, hmm => .inr ⟨m, m', rfl, rfl, hmm⟩
  | name :: names, m, m', hm, hm', hmm => by
    have hdir : m'.isDir = m.isDir := by
      rw [hmm.same]
      rfl
    unfold Tree.descend
    rw [hdir]
    split
    · exact .inl ⟨rfl, rfl⟩
    rcases hr.childNamed h h' hm hm' hmm with ⟨hc, hc'⟩ | ⟨c, c', hc, hc', hget, hget', hcc⟩
    · rw [hc, hc']
      exact .inl ⟨rfl, rfl⟩
    · rw [hc, hc']
      exact descend hget hget' hcc

/-- At every path the same node is found in both trees, or nothing is. -/
theorem lookup (path : String) : (t.lookup path = .ok none ∧ t'.lookup path = .ok none) ∨
    ∃ x x', t.lookup path = .ok (some x) ∧ t'.lookup path = .ok (some x') ∧ x.Reordered x' := by
  obtain ⟨r, hroot, hget, hid, -⟩ := h.root_ok
  obtain ⟨r', hget', hrr⟩ := hr.nodes hget
  have hroot' : t'.root = .ok r' := node_ok.2 (by rw [hr.rootId, ← hid]; exact hget')
  unfold Tree.lookup
  rw [hroot, hroot']
  exact hr.descend h h' hget hget' hrr

end Reordered

end Tree

/-! ## Nodes that are added and removed again -/

/-- A node without the time of its last change. -/
def Node.ageless (n : Node) : Node := { n with modified := n.created }

namespace Tree

open Skeleton

variable {t t' : Tree} {n d : Node} {a : NodeId} {now : Time.Stamp}

/-- The same nodes, but for the times of their last changes. -/
structure Unaged (t t' : Tree) : Prop where
  rootId : t'.rootId = t.rootId
  node : ∀ a, (t'.get? a).map Node.ageless = (t.get? a).map Node.ageless

/-- A joint and what is bare of it make up a node, but for the time. -/
theorem ageless_eq {n m : Node} (hjoint : m.joint = n.joint) (hbare : m.bare = n.bare) : m.ageless = n.ageless := by
  cases n
  cases m
  unfold Node.joint at hjoint
  unfold Node.bare at hbare
  unfold Node.ageless
  simp_all

/-- Nothing lies below a node without children. -/
theorem Linked.eq_of_under (h : Linked t) (hn : t.get? n.id = some n) (hempty : n.children = []) (hu : t.skeleton.Under n.id a) :
    a = n.id := by
  rcases Relation.ReflTransGen.cases_head hu with he | ⟨c, hc, -⟩
  · exact he.symm
  · have hmem := (h.above_iff hn).1 hc
    rw [hempty] at hmem
    cases hmem

/-- A node that is added to a directory and removed again leaves the nodes of before. -/
theorem Linked.unaged (h : Linked t) (hn : IsNew t n) (hd : t.get? d.id = some d) (h₁ : Linked (t.takeId.2.add n d.id now))
    (hr : Removed (t.takeId.2.add n d.id now) t' n.id d.id) : Unaged t t' := by
  have hnew : (t.takeId.2.add n d.id now).get? n.id = some { n with parent := d.id } := get?_add_new h hn hd
  have halone : ∀ {a}, (t.takeId.2.add n d.id now).skeleton.Under n.id a → a = n.id := fun hu =>
    h₁.eq_of_under (n := { n with parent := d.id }) hnew hn.children hu
  have habsent : t.get? n.id = none := Option.map_eq_none_iff.1 (h.new_absent hn)
  refine ⟨hr.rootId, fun a => ?_⟩
  by_cases ha : a = n.id
  · have hgone : t'.get? a = none := by
      refine Option.map_eq_none_iff.1 (show t'.skeleton a = none from ?_)
      rw [hr.skeleton, ha]
      exact if_pos .refl
    rw [hgone, ha, habsent]
  have hapart : ¬ (t.takeId.2.add n d.id now).skeleton.Under n.id a := fun hu => ha (halone hu)
  by_cases hp : a = d.id
  · -- the directory has lost the child that it had got
    subst hp
    have hold : (t.takeId.2.add n d.id now).get? d.id = some { d with children := d.children ++ [n.id], modified := now } := by
      rw [get?_add_old h hn hd, if_pos rfl]
    have hfree : n.id ∉ d.children := fun hm => by
      obtain ⟨m, hm⟩ := present_of_above ((h.above_iff hd).2 hm)
      rw [habsent] at hm
      cases hm
    have herase : (d.children ++ [n.id]).erase n.id = d.children := by
      rw [List.erase_append_right _ hfree, List.erase_cons_head, List.append_nil]
    have hjoint : t'.skeleton d.id = some d.joint := by
      have hab : (t.takeId.2.add n d.id now).skeleton.Above d.id n.id :=
        (h₁.above_iff hold).2 (List.mem_append_right _ List.mem_cons_self)
      rw [hr.skeleton, prune_eq_some, under_unlink h₁.forest hab]
      refine ⟨hapart, ?_⟩
      rw [unlink_some (skeleton_some.2 ⟨_, hold, rfl⟩), if_pos rfl, if_neg ha]
      exact congrArg (fun children => some { d.joint with children }) herase
    obtain ⟨d', hd', hjoint⟩ := skeleton_some.1 hjoint
    have hbare := hr.bare _ hapart
    unfold Tree.bare at hbare
    rw [hd', hold] at hbare
    rw [hd', hd, Option.map_some, Option.map_some, ageless_eq hjoint (Option.some.inj hbare)]
  · rw [hr.get a hapart hp, get?_add ha hp]

end Tree

end SimUnix
