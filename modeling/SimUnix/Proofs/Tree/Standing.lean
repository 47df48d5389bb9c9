/-
Where a node stands: its name and its parent, its kind, and who may do what with it. A change that leaves
nodes where they stand leaves the names that lead to them, whatever else happens in the tree.
-/
import SimUnix.Proofs.Tree.Lookup
import SimUnix.Proofs.Tree.Reshape

namespace SimUnix

/-- A node without its children, its content and the time of its last change. -/
def Node.standing (n : Node) : Node := { n with children := [], content := .null, modified := n.created }

namespace Tree

open Skeleton

variable {t t₁ t' : Tree} {n m c d dir : Node} {a p : NodeId} {now : Time.Stamp} {edited : NodeId → Prop}

/-! ## Changes that spare the nodes of before -/

/-- Some nodes still stand where they stood, and have their content. -/
def Untouched (F : NodeId → Prop) (t t' : Tree) : Prop :=
  ∀ a n, F a → t.get? a = some n → ∃ n', t'.get? a = some n' ∧ n'.standing = n.standing ∧ n'.content = n.content

theorem Untouched.refl {F : NodeId → Prop} : Untouched F t t := fun _ _ _ hn => ⟨_, hn, rfl, rfl⟩

theorem Untouched.trans {F : NodeId → Prop} (h₁ : Untouched F t t₁) (h₂ : Untouched F t₁ t') : Untouched F t t' := by
  intro a n ha hn
  obtain ⟨n₁, hn₁, hs₁, hc₁⟩ := h₁ a n ha hn
  obtain ⟨n', hn', hs', hc'⟩ := h₂ a n₁ ha hn₁
  exact ⟨n', hn', hs'.trans hs₁, hc'.trans hc₁⟩

/-- A node stands where it stood if it has not been given another place, and it has its content anyway. -/
theorem Reshaped.untouched {F kids places : NodeId → Prop} (h : Reshaped kids places t t') (hp : ∀ a, F a → ¬ places a)
    (hk : ∀ a n, F a → t.get? a = some n → t'.get? a ≠ none) : Untouched F t t' := by
  intro a n ha hn
  obtain ⟨n', hn'⟩ := Option.ne_none_iff_exists'.1 (hk a n ha hn)
  have hplace : n'.name = n.name ∧ n'.parent = n.parent := by
    by_contra hne
    exact hp a ha (h.place hn hn' (not_and_or.1 hne))
  have hcore := h.core hn hn'
  refine ⟨n', hn', ?_, show n'.core.content = n.core.content by rw [hcore]⟩
  have hstand := congrArg (fun c : Node => { c with name := n.name, parent := n.parent, content := .null }) hcore
  obtain ⟨hname, hparent⟩ := hplace
  cases n
  cases n'
  simp only at hname hparent
  subst hname hparent
  exact hstand

/-- All nodes still stand where they stood, and those that have not been edited have their content. -/
structure Spares (edited : NodeId → Prop) (t t' : Tree) : Prop where
  rootId : t'.rootId = t.rootId
  node : ∀ {a n}, t.get? a = some n →
    ∃ n', t'.get? a = some n' ∧ n'.standing = n.standing ∧ (¬ edited a → n'.content = n.content)

theorem Spares.refl : Spares edited t t := ⟨rfl, fun hn => ⟨_, hn, rfl, fun _ => rfl⟩⟩

theorem Spares.trans (h₁ : Spares edited t t₁) (h₂ : Spares edited t₁ t') : Spares edited t t' := by
  refine ⟨h₂.rootId.trans h₁.rootId, fun hn => ?_⟩
  obtain ⟨n₁, hn₁, hs₁, hc₁⟩ := h₁.node hn
  obtain ⟨n', hn', hs', hc'⟩ := h₂.node hn₁
  exact ⟨n', hn', hs'.trans hs₁, fun ha => (hc' ha).trans (hc₁ ha)⟩

theorem Spares.imp {edited' : NodeId → Prop} (h : Spares edited t t') (he : ∀ a, edited a → edited' a) : Spares edited' t t' :=
  ⟨h.rootId, fun hn => by
    obtain ⟨n', hn', hs, hc⟩ := h.node hn
    exact ⟨n', hn', hs, fun ha => hc fun hedited => ha (he _ hedited)⟩⟩

/-- What has not been edited is untouched. -/
theorem Spares.untouched {F : NodeId → Prop} (h : Spares edited t t') (hF : ∀ a, F a → ¬ edited a) : Untouched F t t' := by
  intro a n ha hn
  obtain ⟨n', hn', hs, hc⟩ := h.node hn
  exact ⟨n', hn', hs, hc (hF a ha)⟩

/-- A new node below a directory leaves all others where they are. -/
theorem spares_add (h : Linked t) (hn : IsNew t n) : Spares edited t (t.takeId.2.add n p now) :=
  ⟨rfl, fun {a m} hm => by
    rw [get?_add_old h hn hm]
    split <;> exact ⟨_, rfl, rfl, fun _ => rfl⟩⟩

/-- A change of the content of one node. -/
theorem spares_edit {f : Node → Node} (hf : ∀ n, (f n).standing = n.standing) : Spares (· = a) t (t.update a f) :=
  ⟨rfl, fun {b m} hm => by
    rw [get?_update, hm]
    split
    · rename_i hb
      exact ⟨_, rfl, hf m, fun hne => absurd hb hne⟩
    · exact ⟨_, rfl, rfl, fun _ => rfl⟩⟩

/-! ## Children by name -/

/-- The child of a directory that has a name is the node with that name and that parent. -/
theorem Linked.childNamed_iff (h : Linked t) (hd : t.get? d.id = some d) {name : Json} :
    t.childNamed d name = .ok (some c) ↔ t.get? c.id = some c ∧ c.parent = d.id ∧ c.name = name := by
  have hchild : ∀ {m : Node}, t.get? m.id = some m → (m.id ∈ d.children ↔ m.parent = d.id) := by
    intro m hm
    rw [← h.above_iff hd]
    constructor
    · rintro ⟨x, hx, hp, -⟩
      rw [skeleton_some.2 ⟨m, hm, rfl⟩] at hx
      cases hx
      exact hp
    · intro hp
      exact ⟨m.joint, skeleton_some.2 ⟨m, hm, rfl⟩, hp, h.forest.ne_null (skeleton_some.2 ⟨d, hd, rfl⟩)⟩
  constructor
  · intro hc
    obtain ⟨hm, hget, hname⟩ := h.childNamed_some hd hc
    exact ⟨hget, (hchild hget).1 hm, hname⟩
  · rintro ⟨hget, hp, hname⟩
    have hm := (hchild hget).2 hp
    rcases h.childNamed_cases hd name with ⟨-, hnone⟩ | ⟨m, hm', hmem, hmget, hmname⟩
    · exact absurd hname (hnone _ hm _ (skeleton_some.2 ⟨c, hget, rfl⟩))
    · have hsame : m.id = c.id := h.forest.names (skeleton_some.2 ⟨d, hd, rfl⟩) hmem hm (skeleton_some.2 ⟨m, hmget, rfl⟩)
        (skeleton_some.2 ⟨c, hget, rfl⟩) (hmname.trans hname.symm)
      rw [hsame, hget] at hmget
      cases hmget
      exact hm'

/-- Names that lead down from one node to another, whatever kinds of nodes are on the way. -/
def Reaches (t : Tree) : Node → List String → Node → Prop
  | n, [], m => m = n
  | n, name :: rest, m => ∃ c, t.childNamed n name = .ok (some c) ∧ t.Reaches c rest m

theorem Reaches.unique : ∀ {names : List String} {n m m' : Node}, t.Reaches n names m → t.Reaches n names m' → m = m'
  | [], _, _, _, h, h' => h.trans h'.symm
  | _ :: _, _, _, _, ⟨c, hc, h⟩, ⟨c', hc', h'⟩ => by
    rw [hc] at hc'
    cases hc'
    exact h.unique h'

theorem Linked.reaches_found (h : Linked t) : ∀ {names : List String} {n m : Node}, t.get? n.id = some n →
    t.Reaches n names m → t.get? m.id = some m ∧ t.skeleton.Under n.id m.id
  | [], _, _, hn, hr => by
    cases hr
    exact ⟨hn, .refl⟩
  | _ :: _, n, _, hn, ⟨c, hc, hr⟩ => by
    obtain ⟨hm, hget, -⟩ := h.childNamed_some hn hc
    obtain ⟨hfound, hu⟩ := h.reaches_found hget hr
    exact ⟨hfound, hu.head ((h.above_iff hn).2 hm)⟩

theorem Linked.reaches_of_descend (h : Linked t) : ∀ {names : List String} {n : Node}, t.get? n.id = some n →
    t.descend n names = .ok (some m) → t.Reaches n names m
  | [], _, _, hd => by
    cases hd
    rfl
  | name :: _, n, hn, hd => by
    unfold Tree.descend at hd
    split at hd
    · cases hd
    · rcases h.childNamed_cases hn name with ⟨hc, -⟩ | ⟨c, hc, -, hget, -⟩
      · rw [hc] at hd
        cases hd
      · rw [hc] at hd
        exact ⟨c, hc, h.reaches_of_descend hget hd⟩

theorem standing_place {n n' : Node} (h : n'.standing = n.standing) : n'.id = n.id ∧ n'.name = n.name ∧ n'.parent = n.parent :=
  have hfield : ∀ {β : Type} (field : Node → β), field n'.standing = field n.standing := fun field => congrArg field h
  ⟨hfield Node.id, hfield Node.name, hfield Node.parent⟩

theorem standing_isDir {n n' : Node} (h : n'.standing = n.standing) : n'.isDir = n.isDir :=
  show n'.standing.isDir = n.standing.isDir by rw [h]

/-- A child that still stands where it stood is found under its name. -/
theorem childNamed_stands (h : Linked t) (h' : Linked t') (hd : t.get? d.id = some d) {d' c' : Node} {name : Json}
    (hc : t.childNamed d name = .ok (some c)) (hd' : t'.get? d.id = some d') (hc' : t'.get? c.id = some c')
    (hs : c'.standing = c.standing) : t'.childNamed d' name = .ok (some c') := by
  obtain ⟨-, hp, hname⟩ := (h.childNamed_iff hd).1 hc
  obtain ⟨-, hsname, hsp⟩ := standing_place hs
  exact (h'.childNamed_iff (h'.get_self hd')).2 ⟨h'.get_self hc', hsp.trans (hp.trans (h'.id_eq hd').symm), hsname.trans hname⟩

/-- Names that led to a node still do. -/
theorem Spares.reaches (h : Linked t) (h' : Linked t') (hs : Spares edited t t') : ∀ {names : List String} {n n' m : Node},
    t.get? n.id = some n → t'.get? n.id = some n' → t.Reaches n names m → ∃ m', t'.get? m.id = some m' ∧ t'.Reaches n' names m'
  | [], _, n', _, _, hn', hr => by
    cases hr
    exact ⟨n', hn', rfl⟩
  | _ :: _, n, n', _, hn, hn', ⟨c, hc, hr⟩ => by
    obtain ⟨-, hget, -⟩ := h.childNamed_some hn hc
    obtain ⟨c', hc', hstand, -⟩ := hs.node hget
    obtain ⟨m', hm', hr'⟩ := hs.reaches h h' hget hc' hr
    exact ⟨m', hm', c', childNamed_stands h h' hn hc hn' hc' hstand, hr'⟩

end Tree

end SimUnix
