/-
Forests of linked nodes. A `Skeleton` is what the shape of an arena hangs on: for each id the name,
the kind and the two kinds of links. `Forest` says that the links of both directions agree and never
run in a circle, and each elementary rewiring keeps it.
-/
import SimUnix.Tree.Edit
import Mathlib.Logic.Relation
import Mathlib.Order.WellFounded

namespace SimUnix

/-- What the shape of an arena hangs on in one node. -/
structure Joint where
  id : NodeId
  name : Json
  kind : NodeKind
  children : List NodeId
  parent : Json

/-- The joint of a node. -/
def Node.joint (n : Node) : Joint := ⟨n.id, n.name, n.kind, n.children, n.parent⟩

/-- The joints of an arena by id. -/
abbrev Skeleton := NodeId → Option Joint

/-- The joints of a tree. -/
def Tree.skeleton (t : Tree) : Skeleton := fun id => (t.get? id).map Node.joint

namespace Skeleton

variable {σ : Skeleton} {a b c p : NodeId} {x : Joint}

/-! ## Definitions -/

/-- `p` is the parent of `c`. -/
def Above (σ : Skeleton) (p c : NodeId) : Prop := ∃ x, σ c = some x ∧ x.parent = p ∧ p ≠ .null

/-- `a` is `b` or lies above it. -/
def Under (σ : Skeleton) (a b : NodeId) : Prop := Relation.ReflTransGen σ.Above a b

/-- A node without a parent. -/
def Loose (σ : Skeleton) (a : NodeId) : Prop := ∃ x, σ a = some x ∧ x.parent = .null

/-- No child of a node has a name. -/
def NoneNamed (σ : Skeleton) (children : List NodeId) (name : Json) : Prop :=
  ∀ c ∈ children, ∀ y, σ c = some y → y.name ≠ name

/-- The links of both directions agree: every node is kept under its own id, its parent lists it
exactly once, every listed child is there and has the node for its parent, siblings have different
names, and no way up runs in a circle. -/
structure Forest (σ : Skeleton) : Prop where
  keyed : ∀ {a x}, σ a = some x → x.id = a
  proper : ∀ {x}, σ .null ≠ some x
  up : ∀ {a x}, σ a = some x → x.parent ≠ .null → ∃ y, σ x.parent = some y ∧ a ∈ y.children
  down : ∀ {a x c}, σ a = some x → c ∈ x.children → ∃ y, σ c = some y ∧ y.parent = a
  once : ∀ {a x}, σ a = some x → x.children.Nodup
  names : ∀ {a x c d y z}, σ a = some x → c ∈ x.children → d ∈ x.children → σ c = some y →
    σ d = some z → y.name = z.name → c = d
  grounded : WellFounded σ.Above

/-! ## Elementary rewirings -/

/-- Puts an unlinked node into the arena. -/
def put (σ : Skeleton) (x : Joint) : Skeleton := fun b => if b = x.id then some x else σ b

/-- Links a node as the last child of another one. -/
def link (σ : Skeleton) (c p : NodeId) : Skeleton := fun b => (σ b).map fun y =>
  { y with
    children := if b = p then y.children ++ [c] else y.children
    parent := if b = c then p else y.parent }

/-- Unlinks a node from its parent. -/
def unlink (σ : Skeleton) (c p : NodeId) : Skeleton := fun b => (σ b).map fun y =>
  { y with
    children := if b = p then y.children.erase c else y.children
    parent := if b = c then .null else y.parent }

/-- Gives a node another name. -/
def rename (σ : Skeleton) (c : NodeId) (name : Json) : Skeleton := fun b => (σ b).map fun y =>
  { y with name := if b = c then name else y.name }

theorem link_some (hx : σ a = some x) : σ.link c p a = some
    { x with
      children := if a = p then x.children ++ [c] else x.children
      parent := if a = c then p else x.parent } := by
  simp only [link, hx, Option.map_some]

theorem unlink_some (hx : σ a = some x) : σ.unlink c p a = some
    { x with
      children := if a = p then x.children.erase c else x.children
      parent := if a = c then .null else x.parent } := by
  simp only [unlink, hx, Option.map_some]

theorem rename_some {name : Json} (hx : σ a = some x) :
    σ.rename c name a = some { x with name := if a = c then name else x.name } := by
  simp only [rename, hx, Option.map_some]

open Classical in
/-- Takes a node and everything below it out of the arena. -/
noncomputable def prune (σ : Skeleton) (c : NodeId) : Skeleton := fun b =>
  if σ.Under c b then none else σ b

/-! ## Ways up -/

theorem Above.unique {q : NodeId} (h : σ.Above p c) (h' : σ.Above q c) : p = q := by
  obtain ⟨x, hx, rfl, -⟩ := h
  obtain ⟨y, hy, rfl, -⟩ := h'
  rw [hx] at hy
  cases hy
  rfl

theorem Above.of_parent (hx : σ c = some x) (h : x.parent ≠ .null) : σ.Above x.parent c :=
  ⟨x, hx, rfl, h⟩

theorem Loose.not_above (h : σ.Loose c) : ¬ σ.Above p c := by
  rintro ⟨y, hy, rfl, hp⟩
  obtain ⟨x, hx, h0⟩ := h
  rw [hx] at hy
  cases hy
  exact hp h0

/-- Above a node without a parent there is nothing else. -/
theorem Loose.eq_of_under (h : σ.Loose c) (hu : σ.Under a c) : a = c := by
  rcases Relation.ReflTransGen.cases_tail hu with rfl | ⟨q, -, hq⟩
  · rfl
  · exact absurd hq h.not_above

theorem Forest.ne_null (hF : Forest σ) (hx : σ a = some x) : a ≠ .null := by
  rintro rfl
  exact hF.proper hx

theorem Forest.above_of_mem (hF : Forest σ) (hx : σ a = some x) (hc : c ∈ x.children) : σ.Above a c := by
  obtain ⟨y, hy, rfl⟩ := hF.down hx hc
  exact ⟨y, hy, rfl, hF.ne_null hx⟩

theorem Forest.mem_of_above (hF : Forest σ) (h : σ.Above p c) : ∃ y, σ p = some y ∧ c ∈ y.children := by
  obtain ⟨x, hx, rfl, hp⟩ := h
  exact hF.up hx hp

/-- Nothing lies above itself. -/
theorem Forest.not_above_under (hF : Forest σ) (h : σ.Above p c) : ¬ σ.Under c p := by
  intro hu
  have hloop : Relation.TransGen σ.Above c c := Relation.TransGen.tail' hu h
  have hwf : WellFounded (Relation.TransGen σ.Above) := hF.grounded.transGen
  exact hwf.irrefl.irrefl c hloop

theorem Under.mono {τ : Skeleton} (h : ∀ p c, τ.Above p c → σ.Above p c) (hu : τ.Under a b) : σ.Under a b :=
  Relation.ReflTransGen.mono h _ _ hu

/-- Of two nodes above a third one, one is above the other. -/
theorem Under.total (ha : σ.Under a c) (hb : σ.Under b c) : σ.Under a b ∨ σ.Under b a := by
  induction ha using Relation.ReflTransGen.trans_induction_on generalizing b with
  | refl => exact .inr hb
  | single h =>
    rename_i a c
    rcases Relation.ReflTransGen.cases_tail hb with rfl | ⟨q, hq, hqc⟩
    · exact .inl (.single h)
    · rw [h.unique hqc]
      exact .inr hq
  | trans hab hbc ih1 ih2 =>
    rcases ih2 hb with h | h
    · exact .inl (hab.trans h)
    · exact ih1 h

/-! ## What the rewirings do to the ways up -/

theorem above_put (hnew : σ x.id = none) (hp : x.parent = .null) :
    (σ.put x).Above a b ↔ σ.Above a b := by
  unfold Above put
  grind

theorem above_link (hc : σ.Loose c) (hp : p ≠ .null) :
    (σ.link c p).Above a b ↔ (b = c ∧ a = p) ∨ σ.Above a b := by
  obtain ⟨x, hx, h0⟩ := hc
  unfold Above link
  simp only [Option.map_eq_some_iff]
  constructor
  · rintro ⟨_, ⟨y, hy, rfl⟩, h, ha⟩
    by_cases hb : b = c
    · simp only [hb, if_true] at h
      exact .inl ⟨hb, h.symm⟩
    · simp only [hb, if_false] at h
      exact .inr ⟨y, hy, h, ha⟩
  · rintro (⟨rfl, rfl⟩ | ⟨y, hy, h, ha⟩)
    · exact ⟨_, ⟨x, hx, rfl⟩, by simp, hp⟩
    · refine ⟨_, ⟨y, hy, rfl⟩, ?_, ha⟩
      have hb : b ≠ c := by
        rintro rfl
        rw [hx] at hy
        cases hy
        exact ha (h ▸ h0)
      simp only [hb, if_false, h]

theorem above_unlink : (σ.unlink c p).Above a b ↔ b ≠ c ∧ σ.Above a b := by
  unfold Above unlink
  simp only [Option.map_eq_some_iff]
  constructor
  · rintro ⟨_, ⟨y, hy, rfl⟩, h, ha⟩
    by_cases hb : b = c
    · simp only [hb, if_true] at h
      exact absurd h.symm ha
    · simp only [hb, if_false] at h
      exact ⟨hb, y, hy, h, ha⟩
  · rintro ⟨hb, y, hy, h, ha⟩
    exact ⟨_, ⟨y, hy, rfl⟩, by simp only [hb, if_false, h], ha⟩

theorem above_rename {name : Json} : (σ.rename c name).Above a b ↔ σ.Above a b := by
  unfold Above rename
  simp only [Option.map_eq_some_iff]
  constructor
  · rintro ⟨_, ⟨y, hy, rfl⟩, h⟩
    exact ⟨y, hy, h⟩
  · rintro ⟨y, hy, h⟩
    exact ⟨_, ⟨y, hy, rfl⟩, h⟩

theorem prune_eq_some {y : Joint} : σ.prune c b = some y ↔ ¬ σ.Under c b ∧ σ b = some y := by
  unfold prune
  split <;> simp_all

theorem above_prune : (σ.prune c).Above a b ↔ ¬ σ.Under c b ∧ σ.Above a b := by
  unfold Above
  simp only [prune_eq_some]
  constructor
  · rintro ⟨x, ⟨hu, hx⟩, h⟩
    exact ⟨hu, x, hx, h⟩
  · rintro ⟨hu, x, hx, h⟩
    exact ⟨x, ⟨hu, hx⟩, h⟩

/-! ## The rewirings keep a forest -/

theorem put_self : σ.put x x.id = some x := if_pos rfl

theorem put_of_ne (h : a ≠ x.id) : σ.put x a = σ a := if_neg h

/-- What was in the arena is there still when a new node is put into it. -/
theorem put_old {y : Joint} (hnew : σ x.id = none) (hy : σ a = some y) : σ.put x a = some y := by
  rw [put_of_ne, hy]
  rintro rfl
  rw [hnew] at hy
  cases hy

theorem Forest.put (hF : Forest σ) (hnew : σ x.id = none) (hid : x.id ≠ .null) (hc : x.children = [])
    (hp : x.parent = .null) : Forest (σ.put x) := by
  have hcases : ∀ {a y}, σ.put x a = some y → (a = x.id ∧ y = x) ∨ σ a = some y := by
    intro a y hy
    by_cases ha : a = x.id
    · rw [ha, put_self] at hy
      exact .inl ⟨ha, (Option.some.inj hy).symm⟩
    · rw [put_of_ne ha] at hy
      exact .inr hy
  -- The new node has no children, so that every link is an old one.
  have hlinked : ∀ {a y d}, σ.put x a = some y → d ∈ y.children → σ a = some y := by
    intro a y d hy hd
    rcases hcases hy with ⟨-, rfl⟩ | hy
    · rw [hc] at hd
      cases hd
    · exact hy
  refine ⟨?_, ?_, ?_, ?_, ?_, ?_, ?_⟩
  · intro a y hy
    rcases hcases hy with ⟨rfl, rfl⟩ | hy
    · rfl
    · exact hF.keyed hy
  · intro y hy
    rcases hcases hy with ⟨h, -⟩ | hy
    · exact hid h.symm
    · exact hF.proper hy
  · intro a y hy h
    rcases hcases hy with ⟨-, rfl⟩ | hy
    · exact absurd hp h
    · obtain ⟨z, hz, hm⟩ := hF.up hy h
      exact ⟨z, put_old hnew hz, hm⟩
  · intro a y d hy hd
    obtain ⟨z, hz, hpar⟩ := hF.down (hlinked hy hd) hd
    exact ⟨z, put_old hnew hz, hpar⟩
  · intro a y hy
    rcases hcases hy with ⟨-, rfl⟩ | hy
    · rw [hc]
      exact List.nodup_nil
    · exact hF.once hy
  · intro a y d e z w hy hd he hz hw hn
    have hold := hlinked hy hd
    have hchild : ∀ {k u}, k ∈ y.children → σ.put x k = some u → σ k = some u := by
      intro k u hk hu
      obtain ⟨v, hv, -⟩ := hF.down hold hk
      rw [put_old hnew hv] at hu
      rw [hv, hu]
    exact hF.names hold hd he (hchild hd hz) (hchild he hw) hn
  · exact Subrelation.wf (fun hab => (above_put hnew hp).1 hab) hF.grounded

/-- Hanging a node below one that is not below it makes no circle. -/
theorem grounded_link (hF : Forest σ) (hc : σ.Loose c) (hp : p ≠ .null) (hu : ¬ σ.Under c p) :
    WellFounded (σ.link c p).Above := by
  have hout : ∀ b, ¬ σ.Under c b → Acc (σ.link c p).Above b := by
    intro b
    induction b using hF.grounded.induction with
    | _ b ih =>
      intro hb
      refine Acc.intro b fun a ha => ?_
      rcases (above_link hc hp).1 ha with ⟨rfl, -⟩ | ha
      · exact absurd .refl hb
      · exact ih a ha fun h => hb (h.tail ha)
  refine ⟨fun b => ?_⟩
  induction b using hF.grounded.induction with
  | _ b ih =>
    refine Acc.intro b fun a ha => ?_
    rcases (above_link hc hp).1 ha with ⟨-, rfl⟩ | ha
    · exact hout a hu
    · exact ih a ha

/-- A node's children after linking: those of before and, where it is the new parent, the linked node. -/
theorem mem_children_link {w : Joint} {d : NodeId} (hw : σ.link c p a = some w) (hd : d ∈ w.children) :
    (a = p ∧ d = c) ∨ ∃ v, σ a = some v ∧ d ∈ v.children := by
  obtain ⟨v, hv, rfl⟩ := Option.map_eq_some_iff.1 hw
  dsimp only at hd
  split at hd
  · rcases List.mem_append.1 hd with h | h
    · exact .inr ⟨v, hv, h⟩
    · exact .inl ⟨‹_›, List.mem_singleton.1 h⟩
  · exact .inr ⟨v, hv, hd⟩

/-- Siblings keep different names when the linked node's name is new among them. -/
theorem Forest.names_link {y w z v : Joint} {d e : NodeId} (hF : Forest σ) (hx : σ c = some x) (hy : σ p = some y)
    (hfresh : σ.NoneNamed y.children x.name) (hw : σ.link c p a = some w) (hd : d ∈ w.children)
    (he : e ∈ w.children) (hz : σ.link c p d = some z) (hv : σ.link c p e = some v) (hn : z.name = v.name) : d = e := by
  obtain ⟨z', hz', rfl⟩ := Option.map_eq_some_iff.1 hz
  obtain ⟨v', hv', rfl⟩ := Option.map_eq_some_iff.1 hv
  rcases mem_children_link hw hd with ⟨hap, rfl⟩ | ⟨u, hu, hd⟩ <;>
    rcases mem_children_link hw he with ⟨hap', rfl⟩ | ⟨u', hu', he⟩
  · rfl
  · rw [hap, hy] at hu'
    cases hu'
    rw [hx] at hz'
    cases hz'
    exact absurd hn.symm (hfresh e he v' hv')
  · rw [hap', hy] at hu
    cases hu
    rw [hx] at hv'
    cases hv'
    exact absurd hn (hfresh d hd z' hz')
  · rw [hu] at hu'
    cases hu'
    exact hF.names hu hd he hz' hv' hn

theorem Forest.link {y : Joint} (hF : Forest σ) (hx : σ c = some x) (hxp : x.parent = .null)
    (hy : σ p = some y) (hu : ¬ σ.Under c p) (hfresh : σ.NoneNamed y.children x.name) :
    Forest (σ.link c p) := by
  have hc : σ.Loose c := ⟨x, hx, hxp⟩
  have hp : p ≠ .null := hF.ne_null hy
  have hnot : ∀ {a w}, σ a = some w → c ∉ w.children :=
    fun hw hm => hc.not_above (hF.above_of_mem hw hm)
  refine ⟨?_, ?_, ?_, ?_, ?_, hF.names_link hx hy hfresh, grounded_link hF hc hp hu⟩
  · intro a w hw
    obtain ⟨v, hv, rfl⟩ := Option.map_eq_some_iff.1 hw
    have hid : v.id = a := hF.keyed hv
    exact hid
  · intro w hw
    obtain ⟨v, hv, -⟩ := Option.map_eq_some_iff.1 hw
    exact hF.proper hv
  · intro a w hw h
    obtain ⟨v, hv, rfl⟩ := Option.map_eq_some_iff.1 hw
    by_cases ha : a = c
    · simp only [ha, if_true]
      exact ⟨_, link_some hy, by simp⟩
    · simp only [ha, if_false] at h ⊢
      obtain ⟨z, hz, hm⟩ := hF.up hv h
      refine ⟨_, link_some hz, ?_⟩
      dsimp only
      split
      · exact List.mem_append_left _ hm
      · exact hm
  · intro a w d hw hd
    rcases mem_children_link hw hd with ⟨rfl, rfl⟩ | ⟨v, hv, hd⟩
    · exact ⟨_, link_some hx, by simp⟩
    · obtain ⟨z, hz, hpar⟩ := hF.down hv hd
      have hdc : d ≠ c := by
        rintro rfl
        exact hnot hv hd
      exact ⟨_, link_some hz, by simp only [hdc, if_false, hpar]⟩
  · intro a w hw
    obtain ⟨v, hv, rfl⟩ := Option.map_eq_some_iff.1 hw
    dsimp only
    split
    · refine List.nodup_append.2 ⟨hF.once hv, by simp, ?_⟩
      rintro d hd e he rfl
      exact hnot hv (List.mem_singleton.1 he ▸ hd)
    · exact hF.once hv

/-- Unlinking adds no child to any node. -/
theorem mem_of_erased {children : List NodeId} {d : NodeId}
    (hd : d ∈ (if a = p then children.erase c else children)) : d ∈ children := by
  split at hd
  · exact List.mem_of_mem_erase hd
  · exact hd

theorem Forest.unlink (hF : Forest σ) (h : σ.Above p c) : Forest (σ.unlink c p) := by
  refine ⟨?_, ?_, ?_, ?_, ?_, ?_, ?_⟩
  · intro a w hw
    obtain ⟨v, hv, rfl⟩ := Option.map_eq_some_iff.1 hw
    have hid : v.id = a := hF.keyed hv
    exact hid
  · intro w hw
    obtain ⟨v, hv, -⟩ := Option.map_eq_some_iff.1 hw
    exact hF.proper hv
  · intro a w hw hp
    obtain ⟨v, hv, rfl⟩ := Option.map_eq_some_iff.1 hw
    by_cases ha : a = c
    · simp [ha] at hp
    · simp only [ha, if_false] at hp ⊢
      obtain ⟨z, hz, hm⟩ := hF.up hv hp
      refine ⟨_, unlink_some hz, ?_⟩
      dsimp only
      split
      · exact (List.mem_erase_of_ne ha).2 hm
      · exact hm
  · intro a w d hw hd
    obtain ⟨v, hv, rfl⟩ := Option.map_eq_some_iff.1 hw
    have hmem : d ∈ v.children := mem_of_erased hd
    obtain ⟨z, hz, hpar⟩ := hF.down hv hmem
    have hdc : d ≠ c := by
      rintro rfl
      have hap : a = p := (hF.above_of_mem hv hmem).unique h
      simp only [hap, if_true] at hd
      exact (hF.once (hap ▸ hv)).not_mem_erase hd
    exact ⟨_, unlink_some hz, by simp only [hdc, if_false, hpar]⟩
  · intro a w hw
    obtain ⟨v, hv, rfl⟩ := Option.map_eq_some_iff.1 hw
    dsimp only
    split
    · exact (hF.once hv).erase c
    · exact hF.once hv
  · intro a w d e y z hw hd he hy hz hn
    obtain ⟨v, hv, rfl⟩ := Option.map_eq_some_iff.1 hw
    obtain ⟨u, hu, rfl⟩ := Option.map_eq_some_iff.1 hy
    obtain ⟨r, hr, rfl⟩ := Option.map_eq_some_iff.1 hz
    exact hF.names hv (mem_of_erased hd) (mem_of_erased he) hu hr hn
  · exact Subrelation.wf (fun hab => (above_unlink.1 hab).2) hF.grounded

theorem Forest.rename {name : Json} (hF : Forest σ) (hc : σ.Loose c) : Forest (σ.rename c name) := by
  refine ⟨?_, ?_, ?_, ?_, ?_, ?_, ?_⟩
  · intro a w hw
    obtain ⟨v, hv, rfl⟩ := Option.map_eq_some_iff.1 hw
    have hid : v.id = a := hF.keyed hv
    exact hid
  · intro w hw
    obtain ⟨v, hv, -⟩ := Option.map_eq_some_iff.1 hw
    exact hF.proper hv
  · intro a w hw hp
    obtain ⟨v, hv, rfl⟩ := Option.map_eq_some_iff.1 hw
    obtain ⟨z, hz, hm⟩ := hF.up hv hp
    exact ⟨_, rename_some hz, hm⟩
  · intro a w d hw hd
    obtain ⟨v, hv, rfl⟩ := Option.map_eq_some_iff.1 hw
    obtain ⟨z, hz, hpar⟩ := hF.down hv hd
    exact ⟨_, rename_some hz, hpar⟩
  · intro a w hw
    obtain ⟨v, hv, rfl⟩ := Option.map_eq_some_iff.1 hw
    have honce : v.children.Nodup := hF.once hv
    exact honce
  · intro a w d e y z hw hd he hy hz hn
    obtain ⟨v, hv, rfl⟩ := Option.map_eq_some_iff.1 hw
    obtain ⟨u, hu, rfl⟩ := Option.map_eq_some_iff.1 hy
    obtain ⟨r, hr, rfl⟩ := Option.map_eq_some_iff.1 hz
    have hold : ∀ {k}, k ∈ v.children → k ≠ c := by
      rintro k hk rfl
      exact hc.not_above (hF.above_of_mem hv hk)
    simp only [hold hd, hold he, if_false] at hn
    exact hF.names hv hd he hu hr hn
  · exact Subrelation.wf (fun hab => above_rename.1 hab) hF.grounded

/-- Below a node that stays, nothing is pruned but what hangs on the pruned root. -/
theorem Forest.prune (hF : Forest σ) (hc : σ.Loose c) : Forest (σ.prune c) := by
  refine ⟨?_, ?_, ?_, ?_, ?_, ?_, ?_⟩
  · intro a w hw
    exact hF.keyed (prune_eq_some.1 hw).2
  · intro w hw
    exact hF.proper (prune_eq_some.1 hw).2
  · intro a w hw hp
    obtain ⟨hu, hw⟩ := prune_eq_some.1 hw
    obtain ⟨y, hy, hm⟩ := hF.up hw hp
    exact ⟨y, prune_eq_some.2 ⟨fun h => hu (h.tail (.of_parent hw hp)), hy⟩, hm⟩
  · intro a w d hw hd
    obtain ⟨hu, hold⟩ := prune_eq_some.1 hw
    have hup : σ.Above a d := hF.above_of_mem hold hd
    obtain ⟨y, hy, hpar⟩ := hF.down hold hd
    refine ⟨y, prune_eq_some.2 ⟨fun h => ?_, hy⟩, hpar⟩
    rcases Relation.ReflTransGen.cases_tail h with rfl | ⟨q, hq, hqd⟩
    · exact hc.not_above hup
    · exact hu (hqd.unique hup ▸ hq)
  · intro a w hw
    exact hF.once (prune_eq_some.1 hw).2
  · intro a w d e y z hw hd he hy hz hn
    exact hF.names (prune_eq_some.1 hw).2 hd he (prune_eq_some.1 hy).2 (prune_eq_some.1 hz).2 hn
  · exact Subrelation.wf (fun hab => (above_prune.1 hab).2) hF.grounded

/-! ## Which nodes have no parent -/

theorem loose_put (hp : x.parent = .null) : (σ.put x).Loose a ↔ a = x.id ∨ σ.Loose a := by
  unfold Loose Skeleton.put
  by_cases ha : a = x.id
  · simp [ha, hp]
  · simp only [ha, if_false, false_or]

theorem loose_link (hp : p ≠ .null) : (σ.link c p).Loose a ↔ a ≠ c ∧ σ.Loose a := by
  unfold Loose Skeleton.link
  simp only [Option.map_eq_some_iff]
  constructor
  · rintro ⟨_, ⟨y, hy, rfl⟩, h⟩
    by_cases ha : a = c
    · simp only [ha, if_true] at h
      exact absurd h hp
    · simp only [ha, if_false] at h
      exact ⟨ha, y, hy, h⟩
  · rintro ⟨ha, y, hy, h⟩
    exact ⟨_, ⟨y, hy, rfl⟩, by simp only [ha, if_false, h]⟩

theorem loose_unlink (h : σ.Above p c) : (σ.unlink c p).Loose a ↔ a = c ∨ σ.Loose a := by
  unfold Loose Skeleton.unlink
  simp only [Option.map_eq_some_iff]
  constructor
  · rintro ⟨_, ⟨y, hy, rfl⟩, h⟩
    by_cases ha : a = c
    · exact .inl ha
    · simp only [ha, if_false] at h
      exact .inr ⟨y, hy, h⟩
  · rintro (rfl | ⟨y, hy, h⟩)
    · obtain ⟨x, hx, -⟩ := h
      exact ⟨_, ⟨x, hx, rfl⟩, by simp⟩
    · exact ⟨_, ⟨y, hy, rfl⟩, by simp [h]⟩

theorem loose_rename {name : Json} : (σ.rename c name).Loose a ↔ σ.Loose a := by
  unfold Loose Skeleton.rename
  simp only [Option.map_eq_some_iff]
  constructor
  · rintro ⟨_, ⟨y, hy, rfl⟩, h⟩
    exact ⟨y, hy, h⟩
  · rintro ⟨y, hy, h⟩
    exact ⟨_, ⟨y, hy, rfl⟩, h⟩

theorem loose_prune (hc : σ.Loose c) : (σ.prune c).Loose a ↔ a ≠ c ∧ σ.Loose a := by
  unfold Loose
  simp only [prune_eq_some]
  constructor
  · rintro ⟨x, ⟨hu, hx⟩, h⟩
    refine ⟨?_, x, hx, h⟩
    rintro rfl
    exact hu .refl
  · rintro ⟨hne, x, hx, h⟩
    exact ⟨x, ⟨fun hu => hne (Loose.eq_of_under ⟨x, hx, h⟩ hu).symm, hx⟩, h⟩

end Skeleton

end SimUnix
