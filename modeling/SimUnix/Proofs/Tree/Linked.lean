/-
The invariant of the arena. `Linked` says that a tree is kept in order: one entry for each id, a
forest of links, a root directory without a parent, texts for ids and names, and a supply whose ids
are all unused. `Whole` says that nothing but the root is without a parent.
-/
import SimUnix.Proofs.Tree.Forest
import Mathlib.Tactic.SplitIfs

namespace SimUnix

/-! ## Fresh ids -/

/-- The id of a number in a supply. -/
def IdSupply.at (s : IdSupply) (k : Nat) : NodeId := .str (s.stem ++ toString k)

/-- Different numbers are written differently. -/
theorem toString_inj {j k : Nat} (h : toString j = toString k) : j = k := by
  rw [Nat.toString_eq_ofList_toDigits, Nat.toString_eq_ofList_toDigits] at h
  have hd : Nat.toDigits 10 j = Nat.toDigits 10 k := String.ofList_injective h
  rw [← Nat.ofDigitChars_ten_toDigits (n := j), hd, Nat.ofDigitChars_ten_toDigits]

theorem IdSupply.at_inj {s : IdSupply} {j k : Nat} (h : s.at j = s.at k) : j = k :=
  toString_inj ((String.append_right_inj _).1 (Json.str.inj h))

/-- A node without its links and without the time of its last change. -/
def Node.bare (n : Node) : Node := { n with children := [], parent := .null, modified := n.created }

/-- The nodes of a tree without their links. -/
def Tree.bare (t : Tree) (id : NodeId) : Option Node := (t.get? id).map Node.bare

/-- A supply from which some ids have been taken. -/
structure IdSupply.Later (s s' : IdSupply) : Prop where
  stem : s'.stem = s.stem
  next : s.next ≤ s'.next

theorem IdSupply.Later.refl (s : IdSupply) : s.Later s := ⟨rfl, Nat.le_refl _⟩

theorem IdSupply.Later.trans {s₁ s₂ s₃ : IdSupply} (h₁ : s₁.Later s₂) (h₂ : s₂.Later s₃) : s₁.Later s₃ :=
  ⟨h₂.stem.trans h₁.stem, Nat.le_trans h₁.next h₂.next⟩

theorem IdSupply.later_rest (s : IdSupply) : s.Later s.rest := ⟨rfl, Nat.le_succ _⟩

theorem IdSupply.Later.at {s s' : IdSupply} (h : s.Later s') (k : Nat) : s'.at k = s.at k := by
  unfold IdSupply.at
  rw [h.stem]

/-- An id that a supply has still to give. -/
def IdSupply.Yields (s : IdSupply) (a : NodeId) : Prop := ∃ k, s.next ≤ k ∧ a = s.at k

theorem IdSupply.yields_id (s : IdSupply) : s.Yields s.id := ⟨s.next, Nat.le_refl _, rfl⟩

theorem IdSupply.Yields.earlier {s s' : IdSupply} {a : NodeId} (h : s'.Yields a) (hl : s.Later s') : s.Yields a := by
  obtain ⟨k, hk, rfl⟩ := h
  exact ⟨k, Nat.le_trans hl.next hk, hl.at k⟩

/-! ## Tables -/

namespace Keyed

variable {κ α : Type} [DecidableEq κ] {table : Keyed κ α} {k l : κ} {v : α}

theorem mem_keys_iff : k ∈ table.keys ↔ ∃ v, table.get? k = some v := by
  unfold Keyed.get? Keyed.keys
  induction table with
  | nil => simp
  | cons q rest ih =>
    obtain ⟨j, w⟩ := q
    by_cases h : k = j
    · simp [h]
    · have hb : (k == j) = false := by simpa using h
      simp only [List.map_cons, List.mem_cons, h, false_or, List.lookup_cons, hb]
      exact ih

theorem get?_drop (hnd : table.keys.Nodup) : (table.drop l).get? k = if k = l then none else table.get? k := by
  by_cases he : k = l
  · rw [if_pos he]
    have hout : k ∉ (table.drop l).keys := by
      rw [keys_drop, he]
      exact hnd.not_mem_erase
    by_contra hne
    exact hout (mem_keys_iff.2 (Option.ne_none_iff_exists'.1 hne))
  · rw [if_neg he, get?_drop_of_ne _ he]

theorem nodup_put (h : table.keys.Nodup) : (table.put k v).keys.Nodup := by
  rw [keys_put]
  split
  · exact h
  · rename_i hk
    refine List.nodup_append.2 ⟨h, List.Pairwise.cons (by simp) .nil, fun x hx y hy => ?_⟩
    rcases List.mem_singleton.1 hy with rfl
    rintro rfl
    exact hk hx

theorem nodup_drop (h : table.keys.Nodup) : (table.drop k).keys.Nodup := by
  rw [keys_drop]
  exact h.erase k

end Keyed

namespace Tree

variable {t : Tree} {n : Node} {id a c p : NodeId} {now : Time.Stamp} {f : Node → Node}

/-! ## The arena as a table -/

theorem get?_update : (t.update id f).get? a = if a = id then (t.get? a).map f else t.get? a := by
  unfold Tree.get? Tree.update
  rw [Keyed.get?_update]

theorem get?_insert : (t.insert n).get? a = if a = n.id then some n else t.get? a := by
  unfold Tree.get? Tree.insert
  rw [Keyed.get?_put]

theorem mem_keys_iff : a ∈ t.nodes.keys ↔ ∃ n, t.get? a = some n := Keyed.mem_keys_iff

theorem has_iff : t.has a = true ↔ ∃ n, t.get? a = some n := by
  unfold Tree.has Keyed.has
  exact Option.isSome_iff_exists

/-! ## Skeletons of changed trees -/

theorem skeleton_some {x : Joint} :
    t.skeleton a = some x ↔ ∃ n, t.get? a = some n ∧ n.joint = x := Option.map_eq_some_iff

theorem skeleton_update {g : Joint → Joint} (h : ∀ n, (f n).joint = g n.joint) :
    (t.update id f).skeleton a = if a = id then (t.skeleton a).map g else t.skeleton a := by
  unfold Tree.skeleton
  rw [get?_update]
  split
  · rw [Option.map_map, Option.map_map]
    congr 1
    funext n
    exact h n
  · rfl

/-- A change of a node that leaves its name, kind and links alone leaves the skeleton alone. -/
theorem skeleton_update_same (h : ∀ n, (f n).joint = n.joint) : (t.update id f).skeleton = t.skeleton := by
  funext a
  rw [skeleton_update (g := fun x => x) h, Option.map_id', ite_self]

theorem skeleton_insert : (t.insert n).skeleton = t.skeleton.put n.joint := by
  funext a
  unfold Tree.skeleton Skeleton.put
  rw [get?_insert]
  show (if a = n.id then some n else t.get? a).map Node.joint = if a = n.id then some n.joint else _
  split <;> rfl

/-- Setting the link to the parent and the link to the child, whatever else happens to the parent. -/
theorem skeleton_linking (h : ∀ q, (f q).joint = { q.joint with children := q.joint.children ++ [c] }) :
    ((t.update c fun n => { n with parent := p }).update p f).skeleton = t.skeleton.link c p := by
  funext a
  unfold Skeleton.link
  rw [skeleton_update (g := fun x => { x with children := x.children ++ [c] }) h,
    skeleton_update (g := fun x => { x with parent := p }) fun _ => rfl]
  rcases t.skeleton a with _ | x
  · simp only [Option.map_none, ite_self]
  · simp only [Option.map_some]
    split_ifs <;> rfl

theorem skeleton_attach : (t.attach c p now).skeleton = t.skeleton.link c p := skeleton_linking fun _ => rfl

theorem skeleton_rename {name : Json} :
    (t.update c fun n => { n with name }).skeleton = t.skeleton.rename c name := by
  funext a
  unfold Skeleton.rename
  rw [skeleton_update (g := fun x => { x with name }) fun _ => rfl]
  rcases t.skeleton a with _ | x
  · simp only [Option.map_none, ite_self]
  · simp only [Option.map_some]
    split_ifs <;> rfl

/-- Unlinking, where it succeeds, takes the node out of its parent's list. -/
theorem skeleton_detach {t' : Tree} {parent : Node} (hp : t.parentOf? n = some parent)
    (h : t.detach n now = .ok t') : t'.skeleton = t.skeleton.unlink n.id parent.id := by
  unfold Tree.detach at h
  simp only [hp] at h
  split at h
  · cases h
    funext a
    unfold Skeleton.unlink
    rw [skeleton_update (g := fun x => { x with parent := .null }) fun _ => rfl,
      skeleton_update (g := fun x => { x with children := x.children.erase n.id }) fun _ => rfl]
    rcases t.skeleton a with _ | x
    · simp only [Option.map_none, ite_self]
    · simp only [Option.map_some]
      split_ifs <;> rfl
  · cases h

/-! ## Nodes of changed trees without their links -/

theorem bare_some {b : Node} : t.bare a = some b ↔ ∃ n, t.get? a = some n ∧ n.bare = b := Option.map_eq_some_iff

theorem bare_update {g : Node → Node} (h : ∀ n, (f n).bare = g n.bare) :
    (t.update id f).bare a = if a = id then (t.bare a).map g else t.bare a := by
  unfold Tree.bare
  rw [get?_update]
  split
  · rw [Option.map_map, Option.map_map]
    congr 1
    funext n
    exact h n
  · rfl

/-- A change of nothing but links leaves everything else alone. -/
theorem bare_update_same (h : ∀ n, (f n).bare = n.bare) : (t.update id f).bare = t.bare := by
  funext a
  rw [bare_update (g := fun x => x) h, Option.map_id', ite_self]

theorem bare_insert : (t.insert n).bare a = if a = n.id then some n.bare else t.bare a := by
  unfold Tree.bare
  rw [get?_insert]
  split <;> rfl

/-- Two trees with the same entries, which differ in the links only. -/
structure Rewired (t t' : Tree) : Prop where
  keys : t'.nodes.keys = t.nodes.keys
  bare : t'.bare = t.bare
  rootId : t'.rootId = t.rootId
  ids : t'.ids = t.ids

theorem Rewired.trans {t₁ t₂ : Tree} (h₁ : Rewired t t₁) (h₂ : Rewired t₁ t₂) : Rewired t t₂ :=
  ⟨h₂.keys.trans h₁.keys, h₂.bare.trans h₁.bare, h₂.rootId.trans h₁.rootId, h₂.ids.trans h₁.ids⟩

theorem keys_update : (t.update id f).nodes.keys = t.nodes.keys := Keyed.keys_update ..

theorem rewired_update (h : ∀ n, (f n).bare = n.bare) : Rewired t (t.update id f) :=
  ⟨keys_update, bare_update_same h, rfl, rfl⟩

theorem rewired_attach : Rewired t (t.attach c p now) :=
  (rewired_update (by intro; rfl)).trans (rewired_update (by intro; rfl))

theorem rewired_detach {t' : Tree} (h : t.detach n now = .ok t') : Rewired t t' := by
  unfold Tree.detach at h
  split at h
  · cases h
    exact rewired_update (by intro; rfl)
  · split at h
    · cases h
      exact (rewired_update (by intro; rfl)).trans (rewired_update (by intro; rfl))
    · cases h

/-! ## The invariant -/

/-- Id, name and content of a node are texts. -/
structure Written (a : NodeId) (b : Node) : Prop where
  id : ∃ s, a = .str s
  name : ∃ s, b.name = .str s
  content : ∃ s, b.content = .str s

/-- A tree that is kept in order. -/
structure Linked (t : Tree) : Prop where
  unique : t.nodes.keys.Nodup
  forest : t.skeleton.Forest
  rooted : ∃ x, t.skeleton t.rootId = some x ∧ x.parent = .null ∧ x.kind = .directory
  written : ∀ {a b}, t.bare a = some b → Written a b
  fresh : ∀ {k}, t.ids.next ≤ k → t.skeleton (t.ids.at k) = none

/-- Nothing but the root is without a parent. -/
def Whole (t : Tree) : Prop := ∀ {a}, t.skeleton.Loose a → a = t.rootId

namespace Linked

variable {x : Joint}

theorem id_eq (h : Linked t) (ha : t.get? a = some n) : n.id = a := by
  have hx : n.joint.id = a := h.forest.keyed (skeleton_some.2 ⟨n, ha, rfl⟩)
  exact hx

theorem get_self (h : Linked t) (ha : t.get? a = some n) : t.get? n.id = some n := by
  rw [h.id_eq ha, ha]

/-- A tree stays in order when ids are taken from its supply. -/
theorem later {ids : IdSupply} (h : Linked t) (hl : t.ids.Later ids) : Linked { t with ids } where
  unique := h.unique
  forest := h.forest
  rooted := h.rooted
  written := h.written
  fresh := by
    intro k hk
    have hat : ids.at k = t.ids.at k := hl.at k
    show t.skeleton (ids.at k) = none
    rw [hat]
    exact h.fresh (Nat.le_trans hl.next hk)

theorem loose_root (h : Linked t) : t.skeleton.Loose t.rootId := by
  obtain ⟨x, hx, hp, -⟩ := h.rooted
  exact ⟨x, hx, hp⟩

/-- A change of a node that leaves the skeleton alone and keeps texts to be texts. -/
theorem edit (h : Linked t) (hj : ∀ n, (f n).joint = n.joint)
    (hc : ∀ n, (∃ s, n.content = .str s) → ∃ s, (f n).content = .str s) : Linked (t.update id f) := by
  have hσ : (t.update id f).skeleton = t.skeleton := skeleton_update_same hj
  refine ⟨by rw [keys_update]; exact h.unique, by rw [hσ]; exact h.forest, by rw [hσ]; exact h.rooted, ?_,
    by rw [hσ]; exact h.fresh⟩
  intro a b hb
  obtain ⟨m, hm, rfl⟩ := bare_some.1 hb
  rw [get?_update] at hm
  split at hm
  · obtain ⟨n, hn, rfl⟩ := Option.map_eq_some_iff.1 hm
    obtain ⟨hid, hname, hcont⟩ := h.written (bare_some.2 ⟨n, hn, rfl⟩)
    have hsame : (f n).name = n.name := congrArg Joint.name (hj n)
    exact ⟨hid, by obtain ⟨s, hs⟩ := hname; exact ⟨s, hsame.trans hs⟩, hc n hcont⟩
  · exact h.written (bare_some.2 ⟨m, hm, rfl⟩)

/-- Putting an unlinked node into the arena under the next id. -/
theorem insert (h : Linked t) (hid : n.id = t.ids.id) (hc : n.children = []) (hp : n.parent = .null)
    (hname : ∃ s, n.name = .str s) (hcont : ∃ s, n.content = .str s) : Linked (t.takeId.2.insert n) := by
  have hnew : t.skeleton n.id = none := by
    rw [hid]
    exact h.fresh (Nat.le_refl _)
  have hσ : (t.takeId.2.insert n).skeleton = t.skeleton.put n.joint := skeleton_insert
  have hne : n.id ≠ .null := by rw [hid]; simp [IdSupply.id]
  refine ⟨?_, ?_, ?_, ?_, ?_⟩
  · have hkeys : (t.takeId.2.insert n).nodes.keys = _ := Keyed.keys_put t.nodes n.id n
    have hout : n.id ∉ t.nodes.keys := by
      rintro hm
      obtain ⟨m, hm⟩ := mem_keys_iff.1 hm
      rw [skeleton_some.2 ⟨m, hm, rfl⟩] at hnew
      cases hnew
    rw [hkeys, if_neg hout]
    refine List.nodup_append.2 ⟨h.unique, by simp, ?_⟩
    rintro k hk l hl rfl
    exact hout (List.mem_singleton.1 hl ▸ hk)
  · rw [hσ]
    exact h.forest.put hnew hne hc hp
  · obtain ⟨x, hx, hr⟩ := h.rooted
    rw [hσ]
    exact ⟨x, Skeleton.put_old hnew hx, hr⟩
  · intro a b hb
    rw [bare_insert] at hb
    split at hb
    · rename_i ha
      cases hb
      exact ⟨⟨_, ha.trans hid⟩, hname, hcont⟩
    · exact h.written hb
  · intro k hk
    have hlt : t.ids.next < k := hk
    have hother : t.ids.at k ≠ n.id := by
      intro he
      have hk : k = t.ids.next := IdSupply.at_inj (he.trans hid)
      omega
    rw [hσ, Skeleton.put_of_ne hother]
    exact h.fresh (Nat.le_of_lt hlt)

/-- A tree with the same entries is in order if its links are. -/
theorem rewired {t' : Tree} (h : Linked t) (hr : Rewired t t') (hF : t'.skeleton.Forest)
    (hroot : ∃ x, t'.skeleton t.rootId = some x ∧ x.parent = .null ∧ x.kind = .directory)
    (hnone : ∀ {a}, t.skeleton a = none → t'.skeleton a = none) : Linked t' := by
  refine ⟨by rw [hr.keys]; exact h.unique, hF, by rw [hr.rootId]; exact hroot, ?_, ?_⟩
  · intro a b hb
    rw [hr.bare] at hb
    exact h.written hb
  · intro k hk
    rw [hr.ids] at hk ⊢
    exact hnone (h.fresh hk)

theorem link {t' : Tree} {y : Joint} (h : Linked t) (hr : Rewired t t') (hσ : t'.skeleton = t.skeleton.link c p)
    (hx : t.skeleton c = some x) (hxp : x.parent = .null) (hroot : c ≠ t.rootId) (hy : t.skeleton p = some y)
    (hu : ¬ t.skeleton.Under c p) (hfresh : t.skeleton.NoneNamed y.children x.name) : Linked t' := by
  refine h.rewired hr (by rw [hσ]; exact h.forest.link hx hxp hy hu hfresh) ?_ ?_
  · obtain ⟨z, hz, hzp, hk⟩ := h.rooted
    rw [hσ]
    refine ⟨_, Skeleton.link_some hz, ?_, hk⟩
    show (if t.rootId = c then p else z.parent) = .null
    rw [if_neg hroot.symm, hzp]
  · intro a ha
    rw [hσ]
    exact Option.map_eq_none_iff.2 ha

theorem unlink {t' : Tree} (h : Linked t) (hr : Rewired t t') (hσ : t'.skeleton = t.skeleton.unlink c p)
    (hab : t.skeleton.Above p c) : Linked t' := by
  refine h.rewired hr (by rw [hσ]; exact h.forest.unlink hab) ?_ ?_
  · obtain ⟨z, hz, hzp, hk⟩ := h.rooted
    rw [hσ]
    refine ⟨_, Skeleton.unlink_some hz, ?_, hk⟩
    show (if t.rootId = c then Json.null else z.parent) = .null
    rw [hzp, ite_self]
  · intro a ha
    rw [hσ]
    exact Option.map_eq_none_iff.2 ha

theorem rename {name : String} (h : Linked t) (hc : t.skeleton.Loose c) :
    Linked (t.update c fun n => { n with name := name }) := by
  have hσ : (t.update c fun n => { n with name := name }).skeleton = t.skeleton.rename c name := skeleton_rename
  refine ⟨by rw [keys_update]; exact h.unique, by rw [hσ]; exact h.forest.rename hc, ?_, ?_, ?_⟩
  · obtain ⟨z, hz, hzp, hk⟩ := h.rooted
    rw [hσ]
    exact ⟨_, Skeleton.rename_some hz, hzp, hk⟩
  · intro a b hb
    rw [bare_update (g := fun n => { n with name := name }) (by intro; rfl)] at hb
    split at hb
    · obtain ⟨n, hn, rfl⟩ := Option.map_eq_some_iff.1 hb
      obtain ⟨hid, -, hcont⟩ := h.written hn
      exact ⟨hid, ⟨name, rfl⟩, hcont⟩
    · exact h.written hb
  · intro k hk
    have hnone : t.skeleton (t.ids.at k) = none := h.fresh hk
    rw [hσ]
    exact Option.map_eq_none_iff.2 hnone

end Linked

end Tree

end SimUnix
