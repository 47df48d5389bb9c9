/-
What the changes of a tree in order do to it: adding, moving, removing and copying nodes. For each
of them: the tree stays in order, which links it has afterwards, and which nodes have no parent.
-/
import SimUnix.Proofs.Tree.Walk

namespace SimUnix.Tree

variable {t t' : Tree} {n m d dir : Node} {a c p : NodeId} {now : Time.Stamp}

open Skeleton

/-! ## Names below a directory -/

theorem Linked.firstNamed_cases (h : Linked t) {name : Json} :
    ∀ {ids : List NodeId}, (∀ k ∈ ids, ∃ m, t.get? k = some m) →
      (t.firstNamed name ids = .ok none ∧ t.skeleton.NoneNamed ids name) ∨
        ∃ m, t.firstNamed name ids = .ok (some m) ∧ m.id ∈ ids ∧ t.get? m.id = some m ∧ m.name = name
  | [], _ => .inl ⟨rfl, by intro c hc; cases hc⟩
  | k :: ids, hin => by
    obtain ⟨m, hm⟩ := hin k (List.mem_cons_self ..)
    have hid : m.id = k := h.id_eq hm
    unfold Tree.firstNamed
    rw [node_ok.2 hm]
    simp only
    by_cases hn : m.name = name
    · rw [if_pos hn]
      exact .inr ⟨m, rfl, hid ▸ List.mem_cons_self .., h.get_self hm, hn⟩
    · rw [if_neg hn]
      rcases h.firstNamed_cases (fun j hj => hin j (List.mem_cons_of_mem _ hj)) with ⟨hf, hnone⟩ | ⟨m', hf, hmem, hrest⟩
      · refine .inl ⟨hf, fun j hj y hy => ?_⟩
        rcases List.mem_cons.1 hj with rfl | hj
        · obtain ⟨m', hm', rfl⟩ := skeleton_some.1 hy
          rw [hm] at hm'
          cases hm'
          exact hn
        · exact hnone j hj y hy
      · exact .inr ⟨m', hf, List.mem_cons_of_mem _ hmem, hrest⟩

/-- Looking a name up among the children of a node finds the child of that name, or there is none. -/
theorem Linked.childNamed_cases (h : Linked t) (hd : t.get? a = some d) (name : Json) :
    (t.childNamed d name = .ok none ∧ t.skeleton.NoneNamed d.children name) ∨
      ∃ m, t.childNamed d name = .ok (some m) ∧ m.id ∈ d.children ∧ t.get? m.id = some m ∧ m.name = name := by
  have hin : ∀ k ∈ d.children, ∃ m, t.get? k = some m :=
    fun k hk => present_of_above ((h.above_iff hd).2 hk)
  exact h.firstNamed_cases hin

theorem Linked.childNamed_none (h : Linked t) {name : Json} (hd : t.get? a = some d)
    (hc : t.childNamed d name = .ok none) : t.skeleton.NoneNamed d.children name := by
  rcases h.childNamed_cases hd name with ⟨-, hnone⟩ | ⟨m, hm, -⟩
  · exact hnone
  · rw [hm] at hc
    cases hc

theorem Linked.childNamed_some (h : Linked t) {name : Json} (hd : t.get? a = some d)
    (hc : t.childNamed d name = .ok (some m)) :
    m.id ∈ d.children ∧ t.get? m.id = some m ∧ m.name = name := by
  rcases h.childNamed_cases hd name with ⟨hn, -⟩ | ⟨m', hm', hrest⟩
  · rw [hn] at hc
    cases hc
  · rw [hm'] at hc
    cases hc
    exact hrest

/-- A child of a node is found by its name: no other child has it. -/
theorem Linked.childNamed_of_mem (h : Linked t) (hd : t.get? a = some d) (hm : m.id ∈ d.children) (hget : t.get? m.id = some m) :
    t.childNamed d m.name = .ok (some m) := by
  rcases h.childNamed_cases hd m.name with ⟨-, hnone⟩ | ⟨c, hc, hcm, hcget, hcname⟩
  · exact absurd rfl (hnone m.id hm _ (skeleton_some.2 ⟨m, hget, rfl⟩))
  · have hsame : c.id = m.id := h.forest.names (skeleton_some.2 ⟨d, hd, rfl⟩) hcm hm (skeleton_some.2 ⟨c, hcget, rfl⟩)
      (skeleton_some.2 ⟨m, hget, rfl⟩) hcname
    rw [hsame, hget] at hcget
    cases hcget
    exact hc

/-! ## Adding -/

/-- A new node: under the next id, without links. -/
structure IsNew (t : Tree) (n : Node) : Prop where
  id : n.id = t.ids.id
  children : n.children = []
  parent : n.parent = .null
  name : ∃ s, n.name = .str s
  content : ∃ s, n.content = .str s

theorem Linked.new_absent (h : Linked t) (hn : IsNew t n) : t.skeleton n.id = none := by
  rw [hn.id]
  exact h.fresh (Nat.le_refl _)

theorem Linked.new_ne_root (h : Linked t) (hn : IsNew t n) : n.id ≠ t.rootId := by
  intro he
  have hnone := h.new_absent hn
  obtain ⟨x, hx, -⟩ := h.rooted
  rw [he, hx] at hnone
  cases hnone

theorem skeleton_add : (t.takeId.2.add n p now).skeleton = (t.skeleton.put n.joint).link n.id p := by
  unfold Tree.add
  rw [skeleton_attach, skeleton_insert]
  rfl

/-- Adding touches the new node and its parent only. -/
theorem get?_add (hn : a ≠ n.id) (hp : a ≠ p) : (t.takeId.2.add n p now).get? a = t.get? a := by
  unfold Tree.add Tree.attach
  rw [get?_update, if_neg hp, get?_update, if_neg hn, get?_insert, if_neg hn]
  rfl

theorem Linked.add (h : Linked t) (hn : IsNew t n) (hd : t.get? p = some dir)
    (hfree : t.skeleton.NoneNamed dir.children n.name) : Linked (t.takeId.2.add n p now) := by
  have habs := h.new_absent hn
  have hy : t.skeleton p = some dir.joint := skeleton_some.2 ⟨dir, hd, rfl⟩
  have hins : Linked (t.takeId.2.insert n) := h.insert hn.id hn.children hn.parent hn.name hn.content
  have hσ : (t.takeId.2.insert n).skeleton = t.skeleton.put n.joint := skeleton_insert
  have hself : (t.takeId.2.insert n).skeleton n.id = some n.joint := by
    rw [hσ]
    exact put_self
  have hdir : (t.takeId.2.insert n).skeleton p = some dir.joint := by
    rw [hσ]
    exact put_old habs hy
  refine hins.link rewired_attach skeleton_attach hself hn.parent (h.new_ne_root hn) hdir ?_ ?_
  · intro hu
    rcases Relation.ReflTransGen.cases_head hu with heq | ⟨q, hq, -⟩
    · rw [← heq, habs] at hy
      cases hy
    · rw [hσ, above_put habs hn.parent] at hq
      obtain ⟨z, hz, -⟩ := h.forest.mem_of_above hq
      rw [habs] at hz
      cases hz
  · intro k hk y hy'
    have hold : ∃ z, t.skeleton k = some z := by
      obtain ⟨z, hz, -⟩ := h.forest.down hy hk
      exact ⟨z, hz⟩
    obtain ⟨z, hz⟩ := hold
    have hz' : (t.takeId.2.insert n).skeleton k = some z := by
      rw [hσ]
      exact put_old habs hz
    rw [hz'] at hy'
    cases hy'
    exact hfree k hk _ hz

theorem Linked.loose_add (h : Linked t) (hn : IsNew t n) (hd : t.get? p = some dir) :
    (t.takeId.2.add n p now).skeleton.Loose a ↔ t.skeleton.Loose a := by
  have hy : t.skeleton p = some dir.joint := skeleton_some.2 ⟨dir, hd, rfl⟩
  rw [skeleton_add, loose_link (h.forest.ne_null hy), loose_put hn.parent]
  constructor
  · rintro ⟨hne, heq | hl⟩
    · exact absurd heq hne
    · exact hl
  · intro hl
    refine ⟨?_, .inr hl⟩
    rintro rfl
    obtain ⟨x, hx, -⟩ := hl
    rw [h.new_absent hn] at hx
    cases hx

/-! ## Unlinking -/

/-- In a tree in order a node with a parent can be unlinked. -/
theorem Linked.detach_ok (h : Linked t) (hn : t.get? n.id = some n) (hp : t.parentOf? n = some d) :
    ∃ t', t.detach n now = .ok t' := by
  obtain ⟨hd, hab⟩ := (h.parentOf_iff hn).1 hp
  have hm : n.id ∈ d.children := (h.above_iff hd).1 hab
  unfold Tree.detach
  simp only [hp]
  rw [if_pos (List.contains_iff_mem.2 hm)]
  exact ⟨_, rfl⟩

/-- Unlinking touches the node and its parent only. -/
theorem get?_detach (hp : t.parentOf? n = some d) (ht : t.detach n now = .ok t') (hn : a ≠ n.id) (hd : a ≠ d.id) :
    t'.get? a = t.get? a := by
  unfold Tree.detach at ht
  simp only [hp] at ht
  split at ht
  · cases ht
    rw [get?_update, if_neg hn, get?_update, if_neg hd]
  · cases ht

/-- What unlinking leaves. -/
theorem Linked.detach (h : Linked t) (hn : t.get? n.id = some n) (hp : t.parentOf? n = some d)
    (ht : t.detach n now = .ok t') :
    Linked t' ∧ Rewired t t' ∧ t'.skeleton = t.skeleton.unlink n.id d.id ∧ t.skeleton.Above d.id n.id := by
  obtain ⟨-, hab⟩ := (h.parentOf_iff hn).1 hp
  have hr : Rewired t t' := rewired_detach ht
  have hσ : t'.skeleton = t.skeleton.unlink n.id d.id := skeleton_detach hp ht
  exact ⟨h.unlink hr hσ hab, hr, hσ, hab⟩

/-- Unlinking a node leaves what is below it. -/
theorem under_unlink {σ : Skeleton} (hF : Forest σ) (hab : σ.Above p c) : (σ.unlink c p).Under c a ↔ σ.Under c a := by
  constructor
  · exact Under.mono fun _ _ h => (above_unlink.1 h).2
  · intro hu
    induction hu with
    | refl => exact .refl
    | @tail q b hcq hqb ih =>
      refine ih.tail (above_unlink.2 ⟨?_, hqb⟩)
      rintro rfl
      exact hF.not_above_under hqb hcq

/-! ## Moving -/

/-- The tree after a node that has no parent is hung below a directory under a name. -/
def hung (t : Tree) (c : NodeId) (name : Json) (p : NodeId) (now : Time.Stamp) : Tree :=
  (t.update c fun n => { n with name }).attach c p now

theorem skeleton_hung {name : Json} : (t.hung c name p now).skeleton = (t.skeleton.rename c name).link c p := by
  unfold hung
  rw [skeleton_attach, skeleton_rename]

/-- Hanging a node touches it and the directory only. -/
theorem get?_hung {name : Json} (hne : c ≠ p) : (t.hung c name p now).get? a =
    if a = p then (t.get? a).map fun d => { d with children := d.children ++ [c], modified := now }
    else if a = c then (t.get? a).map fun n => { n with name, parent := p } else t.get? a := by
  unfold hung attach
  rw [get?_update, get?_update, get?_update]
  by_cases ha : a = p
  · have hid : a ≠ c := fun he => hne (he.symm.trans ha)
    simp only [if_pos ha, if_neg hid]
  · by_cases hid : a = c
    · simp only [if_neg ha, if_pos hid, Option.map_map]
      rfl
    · simp only [if_neg ha, if_neg hid]

/-- Hanging a node without a parent below a directory, under a name that is free there. -/
theorem Linked.hang (h : Linked t) {name : String} (hl : t.skeleton.Loose c) (hroot : c ≠ t.rootId)
    (hd : t.get? p = some dir) (hu : ¬ t.skeleton.Under c p) (hfree : t.skeleton.NoneNamed dir.children name) :
    Linked (t.hung c name p now) := by
  have hy : t.skeleton p = some dir.joint := skeleton_some.2 ⟨dir, hd, rfl⟩
  obtain ⟨x, hx, hxp⟩ := hl
  have hre : Linked (t.update c fun n => { n with name := name }) := h.rename ⟨x, hx, hxp⟩
  have hσ : (t.update c fun n => { n with name := name }).skeleton = t.skeleton.rename c name := skeleton_rename
  have hne : p ≠ c := by
    rintro rfl
    exact hu .refl
  refine hre.link rewired_attach skeleton_attach (x := { x with name := name }) ?_ hxp hroot
    (y := dir.joint) ?_ ?_ ?_
  · rw [hσ, rename_some hx, if_pos rfl]
  · rw [hσ, rename_some hy, if_neg hne]
  · intro hu'
    rw [hσ] at hu'
    exact hu (Under.mono (fun _ _ hab => above_rename.1 hab) hu')
  · intro k hk y hk'
    rw [hσ] at hk'
    obtain ⟨z, hz, rfl⟩ := Option.map_eq_some_iff.1 hk'
    have hkc : k ≠ c := by
      rintro rfl
      exact Loose.not_above ⟨x, hx, hxp⟩ (h.forest.above_of_mem hy hk)
    simp only [hkc, if_false]
    exact hfree k hk z hz

theorem loose_hung {name : Json} (hp : p ≠ .null) :
    (t.hung c name p now).skeleton.Loose a ↔ a ≠ c ∧ t.skeleton.Loose a := by
  rw [skeleton_hung, loose_link hp, loose_rename]

/-- The tree after a node that has been unlinked is hung below a directory and marked as modified. -/
def relinked (t : Tree) (c : NodeId) (name : Json) (p : NodeId) (now : Time.Stamp) : Tree :=
  (t.hung c name p now).update c (·.touch now)

theorem skeleton_relinked {name : Json} : (t.relinked c name p now).skeleton = (t.hung c name p now).skeleton :=
  skeleton_update_same fun _ => rfl

theorem Linked.touch (h : Linked t) : Linked (t.update a (·.touch now)) :=
  h.edit (by intro; rfl) (by intro _ h; exact h)

/-- A node has been moved below a directory that is not below it. -/
theorem Linked.move (h : Linked t) {name : String} (hn : t.get? n.id = some n) (hp : t.parentOf? n = some d)
    (ht : t.detach n now = .ok t') (hdir : t.get? dir.id = some dir) (hu : ¬ t.skeleton.Under n.id dir.id)
    (hfree : t.skeleton.NoneNamed dir.children name) : Linked (t'.relinked n.id name dir.id now) := by
  obtain ⟨h', hr, hσ, hab⟩ := h.detach hn hp ht
  have hroot : n.id ≠ t.rootId := by
    intro he
    exact (he ▸ h.loose_root).not_above hab
  have hl : t'.skeleton.Loose n.id := by
    rw [hσ]
    exact (loose_unlink hab).2 (.inl rfl)
  have hy : t.skeleton dir.id = some dir.joint := skeleton_some.2 ⟨dir, hdir, rfl⟩
  have hy' : t'.skeleton dir.id = _ := hσ ▸ unlink_some hy
  obtain ⟨dir', hdir', hj⟩ := skeleton_some.1 hy'
  refine (h'.hang hl (by rw [hr.rootId]; exact hroot) hdir' ?_ ?_).touch
  · intro hu'
    rw [hσ] at hu'
    exact hu (Under.mono (fun _ _ hab => (above_unlink.1 hab).2) hu')
  · intro k hk y hk'
    have hkids : dir'.children = if dir.id = d.id then dir.children.erase n.id else dir.children :=
      congrArg Joint.children hj
    have hk : k ∈ dir.children := by
      rw [hkids] at hk
      split at hk
      · exact List.mem_of_mem_erase hk
      · exact hk
    rw [hσ] at hk'
    obtain ⟨z, hz, rfl⟩ := Option.map_eq_some_iff.1 hk'
    exact hfree k hk z hz

theorem Linked.loose_move (h : Linked t) {name : Json} (hn : t.get? n.id = some n) (hp : t.parentOf? n = some d)
    (ht : t.detach n now = .ok t') (hdir : t.get? dir.id = some dir) :
    (t'.relinked n.id name dir.id now).skeleton.Loose a ↔ t.skeleton.Loose a := by
  obtain ⟨-, -, hσ, hab⟩ := h.detach hn hp ht
  have hne : dir.id ≠ .null := h.forest.ne_null (skeleton_some.2 ⟨dir, hdir, rfl⟩)
  rw [skeleton_relinked, loose_hung hne, hσ, loose_unlink hab]
  constructor
  · rintro ⟨hne, heq | hl⟩
    · exact absurd heq hne
    · exact hl
  · intro hl
    refine ⟨?_, .inr hl⟩
    rintro rfl
    exact hl.not_above hab

/-! ## Removing -/

theorem run_liftExcept {α : Type} (r : Except Fault α) : (remove.liftExcept r).run t = (r, t) := by
  cases r <;> rfl

theorem get?_drop (hnd : t.nodes.keys.Nodup) :
    Tree.get? { t with nodes := t.nodes.drop c } a = if a = c then none else t.get? a := Keyed.get?_drop hnd

/-- What is left of a tree when some of its entries are dropped. -/
structure Dropped (t t' : Tree) (gone : List NodeId) : Prop where
  rootId : t'.rootId = t.rootId
  ids : t'.ids = t.ids
  unique : t'.nodes.keys.Nodup
  get : ∀ a, t'.get? a = if a ∈ gone then none else t.get? a

theorem run_drop (hnd : t.nodes.keys.Nodup) (hin : t.get? c = some n) :
    ∃ t', (drop c).run t = (.ok (), t') ∧ Dropped t t' [c] := by
  refine ⟨{ t with nodes := t.nodes.drop c }, ?_, rfl, rfl, ?_, ?_⟩
  · unfold drop
    simp only [run_bind, run_get]
    rw [if_pos (has_iff.2 ⟨n, hin⟩)]
    rfl
  · exact Keyed.nodup_drop hnd
  · intro a
    rw [get?_drop hnd]
    simp

/-- Different nodes that are all there can be dropped one after the other. -/
theorem run_drops : ∀ {victims : List Node} {t : Tree}, t.nodes.keys.Nodup → (idsOf victims).Nodup →
    (∀ v ∈ victims, ∃ n, t.get? v.id = some n) →
      ∃ t', (victims.forM fun v => drop v.id).run t = (.ok (), t') ∧ Dropped t t' (idsOf victims)
  | [], t, hk, _, _ => ⟨t, rfl, rfl, rfl, hk, by intro a; simp [idsOf]⟩
  | v :: victims, t, hk, hnd, hin => by
    obtain ⟨n, hn⟩ := hin v (List.mem_cons_self ..)
    obtain ⟨t₁, hrun, hd⟩ := run_drop hk hn
    obtain ⟨hv, hnd⟩ := List.nodup_cons.1 hnd
    have hin' : ∀ w ∈ victims, ∃ n, t₁.get? w.id = some n := by
      intro w hw
      have hne : w.id ≠ v.id := fun he => hv (he ▸ List.mem_map_of_mem hw)
      rw [hd.get, if_neg (by simpa using hne)]
      exact hin w (List.mem_cons_of_mem _ hw)
    obtain ⟨t₂, hrun₂, hd₂⟩ := run_drops hd.unique hnd hin'
    refine ⟨t₂, ?_, hd₂.rootId.trans hd.rootId, hd₂.ids.trans hd.ids, hd₂.unique, ?_⟩
    · show ((drop v.id >>= fun _ => victims.forM fun v => drop v.id) : Edit PUnit).run t = _
      simp only [run_bind, hrun, hrun₂]
    · intro a
      have hcons : a ∈ idsOf (v :: victims) ↔ a = v.id ∨ a ∈ idsOf victims := List.mem_cons
      rw [hd₂.get, hd.get]
      simp only [hcons, List.mem_singleton]
      by_cases ha : a ∈ idsOf victims
      · rw [if_pos ha, if_pos (.inr ha)]
      · simp only [ha, if_false, or_false]

/-- What removing a node below `p` leaves: the node and all below it are gone, and so is the link to
it. -/
structure Removed (t t' : Tree) (c p : NodeId) : Prop where
  rootId : t'.rootId = t.rootId
  ids : t'.ids = t.ids
  unique : t'.nodes.keys.Nodup
  skeleton : t'.skeleton = (t.skeleton.unlink c p).prune c
  bare : ∀ a, ¬ t.skeleton.Under c a → t'.bare a = t.bare a
  get : ∀ a, ¬ t.skeleton.Under c a → a ≠ p → t'.get? a = t.get? a

/-- Removing a node with a parent does it as a whole, or nothing where the walk goes too deep. -/
theorem Linked.run_remove (h : Linked t) (hn : t.get? n.id = some n) (hp : t.parentOf? n = some d)
    {r : Except Fault Nat} (hrun : (remove n now).run t = (r, t')) :
    (∃ e, t.walk n = .error e ∧ r = .error e ∧ t' = t) ∨
      ∃ nodes, t.walk n = .ok nodes ∧ r = .ok nodes.length ∧ Removed t t' n.id d.id := by
  unfold remove at hrun
  simp only [run_bind, run_get, run_pure, run_set, run_liftExcept] at hrun
  rcases hw : t.walk n with e | nodes
  · rw [hw] at hrun
    cases hrun
    exact .inl ⟨e, rfl, rfl, rfl⟩
  · rw [hw] at hrun
    obtain ⟨t₁, ht₁⟩ : ∃ t₁, t.detach n now = .ok t₁ := h.detach_ok hn hp
    obtain ⟨h₁, hr₁, hσ₁, hab⟩ := h.detach hn hp ht₁
    have hcov := h.covers_of_walkDown hn hw
    have hin : ∀ v ∈ nodes, ∃ m, t₁.get? v.id = some m := by
      intro v hv
      rw [← mem_keys_iff, hr₁.keys, mem_keys_iff]
      exact ⟨v, hcov.get v hv⟩
    obtain ⟨t₂, hrun₂, hd⟩ := run_drops h₁.unique hcov.once hin
    simp only [ht₁, hrun₂] at hrun
    cases hrun
    refine .inr ⟨nodes, rfl, rfl, hd.rootId.trans hr₁.rootId, hd.ids.trans hr₁.ids, hd.unique, ?_, ?_, ?_⟩
    · funext a
      have hmem : a ∈ idsOf nodes ↔ (t.skeleton.unlink n.id d.id).Under n.id a := by
        rw [hcov.mem, under_unlink h.forest hab]
      refine Option.ext fun x => ?_
      rw [prune_eq_some, ← hmem, ← hσ₁]
      show (t'.get? a).map Node.joint = some x ↔ _ ∧ (t₁.get? a).map Node.joint = some x
      rw [hd.get]
      by_cases ha : a ∈ idsOf nodes
      · simp [ha]
      · simp [ha]
    · intro a ha
      unfold Tree.bare
      rw [hd.get, if_neg fun hm => ha ((hcov.mem a).1 hm)]
      exact congrFun hr₁.bare a
    · intro a ha hne
      have hself : a ≠ n.id := by
        rintro rfl
        exact ha .refl
      rw [hd.get, if_neg fun hm => ha ((hcov.mem a).1 hm), get?_detach hp ht₁ hself hne]

theorem Removed.above {t t' : Tree} {c p a b : NodeId} (h : Linked t) (hab : t.skeleton.Above p c)
    (hr : Removed t t' c p) : t'.skeleton.Above a b ↔ ¬ t.skeleton.Under c b ∧ t.skeleton.Above a b := by
  rw [hr.skeleton, above_prune, above_unlink, under_unlink h.forest hab]
  constructor
  · rintro ⟨hu, -, hab⟩
    exact ⟨hu, hab⟩
  · rintro ⟨hu, hab⟩
    refine ⟨hu, ?_, hab⟩
    rintro rfl
    exact hu .refl

/-- A tree in order stays so without one of its subtrees. -/
theorem Linked.removed (h : Linked t) (hab : t.skeleton.Above p c) (hr : Removed t t' c p) : Linked t' := by
  have hl : (t.skeleton.unlink c p).Loose c := (loose_unlink hab).2 (.inl rfl)
  have hF : Forest t'.skeleton := hr.skeleton ▸ (h.forest.unlink hab).prune hl
  have hsub : ∀ {a x}, t'.skeleton a = some x → ¬ t.skeleton.Under c a ∧ ∃ y, t.skeleton a = some y := by
    intro a x hx
    rw [hr.skeleton, prune_eq_some, under_unlink h.forest hab] at hx
    obtain ⟨hu, hx⟩ := hx
    obtain ⟨y, hy, -⟩ := Option.map_eq_some_iff.1 hx
    exact ⟨hu, y, hy⟩
  refine ⟨hr.unique, hF, ?_, ?_, ?_⟩
  · obtain ⟨z, hz, hzp, hk⟩ := h.rooted
    have hu : ¬ (t.skeleton.unlink c p).Under c t.rootId := by
      rw [under_unlink h.forest hab]
      intro hu
      rw [h.loose_root.eq_of_under hu] at hab
      exact h.loose_root.not_above hab
    rw [hr.rootId, hr.skeleton]
    refine ⟨_, prune_eq_some.2 ⟨hu, unlink_some hz⟩, ?_, hk⟩
    show (if t.rootId = c then Json.null else z.parent) = .null
    rw [hzp, ite_self]
  · intro a b hb
    obtain ⟨m, hm, rfl⟩ := bare_some.1 hb
    have hu := (hsub (skeleton_some.2 ⟨m, hm, rfl⟩)).1
    rw [hr.bare a hu] at hb
    exact h.written hb
  · intro k hk
    rw [hr.ids] at hk ⊢
    by_contra hne
    obtain ⟨x, hx⟩ := Option.ne_none_iff_exists'.1 hne
    obtain ⟨-, y, hy⟩ := hsub hx
    rw [h.fresh hk] at hy
    cases hy

theorem loose_removed (hab : t.skeleton.Above p c) (hr : Removed t t' c p) :
    t'.skeleton.Loose a ↔ t.skeleton.Loose a := by
  have hl : (t.skeleton.unlink c p).Loose c := (loose_unlink hab).2 (.inl rfl)
  rw [hr.skeleton, loose_prune hl, loose_unlink hab]
  constructor
  · rintro ⟨hne, heq | hl⟩
    · exact absurd heq hne
    · exact hl
  · intro hla
    refine ⟨?_, .inr hla⟩
    rintro rfl
    exact hla.not_above hab

end SimUnix.Tree
