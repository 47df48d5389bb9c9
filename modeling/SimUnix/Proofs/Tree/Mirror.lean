/-
What a copy shows. Names lead down from it as they lead down from the node of which it was made, and what
they lead to looks the same but for the owner and the group. Hung below a directory, it shows what a path and
the paths below it show at another place, too.
-/
import SimUnix.Proofs.Tree.Copy
import SimUnix.Proofs.Tree.Remap

namespace SimUnix.Tree

open Skeleton

variable {t t₁ t₂ t' : Tree} {n m c dir : Node} {a b id : NodeId} {new : NewOwner} {now : Time.Stamp} {name : String}
  {names rest way place : List String} {f g : Face}

/-! ## What is shown below a node -/

theorem shows_nil : t.Shows a [] f ↔ t.faceOf a = some f :=
  ⟨fun ⟨_, he, hf⟩ => he ▸ hf, fun hf => ⟨a, rfl, hf⟩⟩

theorem shows_cons : t.Shows a (name :: rest) f ↔ ∃ b, t.skeleton.Hangs a b name ∧ t.Shows b rest f :=
  ⟨fun ⟨c, ⟨b, hb, hl⟩, hf⟩ => ⟨b, hb, c, hl, hf⟩, fun ⟨b, hb, c, hl, hf⟩ => ⟨c, ⟨b, hb, hl⟩, hf⟩⟩

/-- What names lead to beside what they led to before is shown in the same way. -/
theorem shows_joined {k : NodeId} {before : List String} (hlies : ∀ b, t'.skeleton.Lies a names b ↔
      t.skeleton.Lies a names b ∨ ∃ rest, names = before ++ rest ∧ t.skeleton.Lies k rest b) (hface : t'.faceOf = t.faceOf) :
    t'.Shows a names f ↔ t.Shows a names f ∨ ∃ rest, names = before ++ rest ∧ t.Shows k rest f := by
  unfold Shows
  simp only [hlies, hface]
  constructor
  · rintro ⟨b, hl | ⟨rest, he, hl⟩, hf⟩
    · exact .inl ⟨b, hl, hf⟩
    · exact .inr ⟨rest, he, b, hl, hf⟩
  · rintro (⟨b, hl, hf⟩ | ⟨rest, he, b, hl, hf⟩)
    · exact ⟨b, .inl hl, hf⟩
    · exact ⟨b, .inr ⟨rest, he, hl⟩, hf⟩

/-- Below an old node of a grown tree nothing has changed. -/
theorem Grown.hangs (h : Linked t) (hg : Grown t t') (ha : ∃ n, t.get? a = some n) :
    t'.skeleton.Hangs a b name ↔ t.skeleton.Hangs a b name := by
  obtain ⟨n, hn⟩ := ha
  unfold Hangs
  rw [hg.linked.above_iff (hg.old hn), h.above_iff hn]
  refine and_congr_right fun hb => ?_
  obtain ⟨m, hm⟩ := present_of_above ((h.above_iff hn).2 hb)
  rw [skeleton_some.2 ⟨m, hg.old hm, rfl⟩, skeleton_some.2 ⟨m, hm, rfl⟩]

theorem Grown.lies (h : Linked t) (hg : Grown t t') : ∀ {names : List String} {a : NodeId}, (∃ n, t.get? a = some n) →
    (t'.skeleton.Lies a names b ↔ t.skeleton.Lies a names b)
  | [], _, _ => Iff.rfl
  | name :: names, a, ha => by
    refine exists_congr fun c => ?_
    rw [hg.hangs h ha]
    exact and_congr_right fun hc => hg.lies h (present_of_above hc.1)

theorem Grown.shows (h : Linked t) (hg : Grown t t') (ha : ∃ n, t.get? a = some n) : t'.Shows a names f ↔ t.Shows a names f := by
  refine exists_congr fun b => ?_
  rw [hg.lies h ha]
  refine and_congr_right fun hl => ?_
  obtain ⟨n, hn⟩ := ha
  obtain ⟨m, hm⟩ := present_of_under hn hl.under
  unfold faceOf
  rw [hg.old hm, hm]

theorem Grown.shaped (hg : Grown t t') (hs : t.skeleton.Shaped) : t'.skeleton.Shaped := by
  refine ⟨fun hx hne => ?_, fun hx hne => ?_⟩ <;> obtain ⟨m, hm, rfl⟩ := skeleton_some.1 hx <;>
    rcases hg.model hm with hm | ⟨o, ho, hname, hkind, hkids, hpar⟩
  · exact hs.directories (skeleton_some.2 ⟨m, hm, rfl⟩) hne
  · exact hkind.trans (hs.directories (skeleton_some.2 ⟨o, ho, rfl⟩) fun he => hne (hkids he))
  · exact hs.named (skeleton_some.2 ⟨m, hm, rfl⟩) hne
  · obtain ⟨own, hown, hvalid⟩ := hs.named (skeleton_some.2 ⟨o, ho, rfl⟩) fun he => hne (hpar he)
    exact ⟨own, hname.trans hown, hvalid⟩

/-! ## What a copy shows -/

/-- What is shown of the copy of a node. -/
def NewOwner.face (new : NewOwner) (f : Face) : Face :=
  { f with owner := replaced new.owner? f.owner, group := replaced new.group? f.group }

/-- Names lead from one node, in a later tree, to copies of what they lead to from another one. -/
def Mirrors (t t' : Tree) (new : NewOwner) (a b : NodeId) : Prop :=
  ∀ names f, t'.Shows b names f ↔ ∃ g, t.Shows a names g ∧ new.face g = f

/-- A node shows the copy of another one with the copies of some of its children. -/
def PartMirrors (t t' : Tree) (new : NewOwner) (n : Node) (done : List Node) (b : NodeId) : Prop :=
  ∀ names f, t'.Shows b names f ↔ (names = [] ∧ new.face n.face = f) ∨
    ∃ c ∈ done, ∃ name rest, names = name :: rest ∧ c.name = .str name ∧ ∃ g, t.Shows c.id rest g ∧ new.face g = f

/-- A node without children shows itself only. -/
theorem partMirrors_blank (h : Linked t) (hn : t.get? n.id = some n) :
    PartMirrors t (t.takeId.2.insert (blankCopy n new now t.ids.id)) new n [] t.ids.id := by
  have hf := h.filled_nil hn new now
  have hget : (t.takeId.2.insert (blankCopy n new now t.ids.id)).get? t.ids.id = some (blankCopy n new now t.ids.id) := by
    rw [get?_insert]
    exact if_pos rfl
  intro names f
  rcases names with _ | ⟨name, rest⟩
  · rw [shows_nil, faceOf_some, hget]
    simp [blankCopy, Node.face, NewOwner.face]
  · rw [shows_cons]
    constructor
    · rintro ⟨b, hb, -⟩
      exact absurd ((hf.linked.above_iff hget).1 hb.1) List.not_mem_nil
    · rintro (⟨he, -⟩ | ⟨c, hc, -⟩)
      · cases he
      · cases hc

/-- A child that is linked to a copy is shown below it, and nothing else is shown anew. -/
theorem shows_graft {k : NodeId} (h : Linked t) (hk : t.get? k = some c) (hkp : c.parent = .null) (hname : c.name = .str name)
    (hid : t.skeleton.Loose id) (hne : k ≠ id) :
    (t.graft k id).Shows id names f ↔ t.Shows id names f ∨ ∃ rest, names = name :: rest ∧ t.Shows k rest f := by
  obtain ⟨y, hy, -⟩ := (show t.skeleton.Loose id from hid)
  have hu : ¬ t.skeleton.Under k id := fun hu => hne (hid.eq_of_under hu)
  have hx : t.skeleton k = some c.joint := skeleton_some.2 ⟨c, hk, rfl⟩
  have hlies : ∀ b, (t.graft k id).skeleton.Lies id names b ↔
      t.skeleton.Lies id names b ∨ ∃ rest, names = [name] ++ rest ∧ t.skeleton.Lies k rest b := fun b => by
    rw [skeleton_graft]
    exact lies_link hid hx hkp (h.forest.ne_null hy) hname hu (show t.skeleton.Lies id [] id from rfl)
  exact shows_joined hlies rewired_graft.faceOf

/-- One more child has been copied and is linked to the copy of its parent. -/
theorem PartMirrors.graft {done : List Node} {k : NodeId} (h : Linked t) (hp : PartMirrors t t₁ new n done id)
    (hf : Filled t t₁ n id done) (hcget : t.get? c.id = some c) (hg : Grown t₁ t₂) (hc : HasCopy t₁ t₂ c k)
    (hm : Mirrors t₁ t₂ new c.id k) : PartMirrors t (t₂.graft k id) new n (done ++ [c]) id := by
  obtain ⟨p, hpget, hpar, -⟩ := hf.there
  obtain ⟨k₀, hk₀, hkpar, hkname, -⟩ := hc.there
  obtain ⟨name, hname⟩ := (h.written (bare_some.2 ⟨c, hcget, rfl⟩)).name
  have hname : c.name = .str name := hname
  have hloose : t₂.skeleton.Loose id := hg.loose (hf.loose.2 (.inl rfl))
  have hne : k ≠ id := by
    rintro rfl
    rw [hc.fresh] at hpget
    cases hpget
  intro names f
  rw [shows_graft hg.linked hk₀ hkpar (hkname.trans hname) hloose hne, hg.shows hf.linked ⟨p, hpget⟩, hp, or_assoc]
  refine or_congr_right ?_
  have hchild : ∀ {rest}, t₂.Shows k rest f ↔ ∃ g, t.Shows c.id rest g ∧ new.face g = f := fun {rest} =>
    (hm _ f).trans (exists_congr fun g => and_congr_left fun _ => hf.toGrown.shows h ⟨c, hcget⟩)
  constructor
  · rintro (⟨o, ho, hshown⟩ | ⟨rest, he, hshown⟩)
    · exact ⟨o, List.mem_append_left _ ho, hshown⟩
    · exact ⟨c, List.mem_append_right _ List.mem_cons_self, name, rest, he, hname, hchild.1 hshown⟩
  · rintro ⟨o, ho, own, rest, he, hown, hshown⟩
    rcases List.mem_append.1 ho with ho | ho
    · exact .inl ⟨o, ho, own, rest, he, hown, hshown⟩
    · cases List.mem_singleton.1 ho
      cases hown.symm.trans hname
      exact .inr ⟨rest, he, hchild.2 hshown⟩

/-- A node with the copies of all children shows a whole copy. -/
theorem PartMirrors.whole {cs : List Node} (h : Linked t) (hn : t.get? n.id = some n) (hids : cs.map Node.id = n.children)
    (hget : ∀ c ∈ cs, t.get? c.id = some c) (hp : PartMirrors t t' new n cs id) : Mirrors t t' new n.id id := by
  intro names f
  rw [hp]
  rcases names with _ | ⟨name, rest⟩
  · simp only [shows_nil, faceOf_some]
    constructor
    · rintro (⟨-, hf⟩ | ⟨c, -, name, rest, he, -⟩)
      · exact ⟨n.face, ⟨n, hn, rfl⟩, hf⟩
      · cases he
    · rintro ⟨g, ⟨m, hm, rfl⟩, hf⟩
      cases hn.symm.trans hm
      exact .inl ⟨trivial, hf⟩
  · simp only [shows_cons]
    constructor
    · rintro (⟨he, -⟩ | ⟨c, hc, name, rest, he, hname, g, hg, hf⟩)
      · cases he
      · cases he
        have hmem : c.id ∈ n.children := hids ▸ List.mem_map_of_mem hc
        exact ⟨g, ⟨c.id, ⟨(h.above_iff hn).2 hmem, c.joint, skeleton_some.2 ⟨c, hget c hc, rfl⟩, hname⟩, hg⟩, hf⟩
    · rintro ⟨g, ⟨b, ⟨hab, x, hx, hname⟩, hg⟩, hf⟩
      obtain ⟨c, hc, rfl⟩ := List.mem_map.1 (hids ▸ (h.above_iff hn).1 hab)
      rw [skeleton_some.2 ⟨c, hget c hc, rfl⟩] at hx
      cases hx
      exact .inr ⟨c, hc, name, rest, rfl, hname, g, hg, hf⟩

/-- Copying children one after the other, where what is made of each of them shows a copy of it. -/
theorem mirrors_copyBelow {depth : Nat} (h : Linked t)
    (ih : ∀ {t t' : Tree} {c : Node} {id : NodeId}, Linked t → t.get? c.id = some c →
      (cloneDown new now depth c).run t = (.ok id, t') → Mirrors t t' new c.id id)
    (hn : t.get? n.id = some n) : ∀ {cs done : List Node} {t₁ : Tree} {u : PUnit}, Filled t t₁ n id done →
      PartMirrors t t₁ new n done id → (∀ c ∈ cs, t.get? c.id = some c ∧ c.id ∈ n.children) →
      (done ++ cs).Pairwise (fun o c => o.name ≠ c.name) → (copyBelow new now depth id cs).run t₁ = (.ok u, t') →
      PartMirrors t t' new n (done ++ cs) id
  | [], done, t₁, u, _, hp, _, _, hrun => by
    cases hrun
    rwa [List.append_nil]
  | c :: cs, done, t₁, u, hf, hp, hin, hnames, hrun => by
    obtain ⟨hc, hkid⟩ := hin c List.mem_cons_self
    rw [copyBelow] at hrun
    rcases of_run_bind hrun with ⟨e, -, he⟩ | ⟨k, t₂, hchild, hrun⟩
    · cases he
    · obtain ⟨hg, hcopy, -⟩ := run_cloneDown hf.linked (hf.old hc) hchild
      have hnew : ∀ o ∈ done, o.name ≠ c.name := fun o ho =>
        (List.pairwise_append.1 hnames).2.2 o ho c List.mem_cons_self
      have hnext := hf.graft hn hc hg (hcopy k rfl) hkid hnew
      have hpart := hp.graft h hf hc hg (hcopy k rfl) (ih hf.linked (hf.old hc) hchild)
      rw [List.append_cons] at hnames ⊢
      exact mirrors_copyBelow h ih hn hnext hpart (fun o ho => hin o (List.mem_cons_of_mem _ ho)) hnames hrun

/-- What has been made of a node shows a copy of it, with everything below it. -/
theorem mirrors_cloneDown : ∀ {depth : Nat} {n : Node} {t t' : Tree} {id : NodeId}, Linked t → t.get? n.id = some n →
    (cloneDown new now depth n).run t = (.ok id, t') → Mirrors t t' new n.id id
  | 0, _, _, _, _, _, _, hrun => by cases hrun
  | depth + 1, n, t, t', id, h, hn, hrun => by
    have hf := h.filled_nil hn new now
    obtain ⟨cs, hcs, hids, hin, hnames⟩ := hf.toGrown.childrenOf h hn
    rw [run_cloneDown_succ] at hrun
    simp only [hcs] at hrun
    rcases hloop : (copyBelow new now depth t.ids.id cs).run _ with ⟨u, t₂⟩
    rw [hloop] at hrun
    cases u with
    | error e => cases hrun
    | ok u =>
      cases hrun
      have hpart := mirrors_copyBelow h mirrors_cloneDown hn hf (partMirrors_blank h hn) hin hnames hloop
      exact hpart.whole h hn hids fun c hc => (hin c hc).1

theorem mirrors_clone (h : Linked t) (hn : t.get? n.id = some n) (hrun : (clone n new now).run t = (.ok id, t')) :
    Mirrors t t' new n.id id := by
  unfold clone at hrun
  simp only [run_bind, run_get] at hrun
  exact mirrors_cloneDown h hn hrun

/-! ## Hanging the copy -/

section Hang

variable (h : WellFormed t) (hn : t.get? n.id = some n) (hrun : (clone n new now).run t = (.ok id, t'))
  (hd : t.get? dir.id = some dir) (hdir : dir.isDir = true) (hfree : t.skeleton.NoneNamed dir.children (.str name))
  (hvalid : Path.validName name = true)

include h hn hrun hd hdir hfree hvalid

theorem WellFormed.copy : WellFormed (t'.hung id name dir.id now) := by
  obtain ⟨hg, hcopy, -⟩ := run_clone h.toLinked hn hrun
  have hc : HasCopy t t' n id := hcopy id rfl
  exact .hang (hc.hang h.toLinked hg hd hfree) (hg.shaped h.shaped) (hc.loose.2 (.inl rfl)) (hg.old hd) hdir hvalid

/-- A copy that is hung below a directory shows there what its path and all paths below it show, with the new
owner and group. -/
theorem WellFormed.files_copy (hplace : t.skeleton.Lies t.rootId place n.id) (hway : t.skeleton.Lies t.rootId way dir.id) :
    (t'.hung id name dir.id now).files = t.files.copy place (way ++ [name]) new.face := by
  have h' : WellFormed (t'.hung id name dir.id now) := h.copy hn hrun hd hdir hfree hvalid
  obtain ⟨hg, hcopy, -⟩ := run_clone h.toLinked hn hrun
  have hc : HasCopy t t' n id := hcopy id rfl
  have hmirror : Mirrors t t' new n.id id := mirrors_clone h.toLinked hn hrun
  obtain ⟨root, -, hroot, hid, -⟩ := h.root_ok
  have hroot : ∃ n, t.get? t.rootId = some n := ⟨root, hid ▸ hroot⟩
  have hnull : dir.id ≠ .null := h.forest.ne_null (skeleton_some.2 ⟨dir, hd, rfl⟩)
  have hunder : ¬ t'.skeleton.Under id dir.id := fun hu => by
    obtain ⟨m, hm⟩ := hg.old_of_under h.toLinked ⟨dir, hd⟩ hu
    rw [hc.fresh] at hm
    cases hm
  have hshows : ∀ {names f}, (t'.hung id name dir.id now).Shows t.rootId names f ↔
      t.Shows t.rootId names f ∨ ∃ rest, names = way ++ [name] ++ rest ∧ t'.Shows id rest f := fun {names f} => by
    rw [← hg.shows h.toLinked hroot]
    refine shows_joined (fun b => ?_) faceOf_hung
    exact lies_hung (hc.loose.2 (.inl rfl)) (hg.loose h.loose_root) hnull hunder ((hg.lies h.toLinked hroot).2 hway)
  funext names
  unfold FileMap.copy
  refine Option.ext fun f => ?_
  rw [h'.files_iff, show (t'.hung id name dir.id now).rootId = t.rootId from hg.rootId, hshows]
  split
  · -- nothing was there before, so that what is found is part of the copy
    rename_i hpre
    obtain ⟨rest, rfl⟩ := hpre
    have hnone : ¬ t.Shows t.rootId (way ++ [name] ++ rest) f := fun ⟨_, hl, _⟩ => h.free_below hd hfree hway hl
    rw [List.drop_left, Option.map_eq_some_iff, or_iff_right hnone]
    simp only [h.files_below hplace]
    constructor
    · rintro ⟨rest', he, hf⟩
      rw [List.append_cancel_left he]
      exact (hmirror _ f).1 hf
    · exact fun hf => ⟨rest, rfl, (hmirror _ f).2 hf⟩
  · rename_i hpre
    rw [h.files_iff, or_iff_left]
    rintro ⟨rest, he, -⟩
    exact hpre ⟨rest, he.symm⟩

end Hang

end SimUnix.Tree
