/-
What the changes of a well-formed tree do to its map of files: a new node is one more path, a removed node
takes its path and all paths below it away, and a node that is moved takes them along.
-/
import SimUnix.Proofs.Tree.Files

namespace SimUnix.Tree

open Skeleton

variable {t t' : Tree} {n d dir : Node} {a c p top : NodeId} {now : Time.Stamp} {name : String} {names way place : List String}
  {f : Face}

/-! ## What is shown of nodes -/

theorem faceOf_bare : t.faceOf a = (t.bare a).map Node.face := by
  unfold faceOf bare
  rw [Option.map_map]
  rfl

theorem Rewired.faceOf (h : Rewired t t') : t'.faceOf = t.faceOf := by
  funext a
  rw [faceOf_bare, faceOf_bare, h.bare]

theorem faceOf_update {change : Node → Node} (hsame : ∀ n, (change n).face = n.face) : (t.update c change).faceOf = t.faceOf := by
  funext a
  unfold Tree.faceOf
  rw [get?_update]
  split
  · rw [Option.map_map]
    exact congrArg (Option.map · _) (funext hsame)
  · rfl

theorem faceOf_hung {name : Json} : (t.hung c name p now).faceOf = t.faceOf :=
  rewired_attach.faceOf.trans (faceOf_update fun _ => rfl)

/-- A node that is shown is there. -/
theorem faceOf_some : t.faceOf a = some f ↔ ∃ n, t.get? a = some n ∧ n.face = f := Option.map_eq_some_iff

/-! ## Adding -/

theorem WellFormed.add (h : WellFormed t) (hn : IsNew t n) (hd : t.get? p = some dir) (hdir : dir.isDir = true)
    (hname : n.name = .str name) (hvalid : Path.validName name = true) (hfree : t.skeleton.NoneNamed dir.children n.name) :
    WellFormed (t.takeId.2.add n p now) := by
  refine ⟨h.toLinked.add hn hd hfree, ?_⟩
  have hy : t.skeleton p = some dir.joint := skeleton_some.2 ⟨dir, hd, rfl⟩
  rw [skeleton_add]
  exact (h.shaped.put hn.children hn.parent).link put_self hname hvalid (put_old (h.new_absent hn) hy) (isDir_iff.1 hdir)

/-- Where no child of a directory has a name, nothing lies below it under that name. -/
theorem Linked.free_below (h : Linked t) (hd : t.get? p = some dir) (hfree : t.skeleton.NoneNamed dir.children (.str name))
    (hway : t.skeleton.Lies t.rootId way p) {rest : List String} : ¬ t.skeleton.Lies t.rootId (way ++ [name] ++ rest) a := by
  intro hl
  obtain ⟨c, hc, -⟩ := lies_append.1 hl
  obtain ⟨q, hq, hangs⟩ := lies_snoc.1 hc
  cases hq.node h.forest hway
  obtain ⟨x, hx, hname⟩ := hangs.2
  exact hfree c ((h.above_iff hd).1 hangs.1) x hx hname

/-- Nothing that lies below the root is new. -/
theorem Linked.old_below (h : Linked t) (hn : IsNew t n) (hu : t.skeleton.Under t.rootId a) : a ≠ n.id := by
  rintro rfl
  obtain ⟨r, -, hr, hid, -⟩ := h.root_ok
  obtain ⟨m, hm⟩ := present_of_under (hid ▸ hr) hu
  have habs := h.new_absent hn
  rw [skeleton_some.2 ⟨m, hm, rfl⟩] at habs
  cases habs

theorem faceOf_add : (t.takeId.2.add n p now).faceOf a = if a = n.id then some n.face else t.faceOf a := by
  unfold Tree.add
  rw [rewired_attach.faceOf]
  unfold Tree.faceOf
  rw [get?_insert]
  split <;> rfl

/-- Names lead to a new node through its directory, and to all others as before. -/
theorem Linked.lies_add (h : Linked t) (hn : IsNew t n) (hd : t.get? p = some dir) (hname : n.name = .str name)
    (hway : t.skeleton.Lies t.rootId way p) : (t.takeId.2.add n p now).skeleton.Lies t.rootId names a ↔
      t.skeleton.Lies t.rootId names a ∨ names = way ++ [name] ∧ a = n.id := by
  have habs := h.new_absent hn
  have hnothing : ∀ {q}, ¬ t.skeleton.Above n.id q := fun hq => by
    obtain ⟨y, hy, -⟩ := h.forest.mem_of_above hq
    rw [habs] at hy
    cases hy
  have hput : ∀ {a names b}, (t.skeleton.put n.joint).Lies a names b ↔ t.skeleton.Lies a names b :=
    lies_congr (hangs_put habs hn.parent)
  have hloose : (t.skeleton.put n.joint).Loose t.rootId := (loose_put hn.parent).2 (.inr h.loose_root)
  have hnull : p ≠ .null := h.forest.ne_null (skeleton_some.2 ⟨dir, hd, rfl⟩)
  have hunder : ¬ (t.skeleton.put n.joint).Under n.id p := by
    intro hu
    rcases Relation.ReflTransGen.cases_head hu with he | ⟨q, hq, -⟩
    · exact h.old_below hn hway.under he.symm
    · exact hnothing ((above_put habs hn.parent).1 hq)
  have hself : t.skeleton.put n.joint n.id = some n.joint := put_self
  rw [skeleton_add, lies_link hloose hself hn.parent hnull hname hunder (hput.2 hway), hput]
  refine or_congr_right ⟨fun ⟨rest, he, hl⟩ => ?_, fun ⟨he, hb⟩ => ⟨[], by rw [he, List.append_nil], hb⟩⟩
  rcases rest with _ | ⟨next, rest⟩
  · exact ⟨by rw [he, List.append_nil], hl⟩
  · obtain ⟨c, hc, -⟩ := hput.1 hl
    exact absurd hc.1 hnothing

/-- A new node is one more path. -/
theorem WellFormed.files_add (h : WellFormed t) (hn : IsNew t n) (hd : t.get? p = some dir) (hdir : dir.isDir = true)
    (hname : n.name = .str name) (hvalid : Path.validName name = true) (hfree : t.skeleton.NoneNamed dir.children n.name)
    (hway : t.skeleton.Lies t.rootId way p) :
    t.files (way ++ [name]) = none ∧ (t.takeId.2.add n p now).files = t.files.put (way ++ [name]) n.face := by
  have h' : WellFormed (t.takeId.2.add n p now) := h.add hn hd hdir hname hvalid hfree
  have hnone : ∀ b, ¬ t.skeleton.Lies t.rootId (way ++ [name]) b := fun b hl => by
    rw [← List.append_nil (way ++ [name])] at hl
    exact h.free_below hd (hname ▸ hfree) hway hl
  refine ⟨Option.eq_none_iff_forall_ne_some.2 fun f hf => ?_, funext fun names => Option.ext fun f => ?_⟩
  · obtain ⟨b, hl, -⟩ := h.files_iff.1 hf
    exact hnone b hl
  · rw [h'.files_iff]
    unfold FileMap.put Shows
    rw [show (t.takeId.2.add n p now).rootId = t.rootId from rfl]
    simp only [h.lies_add hn hd hname hway, faceOf_add]
    by_cases hnames : names = way ++ [name]
    · rw [hnames, Function.update_self]
      constructor
      · rintro ⟨b, hl | ⟨-, rfl⟩, hf⟩
        · exact absurd hl (hnone b)
        · rwa [if_pos rfl] at hf
      · exact fun hf => ⟨n.id, .inr ⟨rfl, rfl⟩, by rwa [if_pos rfl]⟩
    · rw [Function.update_of_ne hnames, h.files_iff]
      refine exists_congr fun b => ⟨fun ⟨hl, hf⟩ => ?_, fun ⟨hl, hf⟩ => ⟨.inl hl, by rwa [if_neg (h.old_below hn hl.under)]⟩⟩
      have hl := hl.resolve_right fun hl => hnames hl.1
      rw [if_neg (h.old_below hn hl.under)] at hf
      exact ⟨hl, hf⟩

/-! ## Changing a node in place -/

/-- A change of a node that leaves its name, its kind and its links alone is seen at its path only. -/
theorem WellFormed.files_update (h : WellFormed t) {change : Node → Node} (hj : ∀ n, (change n).joint = n.joint)
    (hc : ∀ n, (∃ s, n.content = .str s) → ∃ s, (change n).content = .str s) (hn : t.get? a = some n)
    (hplace : t.skeleton.Lies t.rootId place a) :
    WellFormed (t.update a change) ∧ (t.update a change).files = t.files.put place (change n).face := by
  have hσ : (t.update a change).skeleton = t.skeleton := skeleton_update_same hj
  have h' : WellFormed (t.update a change) := ⟨h.toLinked.edit hj hc, hσ.symm ▸ h.shaped⟩
  have hself : (t.update a change).faceOf a = some (change n).face := by
    unfold faceOf
    rw [get?_update, if_pos rfl, hn]
    rfl
  have hother : ∀ {b}, b ≠ a → (t.update a change).faceOf b = t.faceOf b := fun hb => by
    unfold faceOf
    rw [get?_update, if_neg hb]
  refine ⟨h', funext fun names => Option.ext fun f => ?_⟩
  rw [h'.files_iff]
  unfold FileMap.put Shows
  rw [hσ, show (t.update a change).rootId = t.rootId from rfl]
  by_cases hnames : names = place
  · subst hnames
    rw [Function.update_self]
    constructor
    · rintro ⟨b, hl, hf⟩
      cases hl.node h.forest hplace
      exact hself.symm.trans hf
    · exact fun hf => ⟨a, hplace, hself.trans hf⟩
  · rw [Function.update_of_ne hnames, h.files_iff]
    refine exists_congr fun b => and_congr_right fun hl => ?_
    rw [hother]
    rintro rfl
    exact hnames (hl.unique h.loose_root hplace)

/-! ## Removing -/

theorem WellFormed.removed (h : WellFormed t) (hab : t.skeleton.Above p c) (hr : Removed t t' c p) : WellFormed t' :=
  ⟨h.toLinked.removed hab hr, hr.skeleton ▸ h.shaped.unlink.prune⟩

/-- A node that is removed takes its path and all paths below it away. -/
theorem WellFormed.files_removed (h : WellFormed t) (hab : t.skeleton.Above p c) (hr : Removed t t' c p)
    (hplace : t.skeleton.Lies t.rootId place c) : t'.files = t.files.remove place := by
  have h' : WellFormed t' := h.removed hab hr
  have hout : ¬ t.skeleton.Under c t.rootId := fun hu => by
    rw [h.loose_root.eq_of_under hu] at hab
    exact h.loose_root.not_above hab
  have hlies : ∀ {names b}, t'.skeleton.Lies t.rootId names b ↔ t.skeleton.Lies t.rootId names b ∧ ¬ t.skeleton.Under c b := by
    intro names b
    refine lies_cut (fun {d b name} _ => ?_) hout
    rw [hr.skeleton, hangs_prune, hangs_unlink, under_unlink h.forest hab]
    refine and_congr_right fun hu => and_iff_right ?_
    rintro rfl
    exact hu .refl
  funext names
  unfold FileMap.remove
  refine Option.ext fun f => ?_
  rw [h'.files_iff]
  unfold Shows
  rw [hr.rootId]
  constructor
  · rintro ⟨b, hl, hf⟩
    obtain ⟨hl, hu⟩ := hlies.1 hl
    rw [faceOf_bare, hr.bare b hu, ← faceOf_bare] at hf
    rw [if_neg fun hpre => hu ((under_iff_starts h.forest h.texts h.loose_root hplace hl).2 hpre)]
    exact h.files_iff.2 ⟨b, hl, hf⟩
  · intro hf
    split at hf
    · cases hf
    · rename_i hpre
      obtain ⟨b, hl, hf⟩ := h.files_iff.1 hf
      have hu : ¬ t.skeleton.Under c b := fun hu => hpre ((under_iff_starts h.forest h.texts h.loose_root hplace hl).1 hu)
      exact ⟨b, hlies.2 ⟨hl, hu⟩, by rw [faceOf_bare, hr.bare b hu, ← faceOf_bare, hf]⟩

/-! ## Hanging -/

theorem WellFormed.hang (h : Linked (t.hung c name p now)) (hs : t.skeleton.Shaped) (hl : t.skeleton.Loose c)
    (hd : t.get? p = some dir) (hdir : dir.isDir = true) (hvalid : Path.validName name = true) : WellFormed (t.hung c name p now) := by
  obtain ⟨x, hx, hxp⟩ := id hl
  have hy : t.skeleton p = some dir.joint := skeleton_some.2 ⟨dir, hd, rfl⟩
  refine ⟨h, ?_⟩
  rw [skeleton_hung]
  refine (hs.rename hl).link (rename_some hx) ?_ hvalid (rename_some hy) (isDir_iff.1 hdir)
  exact if_pos rfl

theorem lies_hung (hl : t.skeleton.Loose c) (htop : t.skeleton.Loose top) (hp : p ≠ .null) (hu : ¬ t.skeleton.Under c p)
    (hway : t.skeleton.Lies top way p) : (t.hung c name p now).skeleton.Lies top names a ↔
      t.skeleton.Lies top names a ∨ ∃ rest, names = way ++ [name] ++ rest ∧ t.skeleton.Lies c rest a := by
  have hsame : ∀ {b names d}, (t.skeleton.rename c (.str name)).Lies b names d ↔ t.skeleton.Lies b names d :=
    lies_congr (hangs_rename hl)
  obtain ⟨x, hx, hxp⟩ := id hl
  have hunder : ¬ (t.skeleton.rename c (.str name)).Under c p := fun hu' =>
    hu (Under.mono (fun _ _ hab => above_rename.1 hab) hu')
  rw [skeleton_hung, lies_link (loose_rename.2 htop) (rename_some hx) hxp hp (if_pos rfl) hunder (hsame.2 hway), hsame]
  simp only [hsame]

/-! ## Moving -/

section Move

variable (h : WellFormed t) (hn : t.get? n.id = some n) (hp : t.parentOf? n = some d) (ht : t.detach n now = .ok t')
  (hdir : t.get? dir.id = some dir) (hisDir : dir.isDir = true) (hu : ¬ t.skeleton.Under n.id dir.id)
  (hfree : t.skeleton.NoneNamed dir.children (.str name)) (hvalid : Path.validName name = true)

include h hn hp ht hdir hisDir hu hfree hvalid

theorem WellFormed.move : WellFormed (t'.relinked n.id name dir.id now) := by
  have hlinked : Linked (t'.relinked n.id name dir.id now) := h.toLinked.move hn hp ht hdir hu hfree
  obtain ⟨-, -, hσ, hab⟩ := h.toLinked.detach hn hp ht
  have hl : t'.skeleton.Loose n.id := by
    rw [hσ]
    exact (loose_unlink hab).2 (.inl rfl)
  have hy : t'.skeleton dir.id = _ := hσ ▸ unlink_some (skeleton_some.2 ⟨dir, hdir, rfl⟩)
  obtain ⟨x, hx, hxp⟩ := id hl
  refine ⟨hlinked, ?_⟩
  rw [skeleton_relinked, skeleton_hung]
  exact ((hσ ▸ h.shaped.unlink).rename hl).link (rename_some hx) (if_pos rfl) hvalid (rename_some hy) (isDir_iff.1 hisDir)

omit hisDir hfree hvalid in
/-- Names lead to what has been moved through the new place, and to everything else as before. -/
theorem WellFormed.lies_move (hway : t.skeleton.Lies t.rootId way dir.id) :
    (t'.relinked n.id name dir.id now).skeleton.Lies t.rootId names a ↔
      (t.skeleton.Lies t.rootId names a ∧ ¬ t.skeleton.Under n.id a) ∨
        ∃ rest, names = way ++ [name] ++ rest ∧ t.skeleton.Lies n.id rest a := by
  obtain ⟨-, -, hσ, hab⟩ := h.toLinked.detach hn hp ht
  have hl : t'.skeleton.Loose n.id := by
    rw [hσ]
    exact (loose_unlink hab).2 (.inl rfl)
  have htop : t'.skeleton.Loose t.rootId := by
    rw [hσ]
    exact (loose_unlink hab).2 (.inr h.loose_root)
  have hout : ¬ t.skeleton.Under n.id t.rootId := fun hu => by
    rw [h.loose_root.eq_of_under hu] at hab
    exact h.loose_root.not_above hab
  have hnull : dir.id ≠ .null := h.forest.ne_null (skeleton_some.2 ⟨dir, hdir, rfl⟩)
  have hunder : ¬ t'.skeleton.Under n.id dir.id := by
    rw [hσ, under_unlink h.forest hab]
    exact hu
  have hcut : ∀ {names b}, t'.skeleton.Lies t.rootId names b ↔ t.skeleton.Lies t.rootId names b ∧ ¬ t.skeleton.Under n.id b := by
    intro names b
    refine lies_cut (fun {q b name} hq => ?_) hout
    rw [hσ, hangs_unlink]
    refine and_congr_left fun hangs => ⟨fun hne hb => ?_, fun hb he => hb (he ▸ .refl)⟩
    rcases Relation.ReflTransGen.cases_tail hb with he | ⟨r, hr, hrb⟩
    · exact hne he
    · exact hq (hrb.unique hangs.1 ▸ hr)
  rw [skeleton_relinked, lies_hung hl htop hnull hunder (hcut.2 ⟨hway, hu⟩), hcut]
  refine or_congr_right (exists_congr fun rest => and_congr_right fun _ => ?_)
  rw [hσ]
  exact lies_unlink h.forest

/-- A node that is moved takes its path and all paths below it along. -/
theorem WellFormed.files_move (hplace : t.skeleton.Lies t.rootId place n.id) (hway : t.skeleton.Lies t.rootId way dir.id) :
    (t'.relinked n.id name dir.id now).files = t.files.move place (way ++ [name]) := by
  have h' : WellFormed (t'.relinked n.id name dir.id now) := h.move hn hp ht hdir hisDir hu hfree hvalid
  have hrew : Rewired t t' := rewired_detach ht
  have htouch : (t'.relinked n.id name dir.id now).faceOf = (t'.hung n.id name dir.id now).faceOf := faceOf_update fun _ => rfl
  have hface : (t'.relinked n.id name dir.id now).faceOf = t.faceOf := htouch.trans (faceOf_hung.trans hrew.faceOf)
  funext names
  unfold FileMap.move FileMap.remove
  refine Option.ext fun f => ?_
  rw [h'.files_iff]
  unfold Shows
  rw [hface, show (t'.relinked n.id name dir.id now).rootId = t.rootId from hrew.rootId]
  simp only [h.lies_move hn hp ht hdir hu hway]
  split
  · -- nothing was there before, so that what is found has been moved
    rename_i hpre
    obtain ⟨rest, rfl⟩ := hpre
    rw [List.drop_left, h.files_below hplace]
    refine exists_congr fun b => and_congr_left fun _ => ⟨?_, fun hl => .inr ⟨rest, rfl, hl⟩⟩
    rintro (⟨hl, -⟩ | ⟨rest', he, hl⟩)
    · exact absurd hl (h.free_below hdir hfree hway)
    · rwa [List.append_cancel_left he]
  · rename_i hpre
    have hold : ∀ b, ¬ ∃ rest, names = way ++ [name] ++ rest ∧ t.skeleton.Lies n.id rest b :=
      fun b ⟨rest, he, _⟩ => hpre ⟨rest, he.symm⟩
    simp only [hold, or_false]
    split
    · rename_i hgone
      refine iff_of_false (fun ⟨b, ⟨hl, hb⟩, _⟩ => hb ?_) (by simp)
      exact (under_iff_starts h.forest h.texts h.loose_root hplace hl).2 hgone
    · rename_i hgone
      rw [h.files_iff]
      refine exists_congr fun b => and_congr_left fun _ => and_iff_left_of_imp fun hl hb => hgone ?_
      exact (under_iff_starts h.forest h.texts h.loose_root hplace hl).1 hb

end Move

end SimUnix.Tree
