/-
What is moved into the trash. Nodes are only ever added and moved by it; all keep their names and parents but the node
that is in the trash then, and what was in the trash before is in it still.
-/
import SimUnix.Proofs.Machine.Moving
import SimUnix.Proofs.Machine.Trash

namespace SimUnix.Machine

open Tree Skeleton

variable {s s₁ s₂ s' : Machine} {n trash : Node} {a : NodeId} {user? : Option Json} {path name : String}
  {taken taken' : NodeId → Prop}

/-! ## Frames -/

/-- A node is a child of somebody's trash. -/
def InTrash (s : Machine) (user? : Option Json) (a : NodeId) : Prop := ∃ trash, s.HasTrash user? trash ∧ a ∈ trash.children

/-- All nodes are still there, and what may be done with them is the same as before. They have kept their names and parents,
but for some that are in somebody's trash now. What was in the trash is there still. -/
structure Discards (user? : Option Json) (taken : NodeId → Prop) (s s' : Machine) : Prop where
  same : s.Retreed s'
  linked : Linked s'.tree
  kept : ∀ {a m}, s.tree.get? a = some m →
    ∃ m', s'.tree.get? a = some m' ∧ m'.core = m.core ∧
      (m'.name = m.name ∧ m'.parent = m.parent ∨ taken a ∧ s'.InTrash user? a)
  still : ∀ {a}, s.InTrash user? a → s'.InTrash user? a

theorem Retreed.trans (h₁ : s.Retreed s₁) (h₂ : s₁.Retreed s₂) : s.Retreed s₂ := by
  unfold Retreed at *
  rw [h₂, h₁]

theorem Aside.retreed {t : Tree} (h : Aside { s with tree := t } s') : s.Retreed s' := by
  unfold Retreed
  rw [h.same]

/-- The home, and with it the place of the trash, is the same as before. -/
theorem Retreed.homePath (h : s.Retreed s') : s'.homePath user? = s.homePath user? := by
  rw [h]
  rfl

theorem Discards.trans (h₁ : s.Discards user? taken s₁) (h₂ : s₁.Discards user? taken s₂) : s.Discards user? taken s₂ := by
  refine ⟨h₁.same.trans h₂.same, h₂.linked, fun hm => ?_, fun ha => h₂.still (h₁.still ha)⟩
  obtain ⟨m₁, hm₁, hcore₁, hplace₁⟩ := h₁.kept hm
  obtain ⟨m₂, hm₂, hcore₂, hplace₂⟩ := h₂.kept hm₁
  refine ⟨m₂, hm₂, hcore₂.trans hcore₁, ?_⟩
  rcases hplace₂ with ⟨hname₂, hparent₂⟩ | hgone
  · rcases hplace₁ with ⟨hname₁, hparent₁⟩ | ⟨htaken, hin⟩
    · exact .inl ⟨hname₂.trans hname₁, hparent₂.trans hparent₁⟩
    · exact .inr ⟨htaken, h₂.still hin⟩
  · exact .inr hgone

theorem Discards.mono (h : s.Discards user? taken s') (hle : ∀ a, taken a → taken' a) : s.Discards user? taken' s' :=
  ⟨h.same, h.linked, fun hm =>
    let ⟨m', hm', hcore, hplace⟩ := h.kept hm
    ⟨m', hm', hcore, hplace.imp_right fun ⟨ha, hin⟩ => ⟨hle _ ha, hin⟩⟩, h.still⟩

/-- Logging and writing records moves nothing. -/
theorem Aside.discards (h : s.Aside s') (hl : Linked s.tree) : s.Discards user? taken s' := by
  refine ⟨h.retreed, h.tree ▸ hl, fun {a m} hm => ⟨m, h.tree ▸ hm, rfl, .inl ⟨rfl, rfl⟩⟩, ?_⟩
  rintro a ⟨trash, ⟨place, home, hpath, hlook, hdir, hchild⟩, ha⟩
  exact ⟨trash, ⟨place, home, h.retreed.homePath ▸ hpath, h.tree ▸ hlook, hdir, h.tree ▸ hchild⟩, ha⟩

theorem Discards.refl (hl : Linked s.tree) : s.Discards user? taken s := (Aside.refl s).discards hl

/-! ## Making a trash -/

theorem discards_ensureTrash (h : Linked s.tree) {r : Except Fault (Option Node)} (hrun : (ensureTrash user?).run s = (r, s')) :
    s.Discards user? taken s' ∧ ∀ trash, r = .ok (some trash) → s'.HasTrash user? trash := by
  rcases ensureTrash_cases hrun with ⟨ha, hold⟩ | ⟨place, home, hpath, hlook, hdir, hchild, hmay, ha, hget⟩
  · refine ⟨(aside_of_log ha).discards h, fun trash hr => ?_⟩
    obtain ⟨rfl, htrash⟩ := hold trash hr
    exact htrash
  have hnew : IsNew s.tree ((s.newTrash user?).build s) := newTrash_isNew
  have hhome := (h.lookup_found hlook).1
  have hl : Linked s'.tree := by
    rw [ha.tree]
    exact h.add hnew hhome (h.childNamed_none hhome hchild)
  have hold : ∀ {b m}, s.tree.get? b = some m → s'.tree.get? b =
      some (if b = home.id then { m with children := m.children ++ [((s.newTrash user?).build s).id], modified := s.now } else m) :=
    fun hm => by
      rw [ha.tree]
      exact get?_add_old h hnew hm
  refine ⟨⟨ha.retreed, hl, fun {b m} hm => ⟨_, hold hm, ?_, .inl ?_⟩, ?_⟩, fun trash hr => ?_⟩
  · split <;> rfl
  · split <;> exact ⟨rfl, rfl⟩
  · -- there was no trash before
    rintro b ⟨trash, ⟨place', home', hpath', hlook', -, hchild'⟩, -⟩
    cases hpath.symm.trans hpath'
    cases hlook.symm.trans hlook'
    cases hchild.symm.trans hchild'
  · have htrash := hget trash hr
    have hself : s'.tree.get? ((s.newTrash user?).build s).id = some { (s.newTrash user?).build s with parent := home.id } := by
      rw [ha.tree]
      exact get?_add_new h hnew hhome
    cases htrash.symm.trans hself
    have hkept : ∀ {b m}, True → s.tree.get? b = some m →
        ∃ m', s'.tree.get? b = some m' ∧ m'.name = m.name ∧ m'.parent = m.parent ∧ m'.kind = m.kind := fun _ hm => by
      refine ⟨_, hold hm, ?_⟩
      split <;> exact ⟨rfl, rfl, rfl⟩
    obtain ⟨home', hlook', hhome'⟩ := h.lookup_kept hl (by rw [ha.tree]; rfl) (fun _ _ => trivial) hkept hlook trivial
    rw [hold hhome, if_pos rfl] at hhome'
    cases hhome'
    refine ⟨place, _, ha.retreed.homePath ▸ hpath, hlook', hdir, ?_⟩
    exact hl.childNamed_of_mem ((hold hhome).trans (by rw [if_pos rfl])) (List.mem_append_right _ List.mem_cons_self) (hl.get_self hself)

/-! ## Moving into the trash -/

theorem HasTrash.present (htrash : s.HasTrash user? trash) (h : Linked s.tree) : s.tree.get? trash.id = some trash := by
  obtain ⟨place, home, -, hlook, -, hchild⟩ := htrash
  exact (h.childNamed_some (h.lookup_found hlook).1 hchild).2.1

theorem HasTrash.unique {other : Node} (h₁ : s.HasTrash user? trash) (h₂ : s.HasTrash user? other) : trash = other := by
  obtain ⟨place, home, hpath, hlook, -, hchild⟩ := h₁
  obtain ⟨place', home', hpath', hlook', -, hchild'⟩ := h₂
  cases hpath.symm.trans hpath'
  cases hlook.symm.trans hlook'
  cases hchild.symm.trans hchild'
  rfl

/-- A trash into which something is moved is the trash still. -/
theorem HasTrash.moves (h : Linked s.tree) {parent : Node} (hmove : Moves s.tree s'.tree n parent trash name s.now) (hsame : s.Retreed s')
    (htrash : s.HasTrash user? trash) : s'.HasTrash user? (trash.moved n.id name parent.id trash.id s.now) := by
  obtain ⟨place, home, hpath, hlook, hdir, hchild⟩ := htrash
  obtain ⟨hmem, -⟩ := h.childNamed_some (h.lookup_found hlook).1 hchild
  have hab := (h.above_iff (h.lookup_found hlook).1).2 hmem
  have hhome : ¬ s.tree.skeleton.Under n.id home.id := fun hu => hmove.apart (hu.tail hab)
  refine ⟨place, _, hsame.homePath ▸ hpath, hmove.lookup_moved h hlook hhome, Node.moved_isDir.trans hdir, ?_⟩
  exact h.childNamed_kept hmove.linked (h.lookup_found hlook).1 (hmove.get_some (h.lookup_found hlook).1) hchild
    (hmove.get_some hmove.target) (Node.moved_name hmove.target_ne) (Node.moved_parent hmove.target_ne)

/-- What is moved into the trash is there afterwards, with all that has been there. -/
theorem discards_moves (h : Linked s.tree) {parent : Node} (hmove : Moves s.tree s'.tree n parent trash name s.now) (hsame : s.Retreed s')
    (htrash : s.HasTrash user? trash) (hout : n.id ∉ trash.children) :
    s.Discards user? (· = n.id) s' ∧ s'.InTrash user? n.id := by
  have htrash' := htrash.moves h hmove hsame
  have hkids : ∀ {b}, b ≠ n.id → b ∈ trash.children → b ∈ (trash.moved n.id name parent.id trash.id s.now).children :=
    fun hb hm => (Node.mem_moved_children hmove.target_ne hb).2 hm
  have hin : s'.InTrash user? n.id := by
    refine ⟨_, htrash', ?_⟩
    rw [Node.moved_children hmove.target_ne]
    simp
  refine ⟨⟨hsame, hmove.linked, fun {b m} hm => ⟨_, hmove.get_some hm, Node.moved_core, ?_⟩, ?_⟩, hin⟩
  · by_cases hself : m.id = n.id
    · obtain rfl : b = n.id := (h.id_eq hm).symm.trans hself
      exact .inr ⟨rfl, hin⟩
    · exact .inl ⟨Node.moved_name hself, Node.moved_parent hself⟩
  · rintro b ⟨other, hother, hb⟩
    obtain rfl := htrash.unique hother
    exact ⟨_, htrash', hkids (fun he => hout (he ▸ hb)) hb⟩

/-- Whatever becomes of it, moving a node to a free name in the trash takes nothing else. -/
theorem discards_relocate (h : Linked s.tree) (hn : s.tree.get? n.id = some n) (htrash : s.HasTrash user? trash)
    (hi : s.tree.skeleton.InDirectories trash.id) (hparent : n.parent ≠ trash.id)
    (hfree : s.tree.childNamed trash (.str name) = .ok none) {source? : Option Json} {r : Except Fault Bool}
    (hrun : (relocate n trash (.str name) user? source?).run s = (r, s')) :
    s.Discards user? (· = n.id) s' ∧ (r = .ok true → s'.InTrash user? n.id) := by
  have ht := htrash.present h
  have hout : n.id ∉ trash.children := fun hm => hparent (parent_of_above hn ((h.above_iff ht).2 hm))
  rcases relocate_cases h hn ht hi hrun with ⟨ha, hsame⟩ | ⟨parent, hmove, hsame⟩
  · refine ⟨ha.discards h, fun hr => ?_⟩
    -- the name is free, so that the node cannot be there already
    obtain ⟨-, -, c, hc, -⟩ := relocateVerdict_unchanged (hsame hr)
    cases hfree.symm.trans hc
  · obtain ⟨hdisc, hin⟩ := discards_moves h hmove hsame htrash hout
    exact ⟨hdisc, fun _ => hin⟩

/-- Whatever becomes of it, moving something into the trash takes nothing but what is found at the path; and where it succeeds,
that is in the trash. -/
theorem discards_moveToTrash (h : Linked s.tree) {r : Except Fault Bool} (hrun : (moveToTrash path user?).run s = (r, s')) :
    s.Discards user? (fun a => ∃ n, s.nodeAt path user? = .ok (some n) ∧ n.id = a) s' ∧
      (r = .ok true → ∃ n, s.nodeAt path user? = .ok (some n) ∧ s'.InTrash user? n.id) := by
  rcases moveToTrash_cases hrun with ⟨hlog, hno⟩ | ⟨n, x, s₁, hfound, hens, hend⟩
  · exact ⟨(aside_of_log hlog).discards h, fun hr => absurd hr hno⟩
  have hn := (nodeAt_found h hfound).1
  obtain ⟨hdisc, hhas⟩ : s.Discards user? (fun a => ∃ n, s.nodeAt path user? = .ok (some n) ∧ n.id = a) s₁ ∧
    ∀ trash, x = .ok (some trash) → s₁.HasTrash user? trash := discards_ensureTrash h hens
  obtain ⟨-, hfacts⟩ : Relinks (fun _ => False) user? none s s₁ ∧ ∀ trash, x = .ok (some trash) → IsTrash s s₁ trash :=
    trail_ensureTrash h hens
  rcases hend with ⟨rfl, hno⟩ | ⟨trash, name, rfl, hanc, hparent, hname, hmove⟩
  · exact ⟨hdisc, fun hr => absurd hr hno⟩
  have h₁ := hdisc.linked
  obtain ⟨ht, hi, hn₁⟩ := (hfacts trash rfl).of_apart h₁ hn hanc
  obtain ⟨hlast, hin⟩ := discards_relocate h₁ hn₁ (hhas trash rfl) hi hparent (uniqueName_free h₁ ht hname).1 hmove
  refine ⟨hdisc.trans (hlast.mono ?_), fun hr => ⟨n, hfound, hin hr⟩⟩
  rintro a rfl
  exact ⟨n, hfound, rfl⟩

end SimUnix.Machine
