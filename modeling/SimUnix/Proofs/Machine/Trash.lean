/-
What the operations on the trash and the clipboard do, step by step. The trash is made where it is
missing, and only then is something moved into it; what has been checked before still holds then.
-/
import SimUnix.Proofs.Machine.Trail

namespace SimUnix.Machine

open Tree Skeleton

variable {keepers : NodeId → Prop} {s s₁ s₂ s' : Machine} {user? leaver? : Option Json} {n dir : Node}

/-! ## The trash -/

/-- Somebody has this node for a trash: it goes by that name in the home. -/
def HasTrash (s : Machine) (user? : Option Json) (trash : Node) : Prop :=
  ∃ path home, (s.homePath user?).bind Json.asOwnText = .ok path ∧ s.tree.lookup path = .ok (some home) ∧ home.isDir = true ∧
    s.tree.childNamed home trashName = .ok (some trash)

/-- The trash that is made for somebody. -/
def newTrash (s : Machine) (user? : Option Json) : NewNode where
  name := trashName
  kind := .directory
  owner := s.actor user?
  group := s.primaryGroup (s.actor user?)
  permissions := "drwx------"

theorem newTrash_isNew : IsNew s.tree ((s.newTrash user?).build s) := build_isNew rfl rfl

/-- The trash is not asked for, is there or may not be made; or a new one is made in the home. -/
theorem ensureTrash_cases {r : Except Fault (Option Node)} (hrun : (ensureTrash user?).run s = (r, s')) :
    (s' = { s with log := s'.log } ∧ ∀ trash, r = .ok (some trash) → s' = s ∧ s.HasTrash user? trash) ∨
      ∃ path home, (s.homePath user?).bind Json.asOwnText = .ok path ∧ s.tree.lookup path = .ok (some home) ∧ home.isDir = true ∧
        s.tree.childNamed home trashName = .ok none ∧ s.Allows home .write user? ∧
        Aside { s with tree := s.tree.takeId.2.add ((s.newTrash user?).build s) home.id s.now } s' ∧
        ∀ trash, r = .ok (some trash) → s'.tree.get? s.tree.ids.id = some trash := by
  have hnothing : ∀ {r : Except Fault (Option Node)}, (∀ trash, r ≠ .ok (some trash)) →
      s = { s with log := s.log } ∧ ∀ trash, r = .ok (some trash) → s = s ∧ s.HasTrash user? trash :=
    fun hne => ⟨rfl, fun trash he => absurd he (hne trash)⟩
  unfold ensureTrash at hrun
  rcases Act.asked (Act.got hrun) with ⟨e, -, rfl, rfl⟩ | ⟨path, hpath, hrun⟩
  · exact .inl (hnothing (by rintro _ ⟨⟩))
  rcases Act.asked hrun with ⟨e, -, rfl, rfl⟩ | ⟨home?, hlook, hrun⟩
  · exact .inl (hnothing (by rintro _ ⟨⟩))
  rcases home? with _ | home
  · cases hrun
    exact .inl (hnothing (by rintro _ ⟨⟩))
  simp only at hrun
  split at hrun
  · cases hrun
    exact .inl (hnothing (by rintro _ ⟨⟩))
  rename_i hdir
  have hdir : home.isDir = true := by simpa using hdir
  rcases Act.asked hrun with ⟨e, -, rfl, rfl⟩ | ⟨trash?, hchild, hrun⟩
  · exact .inl (hnothing (by rintro _ ⟨⟩))
  rcases trash? with _ | trash
  · rcases Act.asked hrun with ⟨e, -, rfl, rfl⟩ | ⟨place, -, hrun⟩
    · exact .inl (hnothing (by rintro _ ⟨⟩))
    rcases Act.asked hrun with ⟨e, -, rfl, rfl⟩ | ⟨may, hmay, hrun⟩
    · exact .inl (hnothing (by rintro _ ⟨⟩))
    cases may with
    | false =>
      cases hrun
      exact .inl ⟨rfl, by rintro _ ⟨⟩⟩
    | true =>
      simp only [Bool.not_true, Bool.false_eq_true, if_false, run_bind, run_addNew, run_get, run_pure] at hrun
      generalize "created " ++ _ = message at hrun
      rcases hlog : (Act.changed message user?).run { s with tree := _ } with ⟨x, s₁⟩
      have ha := Act.aside_changed hlog
      rw [hlog] at hrun
      refine .inr ⟨path, home, hpath, hlook, hdir, hchild, hmay, ?_⟩
      cases x <;> cases hrun
      · exact ⟨ha, by rintro _ ⟨⟩⟩
      · exact ⟨ha, fun trash he => Except.ok.inj he⟩
  · cases hrun
    refine .inl ⟨rfl, ?_⟩
    rintro _ ⟨⟩
    exact ⟨rfl, path, home, hpath, hlook, hdir, hchild⟩

/-- What `ensureTrash` finds or makes. Nodes that do not lie above it are as before. -/
structure IsTrash (s s' : Machine) (trash : Node) : Prop where
  there : s'.tree.get? trash.id = some trash
  inDirectories : s'.tree.skeleton.InDirectories trash.id
  others : ∀ {m : Node}, s.tree.get? m.id = some m → ¬ s'.tree.skeleton.Under m.id trash.id →
    s'.tree.get? m.id = some m

/-- A node that is no ancestor of the trash is as before. -/
theorem IsTrash.of_apart {trash : Node} (htrash : IsTrash s s' trash) (hl : Linked s'.tree) (hn : s.tree.get? n.id = some n)
    (hanc : s'.tree.isAncestor n trash = false) :
    s'.tree.get? trash.id = some trash ∧ s'.tree.skeleton.InDirectories trash.id ∧ s'.tree.get? n.id = some n := by
  have hapart : ¬ s'.tree.skeleton.Under n.id trash.id := fun hu => by
    rw [(hl.isAncestor_iff htrash.there).2 hu] at hanc
    cases hanc
  exact ⟨htrash.there, htrash.inDirectories, htrash.others hn hapart⟩

/-- A directory that has been made in a home serves as the trash. -/
theorem isTrash_add (h : Linked s.tree) {home trash : Node} (hhome : s.tree.get? home.id = some home)
    (hin : s.tree.skeleton.InDirectories home.id) (hdir : home.isDir = true) {new : NewNode}
    (hnew : IsNew s.tree (new.build s)) (hl : Linked s'.tree)
    (hs' : s'.tree = s.tree.takeId.2.add (new.build s) home.id s.now)
    (hget : s'.tree.get? s.tree.ids.id = some trash) : IsTrash s s' trash := by
  have hid : trash.id = (new.build s).id := hl.id_eq hget
  have hloose : (s.tree.skeleton.put (new.build s).joint).Loose (new.build s).id :=
    (loose_put hnew.parent).2 (.inl rfl)
  have habove : s'.tree.skeleton.Above home.id trash.id := by
    rw [hs', skeleton_add, above_link hloose (h.forest.ne_null (skeleton_some.2 ⟨home, hhome, rfl⟩))]
    exact .inl ⟨hid, rfl⟩
  refine ⟨hl.get_self hget, ?_, ?_⟩
  · rw [hs', hid]
    exact h.add_inDirectories hnew hhome hin hdir
  · intro m hm hu
    have hold : m.id ≠ (new.build s).id := by
      intro he
      have hnone := h.new_absent hnew
      rw [← he, skeleton_some.2 ⟨m, hm, rfl⟩] at hnone
      cases hnone
    have hhome' : m.id ≠ home.id := by
      intro he
      exact hu (he ▸ .single habove)
    rw [hs', get?_add hold hhome']
    exact hm

theorem trail_ensureTrash (h : Linked s.tree) {r : Except Fault (Option Node)}
    (hrun : (ensureTrash user?).run s = (r, s')) :
    Relinks keepers user? leaver? s s' ∧ ∀ trash, r = .ok (some trash) → IsTrash s s' trash := by
  rcases ensureTrash_cases hrun with ⟨ha, hold⟩ | ⟨path, home, -, hlook, hdir, hchild, hmay, ha, hget⟩
  · refine ⟨.of_aside (aside_of_log ha), fun trash hr => ?_⟩
    obtain ⟨rfl, path, home, -, hlook, hdir, hchild⟩ := hold trash hr
    obtain ⟨hhome, hin⟩ := h.lookup_found hlook
    obtain ⟨hmem, hget, -⟩ := h.childNamed_some hhome hchild
    exact ⟨hget, h.child_inDirectories hhome hin hdir hmem, fun hm _ => hm⟩
  · obtain ⟨hhome, hin⟩ := h.lookup_found hlook
    have hmake : Relink keepers s user? leaver? (s.tree.takeId.2.add ((s.newTrash user?).build s) home.id s.now) :=
      .create hhome hdir rfl (by decide) rfl hchild hmay
    refine ⟨.single hmake ha, fun trash hr => ?_⟩
    have hl : Linked s'.tree := by
      rw [ha.tree]
      exact (hmake.sequel h).linked
    exact isTrash_add h hhome hin hdir newTrash_isNew hl ha.tree (hget trash hr)

/-! ## Moving into the trash -/

theorem removeVerdict_changes {what path : String} : removeVerdict what path user? s ≠ .ok .unchanged := by
  intro hv
  unfold removeVerdict at hv
  obtain ⟨found?, -, hv⟩ := bind_ok.1 hv
  split at hv
  · cases hv
  obtain ⟨root, -, hv⟩ := bind_ok.1 hv
  split at hv
  · cases hv
  dsimp only at hv
  split at hv <;> obtain ⟨may, -, hv⟩ := bind_ok.1 hv <;> split at hv
  all_goals first | cases hv | (obtain ⟨_, -, hv⟩ := bind_ok.1 hv; cases hv)

/-- Nothing comes of it; or the trash is asked for, and what is found at the path is moved there under a name that is free. -/
theorem moveToTrash_cases {path : String} {r : Except Fault Bool} (hrun : (moveToTrash path user?).run s = (r, s')) :
    (s' = { s with log := s'.log } ∧ r ≠ .ok true) ∨ ∃ n x s₁, s.nodeAt path user? = .ok (some n) ∧ (ensureTrash user?).run s = (x, s₁) ∧
      ((s' = s₁ ∧ r ≠ .ok true) ∨ ∃ trash name, x = .ok (some trash) ∧ s₁.tree.isAncestor n trash = false ∧ n.parent ≠ trash.id ∧
        uniqueName s₁.tree trash n.name.plain = .ok name ∧ (relocate n trash (.str name) user? user?).run s₁ = (r, s')) := by
  unfold moveToTrash at hrun
  rcases Act.askedOf hrun with ⟨e, -, rfl, rfl⟩ | ⟨v, hv, hrun⟩
  · exact .inl ⟨rfl, nofun⟩
  cases v with
  | refused =>
    cases hrun
    exact .inl ⟨rfl, nofun⟩
  | unchanged => exact absurd hv removeVerdict_changes
  | denied what who? =>
    cases hrun
    exact .inl ⟨rfl, nofun⟩
  | granted n =>
    simp only [run_bind] at hrun
    rcases hens : (ensureTrash user?).run s with ⟨x, s₁⟩
    refine .inr ⟨n, x, s₁, (removeVerdict_granted hv).1, rfl, ?_⟩
    rw [hens] at hrun
    rcases x with e | _ | trash
    · cases hrun
      exact .inl ⟨rfl, nofun⟩
    · cases hrun
      exact .inl ⟨rfl, nofun⟩
    simp only at hrun
    have hrun := Act.got hrun
    split at hrun
    · cases hrun
      exact .inl ⟨rfl, nofun⟩
    rename_i hno
    simp only [Bool.or_eq_true, beq_iff_eq, not_or, Bool.not_eq_true] at hno
    rcases Act.asked hrun with ⟨e, -, rfl, rfl⟩ | ⟨name, hname, hrun⟩
    · exact .inl ⟨rfl, nofun⟩
    · exact .inr ⟨trash, name, rfl, hno.1, hno.2, hname, hrun⟩

theorem trail_moveToTrash (h : Linked s.tree) {path : String} {r : Except Fault Bool}
    (hrun : (moveToTrash path user?).run s = (r, s')) : Relinks keepers user? (firstName? user? user?) s s' := by
  rcases moveToTrash_cases hrun with ⟨hlog, -⟩ | ⟨n, x, s₁, hfound, hens, hend⟩
  · exact .of_aside (aside_of_log hlog)
  have hn := (nodeAt_found h hfound).1
  obtain ⟨hr₁, htrash⟩ : Relinks keepers user? (firstName? user? user?) s s₁ ∧ _ := trail_ensureTrash h hens
  rcases hend with ⟨rfl, -⟩ | ⟨trash, name, rfl, hanc, -, -, hmove⟩
  · exact hr₁
  have h₁ := (hr₁.sequel h).linked
  obtain ⟨ht, hi, hn₁⟩ := (htrash trash rfl).of_apart h₁ hn hanc
  exact hr₁.trans (trail_relocate h₁ hn₁ ht hi hmove)

/-! ## Emptying the trash -/

/-- The children of a directory may be removed one after the other. -/
theorem relinks_removeAll : ∀ {items : List Node} {s : Machine} {dir : Node} {now : Time.Stamp} {r : Except Fault PUnit},
    Linked s.tree → s.tree.get? dir.id = some dir → s.Allows dir .write user? → s.now = now →
      (∀ i ∈ items, s.tree.get? i.id = some i ∧ s.tree.skeleton.Above dir.id i.id) → (idsOf items).Nodup →
        (forIn items PUnit.unit fun i _ => discard (Act.edit (Tree.remove i now)) >>= fun _ =>
          pure (.yield PUnit.unit)).run s = (r, s') → Relinks keepers user? leaver? s s'
  | [], s, dir, now, r, _, _, _, _, _, _, hrun => by
    cases hrun
    exact .refl
  | i :: items, s, dir, now, r, h, hd, hmay, hnow, hin, hnd, hrun => by
    obtain ⟨hi, hab⟩ := hin i (List.mem_cons_self ..)
    obtain ⟨hout, hnd⟩ := List.nodup_cons.1 hnd
    have hp : s.tree.parentOf? i = some dir := (h.parentOf_iff hi).2 ⟨hd, hab⟩
    rw [run_for_cons, run_discard, run_edit] at hrun
    rcases hrem : (Tree.remove i now).run s.tree with ⟨x, t⟩
    rw [hrem] at hrun
    subst hnow
    rcases h.run_remove hi hp hrem with ⟨e, -, rfl, rfl⟩ | ⟨nodes, -, rfl, hremoved⟩
    · cases hrun
      exact .refl
    · have hstep : Relink keepers s user? leaver? t := .remove hi hp hmay hrem
      have hl := (hstep.sequel h).linked
      have hapart : ¬ s.tree.skeleton.Under i.id dir.id := h.forest.not_above_under hab
      have hbare := hremoved.bare _ hapart
      rw [bare_some.2 ⟨dir, hd, rfl⟩, bare_some] at hbare
      obtain ⟨dir', hd', hsame⟩ := hbare
      have hid : dir'.id = dir.id := hl.id_eq hd'
      have hmay' : Allows { s with tree := t } dir' .write user? :=
        (can_congr (s := s) ⟨rfl, rfl, rfl⟩ hsame).trans hmay
      refine (Relinks.refl.relink hstep).trans (relinks_removeAll hl (hl.get_self hd') hmay' rfl ?_ hnd hrun)
      · intro j hj
        obtain ⟨hj', hjab⟩ := hin j (List.mem_cons_of_mem _ hj)
        have hne : i.id ≠ j.id := fun he => hout (he ▸ List.mem_map_of_mem hj)
        have hju : ¬ s.tree.skeleton.Under i.id j.id := by
          intro hu
          exact h.apart hab hjab hne hu .refl
        have hjd : j.id ≠ dir.id := by
          intro he
          exact h.forest.not_above_under hjab (he ▸ .refl)
        exact ⟨(hremoved.get _ hju hjd).trans hj', hid ▸ (hremoved.above h hab).2 ⟨hju, hjab⟩⟩

theorem trail_emptyTrash (h : Linked s.tree) {r : Except Fault Nat} (hrun : (emptyTrash user?).run s = (r, s')) :
    Relinks keepers user? leaver? s s' := by
  unfold emptyTrash at hrun
  rcases Act.asked (Act.got hrun) with ⟨e, -, -, rfl⟩ | ⟨trash?, htrash, hrun⟩
  · exact .refl
  cases trash? with
  | none =>
    cases hrun
    exact .refl
  | some trash =>
    obtain ⟨path, -, hlook⟩ := bind_ok.1 htrash
    obtain ⟨ht, -⟩ := h.lookup_found hlook
    simp only at hrun
    split at hrun
    · cases hrun
      exact .refl
    rcases Act.asked hrun with ⟨e, -, -, rfl⟩ | ⟨may, hmay, hrun⟩
    · exact .refl
    cases may with
    | false =>
      rcases Act.asked hrun with ⟨e, -, -, rfl⟩ | ⟨place, -, hrun⟩
      · exact .refl
      · cases hrun
        exact .of_aside aside_logged
    | true =>
      rcases Act.asked hrun with ⟨e, -, -, rfl⟩ | ⟨items, hitems, hrun⟩
      · exact .refl
      obtain ⟨cs, hcs, hids, hget⟩ := h.childrenOf_ok ht
      rw [hcs] at hitems
      cases hitems
      rw [run_bind] at hrun
      rcases hloop : (forIn items PUnit.unit fun i _ => discard (Act.edit (Tree.remove i s.now)) >>= fun _ =>
        pure (.yield PUnit.unit)).run s with ⟨x, s₁⟩
      rw [hloop] at hrun
      have hr₁ : Relinks keepers user? leaver? s s₁ := by
        refine relinks_removeAll h ht hmay rfl (fun i hi => ⟨hget i hi, ?_⟩) ?_ hloop
        · exact (h.above_iff ht).2 (hids ▸ List.mem_map_of_mem hi)
        · rw [idsOf, hids]
          exact h.forest.once (skeleton_some.2 ⟨trash, ht, rfl⟩)
      cases x with
      | error e =>
        cases hrun
        exact hr₁
      | ok u =>
        simp only at hrun
        split at hrun
        · rw [run_bind] at hrun
          rcases hlog : (Act.changed _ user?).run s₁ with ⟨y, s₂⟩
          have ha := Act.aside_changed hlog
          rw [hlog] at hrun
          cases y <;> cases hrun <;> exact hr₁.aside ha
        · cases hrun
          exact hr₁

/-! ## Pasting -/

theorem trail_pasteItem (h : Linked s.tree) {kind : PasteKind} {path : String} {i : ClipboardItem} {r : Except Fault Bool}
    (hrun : (pasteItem kind path user? i).run s = (r, s')) :
    Relinks (fun a => kind = .copy ∧ a = i.node) user? (firstName? (some i.user) user?) s s' := by
  unfold pasteItem at hrun
  split at hrun
  · cases hrun
    exact .refl
  · cases kind with
    | cut => exact trail_moveById h hrun
    | copy =>
      have hr := trail_copyById h hrun
      simpa using hr

end SimUnix.Machine
