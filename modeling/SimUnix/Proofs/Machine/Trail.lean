/-
What each file operation does to the system, step by step. An operation on behalf of a user makes
some relinks one after the other, or one revision, and what happens beside them is logging and
writing records. From this and from what a relink and a revision keep, everything follows that holds
for the operations.
-/
import SimUnix.Proofs.Machine.Aside
import SimUnix.Proofs.Machine.Verdict
import SimUnix.Proofs.Tree.Place

namespace SimUnix.Machine

open Tree Skeleton

variable {keepers : NodeId → Prop} {s s₁ s₂ s' : Machine} {user? leaver? : Option Json}

/-! ## Trails -/

/-- Some relinks one after the other, and what happens beside them. -/
inductive Relinks (keepers : NodeId → Prop) (user? leaver? : Option Json) (s : Machine) : Machine → Prop
  | refl : Relinks keepers user? leaver? s s
  | aside {s₁ s₂ : Machine} : Relinks keepers user? leaver? s s₁ → s₁.Aside s₂ → Relinks keepers user? leaver? s s₂
  | relink {s₁ : Machine} {t : Tree} : Relinks keepers user? leaver? s s₁ → Relink keepers s₁ user? leaver? t →
      Relinks keepers user? leaver? s { s₁ with tree := t }

/-- One revision, and what happens beside it. -/
def Revises (user? : Option Json) (s s' : Machine) : Prop :=
  ∃ t, Revision s user? t ∧ Aside { s with tree := t } s'

/-- What an operation on files may do. -/
def Trail (keepers : NodeId → Prop) (user? leaver? : Option Json) (s s' : Machine) : Prop :=
  Relinks keepers user? leaver? s s' ∨ Revises user? s s'

theorem Relinks.of_aside (h : s.Aside s') : Relinks keepers user? leaver? s s' := .aside .refl h

theorem Relinks.single {t : Tree} (h : Relink keepers s user? leaver? t) (ha : Aside { s with tree := t } s') :
    Relinks keepers user? leaver? s s' := .aside (.relink .refl h) ha

theorem Relinks.trans (h₁ : Relinks keepers user? leaver? s s₁) (h₂ : Relinks keepers user? leaver? s₁ s₂) :
    Relinks keepers user? leaver? s s₂ := by
  induction h₂ with
  | refl => exact h₁
  | aside _ ha ih => exact ih.aside ha
  | relink _ hr ih => exact ih.relink hr

theorem Relinks.sequel (h : Linked s.tree) (hr : Relinks keepers user? leaver? s s') : Sequel s.tree s'.tree := by
  induction hr with
  | refl => exact .refl h
  | aside _ ha ih =>
    rw [ha.tree]
    exact ih
  | relink _ hrel ih => exact ih.trans (hrel.sequel ih.linked)

theorem Trail.sequel (h : Linked s.tree) (hr : Trail keepers user? leaver? s s') : Sequel s.tree s'.tree := by
  rcases hr with hr | ⟨t, hrev, ha⟩
  · exact hr.sequel h
  · rw [ha.tree]
    exact hrev.sequel h

/-! ## Operations that are checked first -/

/-- An operation that is checked first changes nothing but the log, or makes its change. -/
theorem run_decide {α : Type} {check : Machine → Except Fault (Verdict α)} {change : α → Act String}
    {r : Except Fault Bool} (hrun : (Act.decide check user? change).run s = (r, s')) :
    s.Aside s' ∨ ∃ plan x s₁, check s = .ok (.granted plan) ∧ (change plan).run s = (x, s₁) ∧ s₁.Aside s' := by
  unfold Act.decide at hrun
  simp only [run_bind, Act.run_ask] at hrun
  rcases hcheck : check s with e | v
  · rw [hcheck] at hrun
    cases hrun
    exact .inl (.refl _)
  · rw [hcheck] at hrun
    cases v with
    | refused =>
      cases hrun
      exact .inl (.refl _)
    | denied what who? =>
      simp only [run_bind, Act.run_denied, run_pure] at hrun
      cases hrun
      exact .inl aside_logged
    | unchanged =>
      cases hrun
      exact .inl (.refl _)
    | granted plan =>
      simp only [run_bind, run_pure] at hrun
      rcases hchange : (change plan).run s with ⟨x, s₁⟩
      rw [hchange] at hrun
      refine .inr ⟨plan, x, s₁, rfl, hchange, ?_⟩
      cases x with
      | error e =>
        cases hrun
        exact .refl _
      | ok message =>
        simp only at hrun
        rcases hlog : (Act.changed message user?).run s₁ with ⟨y, s₂⟩
        have ha := Act.aside_changed hlog
        rw [hlog] at hrun
        cases y <;> cases hrun <;> exact ha

/-- Without a grant nothing but the log is different, and the answer is yes only where nothing is to be done. -/
theorem decide_idle {α : Type} {check : Machine → Except Fault (Verdict α)} {change : α → Act String} {r : Except Fault Bool}
    (hno : ∀ plan, check s ≠ .ok (.granted plan)) (hrun : (Act.decide check user? change).run s = (r, s')) :
    s.Aside s' ∧ (r = .ok true → check s = .ok .unchanged) := by
  unfold Act.decide at hrun
  rcases Act.askedOf hrun with ⟨e, -, rfl, rfl⟩ | ⟨v, hv, hrun⟩
  · exact ⟨.refl _, by rintro ⟨⟩⟩
  cases v with
  | refused =>
    cases hrun
    exact ⟨.refl _, by rintro ⟨⟩⟩
  | denied what who? =>
    cases hrun
    exact ⟨aside_logged, by rintro ⟨⟩⟩
  | unchanged =>
    cases hrun
    exact ⟨.refl _, fun _ => hv⟩
  | granted plan => exact absurd hv (hno plan)

/-- The answer is yes where nothing is to be done, and once the change has been made, logged and written down. -/
theorem decide_accepted {α : Type} {check : Machine → Except Fault (Verdict α)} {change : α → Act String}
    (hrun : (Act.decide check user? change).run s = (.ok true, s')) : check s = .ok .unchanged ∧ s' = s ∨
      ∃ plan message s₁, check s = .ok (.granted plan) ∧ (change plan).run s = (.ok message, s₁) ∧
        (Act.changed message user?).run s₁ = (.ok ⟨⟩, s') := by
  unfold Act.decide at hrun
  rcases Act.askedOf hrun with ⟨e, -, he, -⟩ | ⟨v, hv, hrun⟩
  · cases he
  cases v with
  | refused => cases hrun
  | denied what who? => cases hrun
  | unchanged =>
    cases hrun
    exact .inl ⟨hv, rfl⟩
  | granted plan =>
    rcases of_run_bind hrun with ⟨e, -, he⟩ | ⟨message, s₁, hplan, hrun⟩
    · cases he
    rcases of_run_bind hrun with ⟨e, -, he⟩ | ⟨_, s₂, hchanged, hrun⟩
    · cases he
    · cases hrun
      exact .inr ⟨plan, message, s₁, hv, hplan, hchanged⟩

/-- The path of the node with an id, for a message. -/
def placeOf (s : Machine) (id : NodeId) : Except Fault String :=
  match s.tree.get? id with
  | some n => s.tree.pathOf n
  | none => .ok Path.root

theorem run_pathOfId {id : NodeId} : (pathOfId id).run s = (s.placeOf id, s) := by
  unfold pathOfId placeOf
  simp only [run_bind, run_get]
  rcases s.tree.get? id with _ | n
  · rfl
  · exact Act.run_ofExcept

/-! ## The operations -/

theorem run_addNew {new : NewNode} {parent : NodeId} : (addNew new parent).run s =
    (.ok s.tree.ids.id, { s with tree := s.tree.takeId.2.add (new.build s) parent s.now }) := by
  unfold addNew Act.editTree
  simp only [run_bind, run_get, run_modify, run_pure]
  rfl

/-- In a tree in order every place can be told. -/
theorem placeOf_ok {id : NodeId} (h : s.tree.Linked) : ∃ place, s.placeOf id = .ok place := by
  unfold placeOf
  rcases hn : s.tree.get? id with _ | n
  · exact ⟨_, rfl⟩
  · exact h.pathOf_ok (h.get_self hn)

theorem run_editTree {change : Tree → Tree} :
    (Act.editTree change).run s = (.ok ⟨⟩, { s with tree := change s.tree }) := rfl

theorem run_edit {α : Type} {change : Edit α} :
    (Act.edit change).run s = ((change.run s.tree).1, { s with tree := (change.run s.tree).2 }) := by
  unfold Act.edit
  simp only [run_bind, run_get]
  rcases change.run s.tree with ⟨x, t⟩
  simp only [run_bind, run_set, Act.run_ofExcept]

theorem trail_createNode (h : Linked s.tree) {path name : String} {kind : NodeKind} {content : String}
    {permissions? : Option Json} {r : Except Fault Bool}
    (hrun : (createNode path name kind content user? permissions?).run s = (r, s')) :
    Trail keepers user? leaver? s s' := by
  rcases run_decide hrun with ha | ⟨dir, x, s₁, hv, hchange, ha⟩
  · exact .inl (.of_aside ha)
  · obtain ⟨hfound, hdir, hvalid, hfree, hmay⟩ := createVerdict_granted hv
    simp only [run_bind, run_get, run_addNew, run_pathOfId] at hchange
    generalize placeOf _ _ = place at hchange
    cases place <;> cases hchange <;> refine .inl (.single ?_ ha) <;>
      exact .create (nodeAt_found h hfound).1 hdir rfl hvalid rfl hfree hmay

theorem trail_overwriteFile (h : Linked s.tree) {path content : String} {r : Except Fault Bool}
    (hrun : (overwriteFile path content user?).run s = (r, s')) : Trail keepers user? leaver? s s' := by
  unfold overwriteFile at hrun
  rcases Act.asked (Act.got hrun) with ⟨e, -, -, rfl⟩ | ⟨resolved, -, hrun⟩
  · exact .inl .refl
  rcases Act.asked hrun with ⟨e, -, -, rfl⟩ | ⟨n?, hlook, hrun⟩
  · exact .inl .refl
  cases n? with
  | none => exact trail_createNode h hrun
  | some n =>
    rcases run_decide hrun with ha | ⟨id, x, s₁, hv, hchange, ha⟩
    · exact .inl (.of_aside ha)
    · obtain ⟨rfl, hfile, hmay⟩ := writeVerdict_granted hv
      cases hchange
      exact .inr ⟨_, .write (h.lookup_found hlook).1 hfile hmay, ha⟩

/-- What appending makes of two texts is a text. -/
theorem appended_text {existing content : Json} {joined : Json} (h : appended existing content = .ok joined) :
    ∃ text, joined = .str text := by
  unfold appended at h
  split at h <;> cases h
  exact ⟨_, rfl⟩

theorem trail_appendFile (h : Linked s.tree) {path content : String} {r : Except Fault Bool}
    (hrun : (appendFile path content user?).run s = (r, s')) : Trail keepers user? leaver? s s' := by
  unfold appendFile at hrun
  rcases Act.askedOf hrun with ⟨e, -, -, rfl⟩ | ⟨n?, -, hrun⟩
  · exact .inl .refl
  cases n? with
  | none => exact trail_overwriteFile h hrun
  | some n =>
    simp only at hrun
    split at hrun
    · cases hrun
      exact .inl .refl
    · rcases Act.asked hrun with ⟨e, -, -, rfl⟩ | ⟨joined, happ, hrun⟩
      · exact .inl .refl
      · obtain ⟨text, rfl⟩ := appended_text happ
        exact trail_overwriteFile h hrun

theorem trail_deleteNode (h : Linked s.tree) {path : String} {r : Except Fault Bool}
    (hrun : (deleteNode path user?).run s = (r, s')) : Trail keepers user? leaver? s s' := by
  rcases run_decide hrun with ha | ⟨n, x, s₁, hv, hchange, ha⟩
  · exact .inl (.of_aside ha)
  · obtain ⟨hfound, parent, hp, hmay⟩ := removeVerdict_granted hv
    have hn := (nodeAt_found h hfound).1
    simp only [run_bind, run_get, Act.run_ofExcept, run_edit, run_pure] at hchange
    rcases hplace : s.tree.pathOf n with e | place
    · rw [hplace] at hchange
      cases hchange
      exact .inl (.of_aside ha)
    · rw [hplace] at hchange
      simp only at hchange
      rcases hrem : (Tree.remove n s.now).run s.tree with ⟨y, t⟩
      rw [hrem] at hchange
      cases y with
      | error e =>
        cases hchange
        rcases h.run_remove hn hp hrem with ⟨-, -, -, rfl⟩ | ⟨nodes, -, hok, -⟩
        · exact .inl (.of_aside ha)
        · cases hok
      | ok count =>
        cases hchange
        exact .inl (.single (.remove hn hp hmay hrem) ha)

theorem trail_chmod (h : Linked s.tree) {path mode : String} {r : Except Fault Bool}
    (hrun : (chmod path mode user?).run s = (r, s')) : Trail keepers user? leaver? s s' := by
  rcases run_decide hrun with ha | ⟨⟨n, permissions⟩, x, s₁, hv, hchange, ha⟩
  · exact .inl (.of_aside ha)
  · obtain ⟨hfound, hcalm, hmay⟩ := chmodVerdict_granted hv
    simp only [run_bind, run_get, run_editTree, run_pathOfId] at hchange
    generalize placeOf _ _ = place at hchange
    cases place <;> cases hchange <;> exact .inr ⟨_, .chmod (nodeAt_found h hfound).1 hcalm hmay, ha⟩

theorem trail_chown (h : Linked s.tree) {path owner : String} {group? : Option String} {r : Except Fault Bool}
    (hrun : (chown path owner group? user?).run s = (r, s')) : Trail keepers user? leaver? s s' := by
  rcases run_decide hrun with ha | ⟨n, x, s₁, hv, hchange, ha⟩
  · exact .inl (.of_aside ha)
  · obtain ⟨hfound, hcalm, hmay⟩ := chownVerdict_granted hv
    simp only [run_bind, run_get, run_editTree, run_pathOfId] at hchange
    generalize placeOf _ _ = place at hchange
    cases place <;> cases hchange <;> exact .inr ⟨_, .chown (nodeAt_found h hfound).1 hcalm hmay, ha⟩

/-! ## Moving and copying -/

variable {source? : Option Json} {n dir : Node}

/-- A directory in directories does not lie below a node that may be moved into it. -/
theorem apart_of_inDirectories (h : Linked s.tree) (hn : s.tree.get? n.id = some n) (hd : s.tree.get? dir.id = some dir)
    (hr : s.tree.skeleton.InDirectories dir.id) (hdir : dir.isDir = true)
    (hanc : n.isDir = true → s.tree.isAncestor n dir = false) : ¬ s.tree.skeleton.Under n.id dir.id := by
  intro hu
  have hisDir : n.isDir = true := by
    by_cases he : n.id = dir.id
    · rw [he, hd] at hn
      cases hn
      exact hdir
    · obtain ⟨x, hx, hkind⟩ := hr _ hu he
      obtain ⟨d, hd', rfl⟩ := skeleton_some.1 hx
      rw [hn] at hd'
      cases hd'
      exact isDir_iff.2 hkind
  have hyes : s.tree.isAncestor n dir = true := (h.isAncestor_iff hd).2 hu
  rw [hanc hisDir] at hyes
  cases hyes

theorem trail_relocate (h : Linked s.tree) (hn : s.tree.get? n.id = some n) (hd : s.tree.get? dir.id = some dir)
    (hr : s.tree.skeleton.InDirectories dir.id) {name : String} {r : Except Fault Bool}
    (hrun : (relocate n dir name user? source?).run s = (r, s')) :
    Relinks keepers user? (firstName? source? user?) s s' := by
  rcases run_decide hrun with ha | ⟨d, x, s₁, hv, hchange, ha⟩
  · exact .of_aside ha
  · obtain ⟨rfl, hdir, hvalid, hanc, hfree, hmay, parent, hp, hleave⟩ := relocateVerdict_granted hv
    simp only [run_bind, run_get, Act.run_ofExcept, run_editTree, run_pathOfId] at hchange
    rcases hplace : s.tree.pathOf n with e | place
    · rw [hplace] at hchange
      cases hchange
      exact .of_aside ha
    · rw [hplace] at hchange
      simp only at hchange
      obtain ⟨t, ht⟩ : ∃ t, s.tree.detach n s.now = .ok t := h.detach_ok hn hp
      rw [ht] at hchange
      simp only at hchange
      generalize placeOf _ _ = target at hchange
      have hmove : Relink keepers s user? (firstName? source? user?) (t.relinked n.id name d.id s.now) :=
        .move hn hp hd hdir (validName_str hvalid) (apart_of_inDirectories h hn hd hr hdir hanc) hfree hleave hmay ht
      cases target <;> cases hchange <;> exact .single hmove ha

theorem text_name (h : Linked s.tree) (hn : s.tree.get? n.id = some n) : ∃ own : String, n.name = own :=
  (h.written (bare_some.2 ⟨n, hn, rfl⟩)).name

theorem trail_moveNode (h : Linked s.tree) {path target : String} {r : Except Fault Bool}
    (hrun : (moveNode path target user?).run s = (r, s')) : Relinks keepers user? (firstName? user? user?) s s' := by
  unfold moveNode at hrun
  rcases Act.asked (Act.got hrun) with ⟨e, -, -, rfl⟩ | ⟨n?, hat, hrun⟩
  · exact .refl
  cases n? with
  | none =>
    cases hrun
    exact .refl
  | some n =>
    have hn := (nodeAt_found h hat).1
    obtain ⟨own, hown⟩ := text_name h hn
    rcases Act.asked hrun with ⟨e, -, -, rfl⟩ | ⟨root, -, hrun⟩
    · exact .refl
    split at hrun
    · cases hrun
      exact .refl
    rcases Act.asked hrun with ⟨e, -, -, rfl⟩ | ⟨place?, hto, hrun⟩
    · exact .refl
    split at hrun
    · rename_i dir hfilter
      obtain ⟨rfl, -⟩ := Option.filter_eq_some_iff.1 hfilter
      obtain ⟨hd, hi⟩ := nodeAt_found h hto
      exact trail_relocate h hn hd hi (hown ▸ hrun)
    · rcases Act.asked hrun with ⟨e, -, -, rfl⟩ | ⟨resolved, -, hrun⟩
      · exact .refl
      rcases Act.asked hrun with ⟨e, -, -, rfl⟩ | ⟨dir?, hlook, hrun⟩
      · exact .refl
      cases dir? with
      | none =>
        cases hrun
        exact .refl
      | some dir =>
        obtain ⟨hd, hi⟩ := h.lookup_found hlook
        exact trail_relocate h hn hd hi hrun

theorem trail_moveById (h : Linked s.tree) {id : NodeId} {path : String} {r : Except Fault Bool}
    (hrun : (moveById id path user? source?).run s = (r, s')) :
    Relinks keepers user? (firstName? source? user?) s s' := by
  unfold moveById at hrun
  rcases Act.asked (Act.got hrun) with ⟨e, -, -, rfl⟩ | ⟨dir?, hat, hrun⟩
  · exact .refl
  split at hrun
  · rename_i n dir hget
    have hn := h.get_self hget
    obtain ⟨hd, hi⟩ := nodeAt_found h hat
    obtain ⟨own, hown⟩ := text_name h hn
    rcases Act.asked hrun with ⟨e, -, -, rfl⟩ | ⟨root, -, hrun⟩
    · exact .refl
    split at hrun
    · cases hrun
      exact .refl
    · exact trail_relocate h hn hd hi (hown ▸ hrun)
  · cases hrun
    exact .refl

/-- Copying changes nothing but the log, or makes one copy, finished or not. -/
theorem relink_copyById (h : Linked s.tree) {id : NodeId} {path : String} {name? : Option String}
    {r : Except Fault Bool} (hrun : (copyById id path user? source? name?).run s = (r, s')) :
    s.Aside s' ∨ ∃ t, Relink (fun a => name? = none ∧ a = id) s user? (firstName? source? user?) t ∧
      Aside { s with tree := t } s' := by
  rcases run_decide hrun with ha | ⟨⟨n, dir, copy⟩, x, s₁, hv, hchange, ha⟩
  · exact .inl ha
  · obtain ⟨hid, hfound, hdir, hread, hmay, name, rfl, hnamed, hfree⟩ := copyVerdict_granted h hv
    have hn := h.get_self hid
    obtain ⟨hd, -⟩ := nodeAt_found h hfound
    simp only [run_bind, run_get, run_edit, run_editTree, run_pathOfId] at hchange
    rcases hclone : (clone n { owner? := some (s.actor user?), group? := some (s.primaryGroup (s.actor user?)) } s.now).run
      s.tree with ⟨y, t⟩
    rw [hclone] at hchange
    cases y with
    | error e =>
      cases hchange
      exact .inr ⟨_, .strand hn hmay hclone, ha⟩
    | ok copy =>
      simp only at hchange
      have hcopy : Relink (fun a => name? = none ∧ a = id) s user? (firstName? source? user?) (t.hung copy name dir.id s.now) :=
        .copy hn hd hdir (hnamed.imp_right fun ⟨hnone, hown⟩ => ⟨⟨hnone, h.id_eq hid⟩, hown⟩) hfree hread hmay hclone
      generalize placeOf _ _ = origin at hchange
      cases origin with
      | error e =>
        cases hchange
        exact .inr ⟨_, hcopy, ha⟩
      | ok origin =>
        simp only at hchange
        generalize placeOf _ _ = target at hchange
        cases target <;> cases hchange <;> exact .inr ⟨_, hcopy, ha⟩

theorem trail_copyById (h : Linked s.tree) {id : NodeId} {path : String} {name? : Option String}
    {r : Except Fault Bool} (hrun : (copyById id path user? source? name?).run s = (r, s')) :
    Relinks (fun a => name? = none ∧ a = id) user? (firstName? source? user?) s s' := by
  rcases relink_copyById h hrun with ha | ⟨t, hr, ha⟩
  · exact .of_aside ha
  · exact .single hr ha

/-! ## What is copied -/

/-- Whoever acts has a name. -/
theorem actor_truthy : (s.actor user?).truthy = true := by
  unfold actor firstName?
  rcases hfirst : (user?.filter Json.truthy).or ((some s.currentUser).filter Json.truthy) with _ | name
  · rfl
  · rcases Option.or_eq_some_iff.1 hfirst with h | ⟨-, h⟩
    · exact (Option.filter_eq_some_iff.1 h).2
    · exact (Option.filter_eq_some_iff.1 h).2

variable {id : NodeId} {path : String} {name? : Option String}

theorem copyVerdict_changes : copyVerdict id path user? source? name? s ≠ .ok .unchanged := by
  intro hv
  obtain ⟨dest?, -, hv⟩ := bind_ok.1 hv
  split at hv
  · dsimp only at hv
    split at hv
    · cases hv
    obtain ⟨mayRead, -, hv⟩ := bind_ok.1 hv
    split at hv
    · obtain ⟨_, -, hv⟩ := bind_ok.1 hv
      cases hv
    obtain ⟨mayWrite, -, hv⟩ := bind_ok.1 hv
    split at hv
    · obtain ⟨_, -, hv⟩ := bind_ok.1 hv
      cases hv
    obtain ⟨copy?, -, hv⟩ := bind_ok.1 hv
    split at hv <;> cases hv
  · cases hv

/-- The tree after a copy that has been made. -/
theorem copyById_accepted (hrun : (copyById id path user? source? name?).run s = (.ok true, s')) :
    ∃ n dir name copy t, copyVerdict id path user? source? name? s = .ok (.granted (n, dir, name)) ∧
      (clone n { owner? := some (s.actor user?), group? := some (s.primaryGroup (s.actor user?)) } s.now).run s.tree = (.ok copy, t) ∧
        s'.tree = t.hung copy name dir.id s.now := by
  rcases decide_accepted hrun with ⟨hno, -⟩ | ⟨⟨n, dir, name⟩, message, s₁, hv, hchange, hend⟩
  · exact absurd hno copyVerdict_changes
  have hchange := Act.got hchange
  simp only [run_bind, run_edit] at hchange
  rcases hclone : (clone n { owner? := some (s.actor user?), group? := some (s.primaryGroup (s.actor user?)) } s.now).run
    s.tree with ⟨x, t⟩
  rw [hclone] at hchange
  rcases x with e | copy
  · cases hchange
  refine ⟨n, dir, name, copy, t, hv, hclone, ?_⟩
  simp only [run_editTree, run_pathOfId] at hchange
  rw [(Act.aside_changed hend).tree]
  generalize placeOf _ _ = origin at hchange
  rcases origin with e | origin
  · cases hchange
  simp only at hchange
  generalize placeOf _ _ = target at hchange
  rcases target with e | target
  · cases hchange
  · cases hchange
    rfl

end SimUnix.Machine
