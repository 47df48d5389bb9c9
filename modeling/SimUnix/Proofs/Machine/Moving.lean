/-
Moves that succeed. A path is taken apart into the names that lead to a node; what is moved and where to is told by
them, and so is the way back: whoever has moved a node may move it to where it was.
-/
import SimUnix.Proofs.Machine.Records
import SimUnix.Proofs.Machine.Trail
import SimUnix.Proofs.Tree.Undo

namespace SimUnix

namespace Machine

open Tree Act

variable {s s' : Machine} {n d dir : Node} {user? : Option Json} {path : String} {name own : String} {names place way : List String}

/-! ## Paths -/

theorem resolve_normal {cwd? : Option String} {resolved : String} (hres : s.resolve path user? cwd? = .ok resolved) :
    ∃ names, Path.Valid names ∧ resolved = Path.ofComponents names := by
  have hnormal : ∀ p, .ok (Path.normalize p) = (.ok resolved : Except Fault String) →
      ∃ names, Path.Valid names ∧ resolved = Path.ofComponents names := fun p hp => by
    obtain ⟨names, hvalid, hnames⟩ := Path.normalize_valid p
    exact ⟨names, hvalid, (Except.ok.inj hp).symm.trans hnames⟩
  unfold resolve at hres
  split at hres
  · obtain ⟨home, -, hres⟩ := bind_ok.1 hres
    obtain ⟨text, -, hres⟩ := bind_ok.1 hres
    exact hnormal _ hres
  · split at hres <;> exact hnormal _ hres

/-- A canonical path is resolved to itself, for whomever. -/
theorem resolve_ofComponents {cwd? : Option String} (hvalid : Path.Valid names) :
    s.resolve (Path.ofComponents names) user? cwd? = .ok (Path.ofComponents names) := by
  have hslash : (Path.ofComponents names).toList = '/' :: _ := Path.toList_ofComponents
  have htilde : ¬ (Path.ofComponents names = "~" ∨ Text.startsWith (Path.ofComponents names) "~/") := by
    rintro (he | hs)
    · rw [he] at hslash
      cases hslash
    · unfold Text.startsWith at hs
      rw [hslash] at hs
      cases hs
  unfold resolve
  rw [if_neg htilde, if_pos Path.startsWith_ofComponents, Path.normalize_ofComponents hvalid]

theorem nodeAt_ofComponents (hvalid : Path.Valid names) :
    s.nodeAt (Path.ofComponents names) user? = s.tree.lookup (Path.ofComponents names) := by
  unfold nodeAt
  rw [resolve_ofComponents hvalid]
  rfl

/-- A path leads through names that may be given. -/
def Resolves (s : Machine) (path : String) (user? : Option Json) (names : List String) : Prop :=
  Path.Valid names ∧ s.resolve path user? none = .ok (Path.ofComponents names)

/-- What is found at a path, the names lead to through which it leads. -/
theorem resolves_of_nodeAt {found? : Option Node} (hat : s.nodeAt path user? = .ok found?) :
    ∃ names, s.Resolves path user? names ∧ s.tree.lookup (Path.ofComponents names) = .ok found? := by
  unfold nodeAt at hat
  obtain ⟨resolved, hres, hl⟩ := bind_ok.1 hat
  obtain ⟨names, hvalid, rfl⟩ := resolve_normal hres
  exact ⟨names, ⟨hvalid, hres⟩, hl⟩

theorem sits_of_nodeAt (hat : s.nodeAt path user? = .ok (some n)) : ∃ names, s.tree.Sits names n := by
  obtain ⟨names, hnames, hl⟩ := resolves_of_nodeAt hat
  exact ⟨names, hnames.1, hl⟩

/-! ## Which node moves where -/

theorem parentOrRoot_ofComponents : parentOrRoot (Path.ofComponents names) = Path.ofComponents names :=
  if_neg Path.ofComponents_ne_empty

/-- Only the root has no names. -/
theorem sits_below (hsits : s.tree.Sits names n) {root : Node} (hroot : s.tree.root = .ok root) (hne : n.id ≠ root.id) :
    ∃ place own, names = place ++ [own] := by
  rcases List.eq_nil_or_concat names with rfl | ⟨place, own, rfl⟩
  · cases hroot.symm.trans (sits_nil.1 hsits)
    exact absurd rfl hne
  · exact ⟨place, own, by simp⟩

theorem relocateVerdict_unchanged {source? : Option Json} (hv : relocateVerdict n dir (.str name) user? source? s = .ok .unchanged) :
    dir.isDir = true ∧ Path.validName name = true ∧ ∃ c, s.tree.childNamed dir name = .ok (some c) ∧ c.id = n.id := by
  unfold relocateVerdict at hv
  split at hv
  · cases hv
  split at hv
  · cases hv
  rename_i hdir
  obtain ⟨valid, hvalid, hv⟩ := bind_ok.1 hv
  split at hv
  · cases hv
  rename_i hyes
  split at hv
  · cases hv
  obtain ⟨existing?, hc, hv⟩ := bind_ok.1 hv
  have hyes : valid = true := by simpa using hyes
  subst hyes
  split at hv
  · rename_i c
    by_cases hcn : c.id = n.id
    · exact ⟨by simpa using hdir, validName_str hvalid, c, hc, hcn⟩
    · rw [if_neg hcn] at hv
      cases hv
  · obtain ⟨may, -, hv⟩ := bind_ok.1 hv
    split at hv
    · obtain ⟨_, -, hv⟩ := bind_ok.1 hv
      cases hv
    obtain ⟨may, -, hv⟩ := bind_ok.1 hv
    split at hv
    · obtain ⟨_, -, hv⟩ := bind_ok.1 hv
      cases hv
    · cases hv

/-- A node is moved only under a name that may be given. -/
theorem relocate_named {source? : Option Json} (hrun : (relocate n dir (.str name) user? source?).run s = (.ok true, s')) :
    Path.validName name = true := by
  rcases decide_accepted hrun with ⟨hv, -⟩ | ⟨d, message, s₁, hv, -, -⟩
  · exact (relocateVerdict_unchanged hv).2.1
  · exact validName_str (relocateVerdict_granted hv).2.2.1

/-- A move that succeeds gives a node that is not the root a place in a directory: in the one at the target, under its own name, if that
is another directory, and otherwise at the target itself. -/
theorem moveNode_goes (h : Linked s.tree) {target : String} (hrun : (moveNode path target user?).run s = (.ok true, s')) :
    ∃ n dir name place own way goal, s.nodeAt path user? = .ok (some n) ∧ s.Resolves path user? (place ++ [own]) ∧
      s.tree.Sits (place ++ [own]) n ∧ s.tree.Sits way dir ∧ s.Resolves target user? goal ∧
      (goal = way ∧ name = own ∧ dir.isDir = true ∧ dir.id ≠ n.id ∨
        goal = way ++ [name] ∧ ∀ x, s.tree.Sits goal x → x.isDir = true → x.id = n.id) ∧
      (relocate n dir (.str name) user? user?).run s = (.ok true, s') := by
  unfold moveNode at hrun
  rcases Act.asked (Act.got hrun) with ⟨e, -, he, -⟩ | ⟨n?, hat, hrun⟩
  · cases he
  rcases n? with _ | n
  · cases hrun
  rcases Act.asked hrun with ⟨e, -, he, -⟩ | ⟨root, hroot, hrun⟩
  · cases he
  split at hrun
  · cases hrun
  rename_i hne
  obtain ⟨names, hpath, hfound⟩ := resolves_of_nodeAt hat
  have hn : s.tree.Sits names n := ⟨hpath.1, hfound⟩
  obtain ⟨place, own, rfl⟩ := sits_below hn hroot (by simpa using hne)
  obtain ⟨-, -, -, -, -, hown⟩ := hn.inside h
  rcases Act.asked hrun with ⟨e, -, he, -⟩ | ⟨place?, hto, hrun⟩
  · cases he
  obtain ⟨goal, hgoal, hthere⟩ := resolves_of_nodeAt hto
  split at hrun
  · rename_i dir hfilter
    obtain ⟨rfl, hother⟩ := Option.filter_eq_some_iff.1 hfilter
    simp only [Bool.and_eq_true, bne_iff_ne] at hother
    exact ⟨n, dir, own, place, own, goal, goal, hat, hpath, hn, ⟨hgoal.1, hthere⟩, hgoal, .inl ⟨rfl, rfl, hother⟩, hown ▸ hrun⟩
  · rename_i hnothing
    have hsame : ∀ x, s.tree.Sits goal x → x.isDir = true → x.id = n.id := by
      intro x hx hdir
      by_contra hother
      cases hthere.symm.trans hx.found
      rw [Option.filter_eq_none_iff] at hnothing
      exact hnothing x rfl (by simp [hdir, hother])
    rcases Act.asked hrun with ⟨e, -, he, -⟩ | ⟨resolved, hres, hrun⟩
    · cases he
    cases hgoal.2.symm.trans hres
    rcases List.eq_nil_or_concat goal with rfl | ⟨front, name, rfl⟩
    · -- the root has no name, and without one nothing is moved
      rcases Act.asked hrun with ⟨e, -, he, -⟩ | ⟨dir?, -, hrun⟩
      · cases he
      rcases dir? with _ | dir
      · cases hrun
      · exact absurd (relocate_named hrun) (by decide)
    · rw [List.concat_eq_append] at hgoal hsame hrun
      rw [Path.split_ofComponents hgoal.1] at hrun
      dsimp only at hrun
      rw [parentOrRoot_ofComponents] at hrun
      rcases Act.asked hrun with ⟨e, -, he, -⟩ | ⟨dir?, hlook, hrun⟩
      · cases he
      rcases dir? with _ | dir
      · cases hrun
      · exact ⟨n, dir, name, place, own, front, _, hat, hpath, hn, ⟨(Path.valid_snoc.1 hgoal.1).1, hlook⟩, hgoal, .inr ⟨rfl, hsame⟩, hrun⟩

theorem moveNode_accepted (h : Linked s.tree) {target : String} (hrun : (moveNode path target user?).run s = (.ok true, s')) :
    ∃ n dir name place own way, s.nodeAt path user? = .ok (some n) ∧ s.tree.Sits (place ++ [own]) n ∧ s.tree.Sits way dir ∧
      (relocate n dir (.str name) user? user?).run s = (.ok true, s') := by
  obtain ⟨n, dir, name, place, own, way, goal, hat, -, hn, hway, -, -, hrun⟩ := moveNode_goes h hrun
  exact ⟨n, dir, name, place, own, way, hat, hn, hway, hrun⟩

/-- A move to a place where nothing else is found is a move into its directory. -/
theorem run_moveNode_to (h : Linked s.tree) (hn : s.tree.Sits (place ++ [own]) n) (hdir : s.tree.Sits way dir)
    (hvalid : Path.validName name = true)
    (hfree : ∀ x, s.tree.lookup (Path.ofComponents (way ++ [name])) = .ok (some x) → x.id = n.id) :
    (moveNode (Path.ofComponents (place ++ [own])) (Path.ofComponents (way ++ [name])) user?).run s =
      (relocate n dir (.str name) user? user?).run s := by
  have hto : Path.Valid (way ++ [name]) := Path.valid_snoc.2 ⟨hdir.valid, hvalid⟩
  obtain ⟨root, hroot, -⟩ := h.root_ok
  have hne : ¬ (n.id == root.id) = true := by
    obtain ⟨d, -, -, -, hab, -⟩ := hn.inside h
    rw [beq_iff_eq, h.id_eq (node_ok.1 hroot)]
    exact fun he => h.loose_root.not_above (he ▸ hab)
  obtain ⟨found?, hfound⟩ := h.lookup_ok (Path.ofComponents (way ++ [name]))
  have hnothing : (found?.filter fun d => d.isDir && d.id != n.id) = none := by
    rcases found? with _ | x
    · rfl
    · rw [Option.filter_eq_none_iff]
      intro y hy
      cases hy
      simp [hfree x hfound]
  unfold moveNode
  refine next (run_get s) (next_given ((nodeAt_ofComponents hn.valid).trans hn.found) (next_given hroot ?_))
  rw [if_neg hne]
  refine next_given ((nodeAt_ofComponents hto).trans hfound) ?_
  rw [hnothing]
  refine next_given (resolve_ofComponents hto) ?_
  rw [Path.split_ofComponents hto]
  exact next_given (by rw [parentOrRoot_ofComponents, hdir.found]) rfl

/-! ## Moves that are granted -/

/-- Only the tree, the log and the records are different. -/
def Retreed (s s' : Machine) : Prop := s' = { s with tree := s'.tree, log := s'.log, store := s'.store }

theorem Retreed.can (h : s.Retreed s') {m : Node} {access : Access} (hm : m.core = n.core) : s'.can m access user? = s.can n access user? :=
  can_core ⟨by rw [h], by rw [h], by rw [h]⟩ hm

theorem can_firstName {access : Access} : s.can n access (firstName? user? user?) = s.can n access user? := by
  have hactor : s.actor (firstName? user? user?) = s.actor user? := by
    unfold actor firstName?
    rw [Option.or_self, Option.filter_filter]
    simp
  unfold Machine.can
  rw [hactor]

/-- A move that has been granted is made at once; what is left is to write it down. -/
theorem relocate_granted {source? : Option Json} (h : Linked s.tree) (hn : s.tree.get? n.id = some n) (hd : s.tree.get? dir.id = some dir)
    (hu : ¬ s.tree.skeleton.Under n.id dir.id) (hv : relocateVerdict n dir (.str name) user? source? s = .ok (.granted dir)) :
    ∃ parent t message, Moves s.tree t n parent dir name s.now ∧ (relocate n dir (.str name) user? source?).run s =
      (changed message user? >>= fun _ => pure true : Act Bool).run { s with tree := t } := by
  obtain ⟨-, -, -, -, hfree, -, parent, hp, -⟩ := relocateVerdict_granted hv
  obtain ⟨t, ht⟩ : ∃ t, s.tree.detach n s.now = .ok t := h.detach_ok hn hp
  have hmove : Moves s.tree (t.relinked n.id name dir.id s.now) n parent dir name s.now := h.moves hn hp hd hu hfree ht
  obtain ⟨origin, horigin⟩ := h.pathOf_ok hn
  let s₁ : Machine := { s with tree := t.relinked n.id name dir.id s.now }
  obtain ⟨target, htarget⟩ : ∃ place, s₁.placeOf n.id = .ok place := placeOf_ok hmove.linked
  have htarget : (pathOfId n.id).run s₁ = (.ok target, s₁) := by rw [run_pathOfId, htarget]
  refine ⟨parent, _, s!"moved {origin} -> {target}", hmove, ?_⟩
  refine next_ask hv (next ?_ rfl)
  exact next (run_get s) (next_given horigin (next_given ht (next run_editTree (next htarget rfl))))

/-- Whatever becomes of it, a move changes nothing or is made. -/
theorem relocate_cases {source? : Option Json} (h : Linked s.tree) (hn : s.tree.get? n.id = some n) (hd : s.tree.get? dir.id = some dir)
    (hi : s.tree.skeleton.InDirectories dir.id) {r : Except Fault Bool}
    (hrun : (relocate n dir (.str name) user? source?).run s = (r, s')) :
    (s.Aside s' ∧ (r = .ok true → relocateVerdict n dir (.str name) user? source? s = .ok .unchanged)) ∨
      ∃ parent, Moves s.tree s'.tree n parent dir name s.now ∧ s.Retreed s' := by
  by_cases hno : ∀ plan, relocateVerdict n dir (.str name) user? source? s ≠ .ok (.granted plan)
  · exact .inl (decide_idle hno hrun)
  push Not at hno
  obtain ⟨dest, hv⟩ := hno
  obtain ⟨rfl, hdir, -, hanc, -⟩ := relocateVerdict_granted hv
  obtain ⟨parent, t, message, hmove, hmade⟩ := relocate_granted h hn hd (apart_of_inDirectories h hn hd hi hdir hanc) hv
  rw [hmade, run_bind] at hrun
  rcases hend : (changed message user?).run { s with tree := t } with ⟨x, s₁⟩
  have haside := aside_changed hend
  rw [hend] at hrun
  obtain rfl : s₁ = s' := by cases x <;> cases hrun <;> rfl
  refine .inr ⟨parent, ?_, ?_⟩
  · rw [haside.tree]
    exact hmove
  · unfold Retreed
    rw [haside.same]

/-- A move that succeeds finds the node at its place, or is granted and made. -/
theorem relocate_accepted (h : Linked s.tree) (hn : s.tree.get? n.id = some n) (hd : s.tree.get? dir.id = some dir)
    (hi : s.tree.skeleton.InDirectories dir.id) (hrun : (relocate n dir (.str name) user? user?).run s = (.ok true, s')) :
    (s' = s ∧ relocateVerdict n dir (.str name) user? user? s = .ok .unchanged) ∨
      ∃ parent, Moves s.tree s'.tree n parent dir name s.now ∧ s.Retreed s' ∧ dir.isDir = true ∧ Path.validName name = true ∧
        s.Allows parent .write user? ∧ s.Allows dir .write user? ∧ ∃ s₁, flush.run s = (.ok ⟨⟩, s₁) := by
  rcases decide_accepted hrun with ⟨hv, rfl⟩ | ⟨dest, message, s₁, hv, hchange, hend⟩
  · exact .inl ⟨rfl, hv⟩
  obtain ⟨rfl, hdir, hvalid, hanc, -, hmay, parent, hp, hleave⟩ := relocateVerdict_granted hv
  obtain ⟨parent', t, message, hmove, hmade⟩ := relocate_granted h hn hd (apart_of_inDirectories h hn hd hi hdir hanc) hv
  obtain rfl : parent' = parent := Option.some.inj (hmove.parent.symm.trans hp)
  rw [hmade] at hrun
  rcases of_run_bind hrun with ⟨e, -, he⟩ | ⟨_, s₂, hend, hrun⟩
  · cases he
  cases hrun
  have haside := aside_changed hend
  refine .inr ⟨parent', ?_, ?_, hdir, validName_str hvalid, can_firstName.symm.trans hleave, hmay, ?_⟩
  · rw [haside.tree]
    exact hmove
  · unfold Retreed
    rw [haside.same]
  · exact flush_tree.1 (changed_iff.1 ⟨_, hend⟩)

/-- A move that nothing speaks against is granted. -/
theorem relocateVerdict_free {source? : Option Json} (h : Linked s.tree) (hp : s.tree.parentOf? n = some d)
    (hd : s.tree.get? dir.id = some dir) (hdir : dir.isDir = true) (hvalid : Path.validName name = true)
    (hu : ¬ s.tree.skeleton.Under n.id dir.id) (hfree : s.tree.childNamed dir name = .ok none)
    (hleave : s.Allows d .write (firstName? source? user?)) (hmay : s.Allows dir .write user?) :
    relocateVerdict n dir (.str name) user? source? s = .ok (.granted dir) := by
  have hanc : s.tree.isAncestor n dir = false := Bool.eq_false_iff.2 fun hyes => hu ((h.isAncestor_iff hd).1 hyes)
  unfold relocateVerdict
  rw [hp]
  dsimp only
  rw [if_neg (by simp [hdir])]
  refine bind_ok.2 ⟨true, congrArg Except.ok hvalid, ?_⟩
  rw [if_neg (by simp), if_neg (by simp [hanc])]
  refine bind_ok.2 ⟨none, hfree, ?_⟩
  exact bind_ok.2 ⟨true, hleave, bind_ok.2 ⟨true, hmay, rfl⟩⟩

/-- And it is made. -/
theorem relocate_made (h : Linked s.tree) (hn : s.tree.get? n.id = some n) (hp : s.tree.parentOf? n = some d)
    (hd : s.tree.get? dir.id = some dir) (hdir : dir.isDir = true) (hvalid : Path.validName name = true)
    (hu : ¬ s.tree.skeleton.Under n.id dir.id) (hfree : s.tree.childNamed dir name = .ok none) (hleave : s.Allows d .write user?)
    (hmay : s.Allows dir .write user?) (hflush : ∃ s₁, flush.run s = (.ok ⟨⟩, s₁)) :
    ∃ s', (relocate n dir (.str name) user? user?).run s = (.ok true, s') ∧ Moves s.tree s'.tree n d dir name s.now := by
  have hv : relocateVerdict n dir (.str name) user? user? s = .ok (.granted dir) :=
    relocateVerdict_free h hp hd hdir hvalid hu hfree (can_firstName.trans hleave) hmay
  obtain ⟨parent, t, message, hmove, hmade⟩ := relocate_granted h hn hd hu hv
  obtain rfl : parent = d := Option.some.inj (hmove.parent.symm.trans hp)
  obtain ⟨s', hend⟩ : ∃ s', (changed message user?).run { s with tree := t } = (.ok ⟨⟩, s') := changed_iff.2 (flush_tree.2 hflush)
  refine ⟨s', hmade.trans (next hend rfl), ?_⟩
  rw [(aside_changed hend).tree]
  exact hmove

/-! ## The way back -/

/-- A move to where the node is already changes nothing, and so does the way back. -/
theorem moveNode_unchanged (h : Linked s.tree) (hn : s.tree.Sits (place ++ [own]) n) (hdir : s.tree.Sits way dir)
    (hv : relocateVerdict n dir (.str name) user? user? s = .ok .unchanged) :
    s.tree.pathOf n = .ok (Path.ofComponents (way ++ [name])) ∧
      (moveNode (Path.ofComponents (way ++ [name])) (Path.ofComponents (way ++ [name])) user?).run s = (.ok true, s) := by
  obtain ⟨hisDir, hvalid, c, hc, hcn⟩ := relocateVerdict_unchanged hv
  have hsame : c = n := by
    have hget := (h.childNamed_some (hdir.present h) hc).2.1
    rw [hcn, hn.present h] at hget
    exact (Option.some.inj hget).symm
  subst hsame
  have hto : s.tree.Sits (way ++ [name]) c := (sits_snoc h).2 ⟨hvalid, dir, hdir, hisDir, hc⟩
  refine ⟨hto.pathOf h, ?_⟩
  have hfree : ∀ x, s.tree.lookup (Path.ofComponents (way ++ [name])) = .ok (some x) → x.id = c.id := fun x hx => by
    cases hto.found.symm.trans hx
    rfl
  rw [run_moveNode_to h hto hdir hvalid hfree]
  exact next_ask hv rfl

/-- A move that has been made is taken back by a move from the new place to the old one. -/
theorem moveNode_back (h : Linked s.tree) (hn : s.tree.Sits (place ++ [own]) n) (hdir : s.tree.Sits way dir) (hisDir : dir.isDir = true)
    (hvalid : Path.validName name = true) (hmove : Moves s.tree s'.tree n d dir name s.now) (hsame : s.Retreed s')
    (hleave : s.Allows d .write user?) (hmay : s.Allows dir .write user?) (hflush : ∃ s₁, flush.run s = (.ok ⟨⟩, s₁)) :
    ∃ s'', (moveNode (Path.ofComponents (way ++ [name])) (Path.ofComponents (place ++ [own])) user?).run s' = (.ok true, s'') ∧
      s.tree.Reordered s''.tree ∧ Linked s''.tree := by
  have hown := (Path.valid_snoc.1 hn.valid).2
  obtain ⟨p, hplace, hpdir, hp, hab, hname⟩ := hn.inside h
  obtain rfl : p = d := Option.some.inj (hp.symm.trans hmove.parent)
  have hapart : ¬ s.tree.skeleton.Under n.id p.id := h.forest.not_above_under hab
  have hfree : ∀ x, s'.tree.lookup (Path.ofComponents (place ++ [own])) = .ok (some x) →
      x.id = (n.moved n.id name p.id dir.id s.now).id := fun x hx => by
    rw [hmove.lookup_vacated h hname hplace hown] at hx
    cases hx
  have htables : ∃ s₁, flush.run s' = (.ok ⟨⟩, s₁) := by
    rw [flush_iff] at hflush ⊢
    rw [hsame]
    exact hflush
  have hpget := hmove.get_some (hplace.present h)
  obtain ⟨s'', hrun, hback⟩ := relocate_made hmove.linked (hmove.linked.get_self (hmove.get_some hmove.node)) hmove.back_parent
    (hmove.linked.get_self hpget) (Node.moved_isDir.trans hpdir) hown (by simpa using hmove.back_apart h) (hname ▸ hmove.vacated h)
    ((hsame.can Node.moved_core).trans hmay) ((hsame.can Node.moved_core).trans hleave) htables
  refine ⟨s'', ?_, hmove.undone h hname hback, hback.linked⟩
  rw [run_moveNode_to hmove.linked (hmove.sits_node h hdir hisDir hvalid) (hmove.sits_moved h hapart hplace) hown hfree]
  exact hrun

end Machine

end SimUnix
