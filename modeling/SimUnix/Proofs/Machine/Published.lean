/-
Where the files of users and groups lie, and what the system itself does to them. From the first start on
only root may change them or the way to them, and each synchronization writes the texts of the tables into
them.
-/
import SimUnix.Proofs.Machine.FirstStart
import SimUnix.Proofs.Machine.Guard
import SimUnix.Proofs.Machine.Spared

namespace SimUnix

namespace Tree

variable {t t' : Tree} {root etc users groups n : Node} {U G : String}

/-! ## The way to the files -/

/-- The way from the root to the files of users and groups. Only root may write to anything on it. -/
structure Housed (t : Tree) (root etc users groups : Node) : Prop where
  start : t.root = .ok root
  etcIn : t.childNamed root "etc" = .ok (some etc)
  usersIn : t.childNamed etc "passwd" = .ok (some users)
  groupsIn : t.childNamed etc "group" = .ok (some groups)
  etcDir : etc.isDir = true
  usersFile : users.isDir = false
  groupsFile : groups.isDir = false
  barred : ∀ n ∈ [root, etc, users, groups], n.Barred

/-- What is found on the way, and where it lies. -/
theorem Housed.found (hh : t.Housed root etc users groups) (h : Linked t) :
    (∀ n ∈ [root, etc, users, groups], t.get? n.id = some n) ∧ root.parent = .null ∧ root.id = t.rootId ∧
      etc.parent = root.id ∧ users.parent = etc.id ∧ groups.parent = etc.id := by
  have hroot := h.root_self hh.start
  obtain ⟨hetc, hetcp, -⟩ := (h.childNamed_iff hroot).1 hh.etcIn
  obtain ⟨husers, husersp, -⟩ := (h.childNamed_iff hetc).1 hh.usersIn
  obtain ⟨hgroups, hgroupsp, -⟩ := (h.childNamed_iff hetc).1 hh.groupsIn
  have hid : root.id = t.rootId := h.id_eq (node_ok.1 hh.start)
  have hnull : root.parent = .null := by
    obtain ⟨x, hx, hp⟩ := h.loose_root
    rw [← hid, skeleton_some.2 ⟨root, hroot, rfl⟩] at hx
    cases hx
    exact hp
  refine ⟨fun n hn => ?_, hnull, hid, hetcp, husersp, hgroupsp⟩
  simp only [List.mem_cons, List.not_mem_nil, or_false] at hn
  rcases hn with rfl | rfl | rfl | rfl <;> assumption

theorem Housed.guarded (hh : t.Housed root etc users groups) (h : Linked t) :
    t.Guarded (· ∈ idsOf [root, etc, users, groups]) := by
  obtain ⟨hfound, hnull, -, hetc, husers, hgroups⟩ := hh.found h
  refine ⟨fun ha => ?_, fun {a b} ha hab => ?_⟩
  · obtain ⟨n, hn, rfl⟩ := List.mem_map.1 ha
    exact ⟨n, hfound n hn, hh.barred n hn⟩
  · obtain ⟨n, hn, rfl⟩ := List.mem_map.1 ha
    obtain ⟨x, hx, hp, hne⟩ := hab
    rw [skeleton_some.2 ⟨n, hfound n hn, rfl⟩] at hx
    cases hx
    have hp : n.parent = b := hp
    simp only [List.mem_cons, List.not_mem_nil, or_false] at hn
    rcases hn with rfl | rfl | rfl | rfl
    · exact absurd (hp.symm.trans hnull) hne
    · exact hp ▸ hetc ▸ List.mem_map_of_mem (List.mem_cons_self ..)
    · exact hp ▸ husers ▸ List.mem_map_of_mem (List.mem_cons_of_mem _ (List.mem_cons_self ..))
    · exact hp ▸ hgroups ▸ List.mem_map_of_mem (List.mem_cons_of_mem _ (List.mem_cons_self ..))

/-- Where everything on the way stands as it stood, it is still the way. -/
theorem Housed.stands (hh : t.Housed root etc users groups) (h : Linked t) (h' : Linked t') (hroot : t'.rootId = t.rootId)
    (hs : ∀ n ∈ [root, etc, users, groups], ∃ n', t'.get? n.id = some n' ∧ n'.standing = n.standing) :
    ∃ root' etc' users' groups', t'.Housed root' etc' users' groups' ∧ t'.get? users.id = some users' ∧
      t'.get? groups.id = some groups' ∧ idsOf [root', etc', users', groups'] = idsOf [root, etc, users, groups] := by
  obtain ⟨hfound, -, hid, -⟩ := hh.found h
  simp only [List.forall_mem_cons] at hs hfound
  obtain ⟨⟨root', hroot', hsroot⟩, ⟨etc', hetc', hsetc⟩, ⟨users', husers', hsusers⟩, ⟨groups', hgroups', hsgroups⟩, -⟩ := hs
  obtain ⟨hfroot, hfetc, -⟩ := hfound
  refine ⟨root', etc', users', groups', ⟨?_, ?_, ?_, ?_, ?_, ?_, ?_, ?_⟩, husers', hgroups', ?_⟩
  · rw [hid, ← hroot] at hroot'
    exact node_ok.2 hroot'
  · exact childNamed_stands h h' hfroot hh.etcIn hroot' hetc' hsetc
  · exact childNamed_stands h h' hfetc hh.usersIn hetc' husers' hsusers
  · exact childNamed_stands h h' hfetc hh.groupsIn hetc' hgroups' hsgroups
  · exact (standing_isDir hsetc).trans hh.etcDir
  · exact (standing_isDir hsusers).trans hh.usersFile
  · exact (standing_isDir hsgroups).trans hh.groupsFile
  · have hbarred := hh.barred
    simp only [List.forall_mem_cons] at hbarred ⊢
    obtain ⟨hbroot, hbetc, hbusers, hbgroups, -⟩ := hbarred
    exact ⟨hbroot.of_standing hsroot, hbetc.of_standing hsetc, hbusers.of_standing hsusers, hbgroups.of_standing hsgroups,
      fun _ hn => absurd hn List.not_mem_nil⟩
  · simp only [idsOf, List.map_cons, List.map_nil, h'.id_eq hroot', h'.id_eq hetc', h'.id_eq husers', h'.id_eq hgroups']

/-- Nothing on the way lies below another child of the root. -/
theorem Housed.apart (hh : t.Housed root etc users groups) (h : Linked t) {c : Node} {name : Json}
    (hc : t.childNamed root name = .ok (some c)) (hne : name ≠ "etc") {a : NodeId} (ha : a ∈ idsOf [root, etc, users, groups]) :
    ¬ t.skeleton.Under c.id a := by
  obtain ⟨hfound, hnull, -, hetc, husers, hgroups⟩ := hh.found h
  have hroot : t.get? root.id = some root := hfound root (List.mem_cons_self ..)
  obtain ⟨hcget, hcp, hcname⟩ := (h.childNamed_iff hroot).1 hc
  have hrnull : root.id ≠ .null := h.forest.ne_null (skeleton_some.2 ⟨root, hroot, rfl⟩)
  have habove : t.skeleton.Above root.id etc.id :=
    ⟨etc.joint, skeleton_some.2 ⟨etc, hfound etc (by simp), rfl⟩, hetc, hrnull⟩
  intro hu
  obtain ⟨n, hn, hid⟩ := List.mem_map.1 ((hh.guarded h).under ha hu)
  have hsame : n = c := by
    have hget := hfound n hn
    rw [hid, hcget] at hget
    exact (Option.some.inj hget).symm
  subst hsame
  simp only [List.mem_cons, List.not_mem_nil, or_false] at hn
  rcases hn with rfl | rfl | rfl | rfl
  · exact hrnull (hcp.symm.trans hnull)
  · exact hne (hcname.symm.trans ((h.childNamed_iff hroot).1 hh.etcIn).2.2)
  · exact h.forest.not_above_under habove (hcp ▸ husers ▸ .refl)
  · exact h.forest.not_above_under habove (hcp ▸ hgroups ▸ .refl)

/-! ## What the files say -/

/-- The files of users and groups are where only root may change them, and have these texts. -/
def Publishes (t : Tree) (U G : String) : Prop :=
  ∃ root etc users groups, t.Housed root etc users groups ∧ users.content = .str U ∧ groups.content = .str G

/-- A change that touches nothing on the way leaves the files and their texts. -/
theorem Publishes.untouched (hp : t.Publishes U G) (h : Linked t) (h' : Linked t') (hroot : t'.rootId = t.rootId)
    (hs : ∀ {root etc users groups}, t.Housed root etc users groups → Untouched (· ∈ idsOf [root, etc, users, groups]) t t') :
    t'.Publishes U G := by
  obtain ⟨root, etc, users, groups, hh, hU, hG⟩ := hp
  obtain ⟨hfound, -⟩ := hh.found h
  have hstill : ∀ n ∈ [root, etc, users, groups], ∃ n', t'.get? n.id = some n' ∧ n'.standing = n.standing ∧ n'.content = n.content :=
    fun n hn => hs hh _ n (List.mem_map_of_mem hn) (hfound n hn)
  obtain ⟨root', etc', users', groups', hh', husers', hgroups', -⟩ := hh.stands h h' hroot fun n hn =>
    (hstill n hn).imp fun _ hn => ⟨hn.1, hn.2.1⟩
  refine ⟨root', etc', users', groups', hh', ?_, ?_⟩
  · obtain ⟨n', hn', -, hc⟩ := hstill users (by simp)
    cases husers'.symm.trans hn'
    exact hc.trans hU
  · obtain ⟨n', hn', -, hc⟩ := hstill groups (by simp)
    cases hgroups'.symm.trans hn'
    exact hc.trans hG

end Tree

namespace Machine

open Tree Act

variable {keepers : NodeId → Prop} {s s' : Machine} {user? leaver? : Option Json} {U G : String}

/-! ## Changes of the system -/

/-- The file of an application lies below one directory, whatever the application is called. -/
theorem components_app (id : String) : ∃ rest, Path.components (appsPath ++ "/" ++ id) = "usr" :: rest := by
  have hlist : (appsPath ++ "/" ++ id).toList = ['/', 'u', 's', 'r', '/', 'b', 'i', 'n', '/'] ++ id.toList := by
    rw [String.toList_append, String.toList_append]
    rfl
  -- slashes at the end are cut off, but no other characters
  have hcut : ∃ more, Text.trimBy (· == '/') (appsPath ++ "/" ++ id).toList = 'u' :: 's' :: 'r' :: '/' :: more := by
    have hfront : (['/', 'u', 's', 'r', '/', 'b', 'i', 'n', '/'] ++ id.toList).dropWhile (· == '/') =
        ['u', 's', 'r', '/', 'b', 'i', 'n', '/'] ++ id.toList := rfl
    unfold Text.trimBy
    rw [hlist, hfront, List.reverse_append, List.dropWhile_append]
    split
    · exact ⟨['b', 'i', 'n'], rfl⟩
    · rw [List.reverse_append, List.reverse_reverse]
      exact ⟨_, rfl⟩
  obtain ⟨more, hmore⟩ := hcut
  have hne : ¬ (appsPath ++ "/" ++ id = "" ∨ appsPath ++ "/" ++ id = Path.root) := by
    rintro (he | he) <;> rw [he] at hlist <;> cases hlist
  obtain ⟨piece, pieces, hpieces⟩ := List.exists_cons_of_ne_nil (Text.splitChars_ne_nil '/' more)
  refine ⟨(piece :: pieces).map String.ofList, ?_⟩
  unfold Path.components
  rw [if_neg hne, hmore]
  simp [Text.splitChars, hpieces]

/-- The files say what the tables say. -/
def Published (s : Machine) : Prop :=
  ∃ U G, s.accounts.usersText = .ok U ∧ s.accounts.groupsText = .ok G ∧ s.tree.Publishes U G

/-- Where the files of users and groups are once they have been written, and what they say then. -/
theorem found_syncFiles (h : s.Sound) (hrun : syncFiles.run s = (.ok ⟨⟩, s')) : Spares (fun _ => True) s.tree s'.tree ∧
    ∃ U G, s.accounts.usersText = .ok U ∧ s.accounts.groupsText = .ok G ∧
      ∃ root etc users groups, s'.tree.root = .ok root ∧ s'.tree.childNamed root "etc" = .ok (some etc) ∧
        s'.tree.childNamed etc "passwd" = .ok (some users) ∧ s'.tree.childNamed etc "group" = .ok (some groups) ∧
          users.content = .str U ∧ groups.content = .str G := by
  have hpath : ∀ name : String, Path.nonEmptyComponents "/etc" ++ [name] = ["etc", name] := fun _ => rfl
  rcases askedOf hrun with ⟨e, -, he, -⟩ | ⟨U, hU, hrun⟩
  · cases he
  rw [run_bind, run_discard] at hrun
  rcases hfirst : (putSystemFile "/etc" "passwd" (.str U) filePermissions).run s with ⟨x, s₁⟩
  rw [hfirst] at hrun
  cases x with
  | error e => cases hrun
  | ok id =>
  obtain ⟨hs₁, hfound₁⟩ := found_putSystemFile h hfirst
  obtain ⟨root₁, users₁, hroot₁, -, hreach₁, hcontent₁⟩ := hfound₁ id rfl
  have h₁ : s₁.Sound := sound_putSystemFile h hfirst
  have hsame : s₁ = { s with tree := s₁.tree } := onlyTree_putSystemFile (.refl s) hfirst
  dsimp only at hrun
  rcases askedOf hrun with ⟨e, -, he, -⟩ | ⟨G, hG, hrun⟩
  · cases he
  rw [hsame] at hG
  rw [run_discard] at hrun
  rcases hnext : (putSystemFile "/etc" "group" (.str G) filePermissions).run s₁ with ⟨y, s₂⟩
  rw [hnext] at hrun
  cases y with
  | error e => cases hrun
  | ok id' =>
  cases hrun
  obtain ⟨hs₂, hfound₂⟩ := found_putSystemFile h₁ hnext
  obtain ⟨root, groups, hroot, hgroups, hreach₂, hcontent₂⟩ := hfound₂ id' rfl
  have h₂ : s'.Sound := sound_putSystemFile h₁ hnext
  rw [hpath] at hreach₁ hreach₂
  obtain ⟨etc₁, hetc₁, _, husers₁, rfl⟩ := hreach₁
  obtain ⟨etc, hetc, _, hgroupsIn, rfl⟩ := hreach₂
  -- the first file is where it was when the second one is written, since their names are different
  have hrget₁ := h₁.linked.root_self hroot₁
  obtain ⟨heget₁, -, -⟩ := (h₁.linked.childNamed_iff hrget₁).1 hetc₁
  obtain ⟨huget₁, -, huname⟩ := (h₁.linked.childNamed_iff heget₁).1 husers₁
  obtain ⟨etc', hetc', hsetc, -⟩ := hs₂.node heget₁
  obtain ⟨users, husers, hsusers, hcusers⟩ := hs₂.node huget₁
  have hrid : s'.tree.get? root₁.id = some root := by
    rw [h₁.linked.id_eq (node_ok.1 hroot₁), ← hs₂.rootId]
    exact node_ok.1 hroot
  have hetcIn := childNamed_stands h₁.linked h₂.linked hrget₁ hetc₁ hrid hetc' hsetc
  rw [hetc] at hetcIn
  cases hetcIn
  have heget := ((h₂.linked.childNamed_iff (h₂.linked.root_self hroot)).1 hetc).1
  have hgname := ((h₂.linked.childNamed_iff heget).1 hgroupsIn).2.2
  refine ⟨(hs₁.imp fun _ _ => trivial).trans (hs₂.imp fun _ _ => trivial), U, G, hU, hG, root, etc, users, groups, hroot, hetc,
    ?_, hgroupsIn, ?_, hcontent₂⟩
  · exact childNamed_stands h₁.linked h₂.linked heget₁ husers₁ hetc' husers hsusers
  · refine (hcusers fun hedited => ?_).trans hcontent₁
    cases hedited
    cases husers.symm.trans hgroups
    have hname := (standing_place hsusers).2.1
    rw [hgname, huname] at hname
    exact absurd hname (by decide)

/-- Writing the files publishes the tables, wherever other texts were published before. -/
theorem published_sync (h : s.Sound) (hp : s.tree.Publishes U G) (hrun : syncFiles.run s = (.ok ⟨⟩, s')) : s'.Published := by
  have h' : s'.Sound := sound_syncFiles h hrun
  have hsame : s' = { s with tree := s'.tree } := onlyTree_syncFiles (.refl s) hrun
  obtain ⟨hspares, U', G', hU, hG, root, etc, users, groups, hroot, hetc, husers, hgroups, hcU, hcG⟩ := found_syncFiles h hrun
  obtain ⟨root₀, etc₀, users₀, groups₀, hh₀, -, -⟩ := hp
  obtain ⟨root₁, etc₁, users₁, groups₁, hh, -⟩ := hh₀.stands h.linked h'.linked hspares.rootId fun n hn => by
    obtain ⟨n', hn', hs, -⟩ := hspares.node ((hh₀.found h.linked).1 n hn)
    exact ⟨n', hn', hs⟩
  -- the way is the one on which the files have been written
  cases hh.start.symm.trans hroot
  cases hh.etcIn.symm.trans hetc
  cases hh.usersIn.symm.trans husers
  cases hh.groupsIn.symm.trans hgroups
  rw [hsame]
  exact ⟨U', G', hU, hG, _, _, _, _, hh, hcU, hcG⟩

/-- What is done for others than root leaves what is published. -/
theorem publishes_trail (h : s.Sound) (hp : s.tree.Publishes U G) (hu : s.actor user? ≠ rootName) (hl : s.actor leaver? ≠ rootName)
    (hr : Trail keepers user? leaver? s s') : s'.tree.Publishes U G := by
  have hseq := hr.sequel h.linked
  exact hp.untouched h.linked hseq.linked hseq.rootId fun hh => hr.untouched h.linked (hh.guarded h.linked) hu hl

/-- Making directories and homes leaves what is published. -/
theorem publishes_createHome {u : User} : Keeps (fun s => s.Sound ∧ s.tree.Publishes U G) (createHome u) := by
  intro s s' r ⟨h, hp⟩ hrun
  obtain ⟨h', hspares⟩ : Sparing (fun _ => False) s.tree s' := sparing_createHome ⟨h, .refl⟩ hrun
  exact ⟨h', hp.untouched h.linked h'.linked hspares.rootId fun _ => hspares.untouched fun _ _ => id⟩

/-- The file of an application is another one. -/
theorem publishes_putAppFile {id : String} : Keeps (fun s => s.Sound ∧ s.tree.Publishes U G) (putAppFile id) := by
  refine keeps_discard fun s s' r ⟨h, hp⟩ hrun => ?_
  have h' : s'.Sound := sound_putSystemFile h hrun
  obtain ⟨hspares, hfound⟩ := found_putSystemFile h hrun
  refine ⟨h', hp.untouched h.linked h'.linked hspares.rootId fun {root etc users groups} hh => hspares.untouched fun a ha hedited => ?_⟩
  obtain ⟨root', n, hroot, hn, hreach, -⟩ := hfound a hedited
  have hpath : Path.nonEmptyComponents appsPath ++ [id] = "usr" :: ["bin", id] := rfl
  rw [hpath] at hreach
  obtain ⟨c, hc, hreach⟩ := hreach
  obtain ⟨hcget, -⟩ := (h'.linked.childNamed_iff (h'.linked.root_self hroot)).1 hc
  obtain ⟨hnget, hu⟩ := h'.linked.reaches_found hcget hreach
  -- what is on the way has stayed there, so that it lies apart in the new tree
  obtain ⟨root₁, etc₁, users₁, groups₁, hh₁, -, -, hids⟩ := hh.stands h.linked h'.linked hspares.rootId fun m hm => by
    obtain ⟨m', hm', hs, -⟩ := hspares.node ((hh.found h.linked).1 m hm)
    exact ⟨m', hm', hs⟩
  cases hh₁.start.symm.trans hroot
  exact hh₁.apart h'.linked hc (by decide) (hids ▸ ha) (h'.linked.id_eq hn ▸ hu)

/-- What is removed where applications lie is something else. -/
theorem publishes_removed {n dir : Node} {t : Tree} {id : String} (h : s.Sound) (hp : s.tree.Publishes U G)
    (hlook : s.tree.lookup (appsPath ++ "/" ++ id) = .ok (some n)) (hdir : s.tree.parentOf? n = some dir)
    (hrem : Removed s.tree t n.id dir.id) : t.Publishes U G := by
  obtain ⟨root, hroot, hrget, -⟩ := h.linked.root_ok
  obtain ⟨rest, hpath⟩ := components_app id
  unfold Tree.lookup at hlook
  rw [hroot, hpath] at hlook
  obtain ⟨c, hc, hreach⟩ := h.linked.reaches_of_descend hrget hlook
  obtain ⟨hcget, -⟩ := (h.linked.childNamed_iff hrget).1 hc
  obtain ⟨hn, hu⟩ := h.linked.reaches_found hcget hreach
  obtain ⟨-, hab⟩ := (h.linked.parentOf_iff hn).1 hdir
  refine hp.untouched h.linked (h.linked.removed hab hrem) hrem.rootId fun {root' etc users groups} hh => ?_
  cases hh.start.symm.trans hroot
  have hreshaped : Reshaped (fun _ => True) (fun _ => False) s.tree t := reshaped_removed h.linked hab hrem trivial
  refine hreshaped.untouched (fun _ _ => not_false) fun a m ha hm hnone => ?_
  have hbare := hrem.bare a fun hunder => hh.apart h.linked hc (by decide) ha (hu.trans hunder)
  unfold Tree.bare at hbare
  rw [hm, hnone] at hbare
  cases hbare

end Machine

end SimUnix
