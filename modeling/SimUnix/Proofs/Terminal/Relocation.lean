/-
Copies in every living state. Whoever copies a node gets all that is below it as it is, under new ids and as its
own, and nothing else is changed but the directory that holds the copy. The numbers and memberships of users and
groups are right in every such state, so that the primary group of a user, whose a copy is, goes by the user's name.
Moves in every state that can be reached. A move that succeeds touches the node, which gets another name or another
place, and the two directories; and whoever has made it can take it back at once.
-/
import SimUnix.Proofs.Machine.Moving
import SimUnix.Proofs.Machine.Session
import SimUnix.Proofs.Terminal.Life
import SimUnix.Proofs.Tree.Duplicate

namespace SimUnix

namespace Machine

open Act

variable {allowed : Operation → Prop} {s s' : Machine} {user? : Option Json} {r : Except Fault Unit}

/-! ## Numbers and memberships -/

theorem numbered_operation {c : TableCall} (hc : c.Proper) (hs : s.Sound) (hr : s.Regular) (hn : s.accounts.Numbered)
    (hrun : (c.operation user?).run.run s = (r, s')) : s'.accounts.Numbered := by
  rcases c.operation_saved hc hs hr hrun with hlog | ⟨accounts, t, hchange, hsaved⟩
  · rw [hlog]
    exact hn
  · rw [hsaved.same]
    exact (c.numbered hr.accounts hn hchange).reindexed

/-- A reset begins again with the first user. -/
theorem first_reset (hs : s.Sound) (hnow : s.now.Proper) (hrun : reset.run s = (r, s')) : First s'.accounts := by
  obtain ⟨s₁, hseed, hgood⟩ := run_seed hs.swept hnow
  rw [run_reset, run_bind, hseed] at hrun
  have hregular : Regular { s₁ with phase := s.phase } := hgood.2.inPhase.regular
  have hsame := (saved_inPhase hgood.1.linked hregular hrun).2.same
  have haccounts : s'.accounts = s₁.accounts := by rw [hsame]
  exact haccounts ▸ first_seed hseed

theorem Operation.keeps_numbered {op : Operation} (hp : op.Proper) (hs : s.Sound) (hr : s.Regular) (hn : s.accounts.Numbered)
    (hrun : op.run.run s = (r, s')) : s'.accounts.Numbered := by
  cases op
  case addUser new user? => exact numbered_operation (c := .addUser new) hp hs hr hn hrun
  case updateUser name c user? => exact numbered_operation (c := .updateUser name c) trivial hs hr hn hrun
  case deleteUser name user? => exact numbered_operation (c := .deleteUser name) trivial hs hr hn hrun
  case addGroup name members user? => exact numbered_operation (c := .addGroup name members) trivial hs hr hn hrun
  case addToGroup user group user? => exact numbered_operation (c := .addToGroup user group) trivial hs hr hn hrun
  case removeFromGroup user group user? => exact numbered_operation (c := .removeFromGroup user group) trivial hs hr hn hrun
  case deleteGroup name user? => exact numbered_operation (c := .deleteGroup name) trivial hs hr hn hrun
  case setRootPassword password =>
    have hrun := Act.got hrun
    split at hrun
    · cases hrun
      exact hn.updateUsers fun u => ⟨rfl, rfl⟩
    · cases hrun
      exact hn
  case resetAccounts =>
    cases hrun
    exact Accounts.initial_numbered
  case loadAccounts => exact hp.elim
  case boot => exact hp.elim
  case shutdown => exact hp.elim
  case reset => exact (first_reset hs hr.clock hrun).numbered
  all_goals exact (Operation.tidy hp trivial ⟨hr.toTidy, hn⟩ hrun).2

/-! ## Runs -/

theorem Leads.numbered (hall : ∀ op, allowed op → op.Proper) (hs : s.Sound) (hr : s.Regular) (hn : s.accounts.Numbered)
    (h : Leads allowed s s') : s'.accounts.Numbered := by
  induction h with
  | refl => exact hn
  | idle _ hi ih =>
    rw [hi.same]
    exact ih
  | perform hbefore may run ih => exact Operation.keeps_numbered (hall _ may) (hbefore.sound hs) (hbefore.regular hall hs hr) ih run
  | restart hbefore legible stop start ih =>
    exact ih.same ((hbefore.regular hall hs hr).restarted (hbefore.sound hs) legible stop start).2.1.accounts.1
  | reboot hbefore legible stop start ih =>
    exact ih.same ((hbefore.regular hall hs hr).rebooted (hbefore.sound hs) legible stop start).2.1.accounts.1

end Machine

theorem World.Living.numbered {w : World} (h : w.Living) : w.machine.accounts.Numbered := by
  induction h with
  | @first store hostname log ids now r s empty clock start =>
    have hfirst : Machine.First (Machine.Operation.boot.after (Machine.create store hostname log ids now)).accounts :=
      Machine.first_boot empty clock
    rw [show Machine.Operation.boot.after (Machine.create store hostname log ids now) = s from Machine.Operation.after_eq start] at hfirst
    exact hfirst.numbered
  | next before move ih =>
    obtain ⟨hw, hregular⟩ := before.attended
    exact (move.leads (fun _ hop => hop.1) hw).1.numbered (fun _ hop => hop) hw.machine hregular ih

/-! ## Primary groups -/

namespace Machine

variable {s : Machine} {name : Json} {u : User}

/-- Numbers that are found for each other are the same. -/
theorem eq_of_sameKey {v w : Json} (hv : ∃ i, v = .int i) (hw : ∃ j, w = .int j) (h : v.sameKey w = true) : v = w := by
  obtain ⟨i, rfl⟩ := hv
  obtain ⟨j, rfl⟩ := hw
  have hcases : i = j ∨ j = i := by simpa [Json.sameKey, Json.asInt, Json.isNumber] using h
  rw [hcases.elim id Eq.symm]

/-- The primary group of a user is its own. -/
theorem primaryGroup_own (hr : s.Regular) (hn : s.accounts.Numbered) (hu : s.accounts.user? name = some u) :
    s.primaryGroup name = name := by
  obtain ⟨-, x, hx, hgid, -⟩ := hn.own hu
  have hlisted : x ∈ s.accounts.groups.values ∧ x.name = name := hr.accounts.filedGroups.get?_iff.1 hx
  unfold primaryGroup Accounts.groupName
  rw [hu]
  dsimp only
  split
  · rename_i y hy
    have hmem : y ∈ s.accounts.groups.values := List.mem_of_find?_eq_some hy
    obtain ⟨p, hp, hpy⟩ := List.mem_map.1 hmem
    have hplain := (hr.accounts.group p hp).2
    have hy' : s.accounts.group? y.name = some y := hr.accounts.filedGroups.get?_iff.2 ⟨hmem, rfl⟩
    have hfound : y.gid.sameKey u.gid = true := List.find?_some (p := fun g : Group => g.gid.sameKey u.gid) hy
    have hsame : y.gid = u.gid := eq_of_sameKey (hpy ▸ hplain.gid) (hr.accounts.filedUsers.get? hu).2.gid hfound
    exact hn.gids hy' hx (hsame.trans hgid.symm)
  · rename_i hnone
    have hno := List.find?_eq_none.1 hnone x hlisted.1
    rw [hgid, TableCall.sameKey_refl] at hno
    exact absurd rfl hno

end Machine

namespace Machine

open Tree Act

variable {s s₁ s' : Machine} {user? source? : Option Json} {id : NodeId} {path : String} {name? : Option String} {n dir : Node}
  {name : Json}

/-! ## Whose a copy is -/

/-- The group of a new node has a name, too. -/
theorem primaryGroup_truthy (hr : s.Regular) (hn : s.accounts.Numbered) : (s.primaryGroup (s.actor user?)).truthy = true := by
  rcases hu : s.accounts.user? (s.actor user?) with _ | u
  · unfold primaryGroup
    rw [hu]
    rfl
  · rw [primaryGroup_own hr hn hu]
    exact actor_truthy

/-! ## Copies that are made -/

/-- A copy that is granted is made, if a walk gets through what is to be copied. -/
theorem copyById_granted (hs : s.Sound) (hflush : ∃ s₁, flush.run s = (.ok ⟨⟩, s₁)) {nodes : List Node}
    (hv : copyVerdict id path user? source? name? s = .ok (.granted (n, dir, name))) (hwalk : s.tree.walk n = .ok nodes) :
    ∃ s', (copyById id path user? source? name?).run s = (.ok true, s') := by
  obtain ⟨hget, hfound, -, -, -, own, rfl, -, hfree⟩ := copyVerdict_granted hs.linked hv
  have hn := hs.linked.get_self hget
  have hd := (nodeAt_found hs.linked hfound).1
  let new : NewOwner := { owner? := some (s.actor user?), group? := some (s.primaryGroup (s.actor user?)) }
  obtain ⟨copy, t, hclone⟩ : ∃ copy t, (clone n new s.now).run s.tree = (.ok copy, t) := hs.linked.clone_ok hn hwalk
  obtain ⟨hg, hcopy, -⟩ := run_clone hs.linked hn hclone
  let s₁ : Machine := { s with tree := t.hung copy (.str own) dir.id s.now }
  have hl : s₁.tree.Linked := (hcopy copy rfl).hang hs.linked hg hd (hs.linked.childNamed_none hd hfree)
  obtain ⟨origin, horigin⟩ : ∃ place, s₁.placeOf n.id = .ok place := placeOf_ok hl
  obtain ⟨target, htarget⟩ : ∃ place, s₁.placeOf copy = .ok place := placeOf_ok hl
  have hedit : (Act.edit (clone n new s.now)).run s = (.ok copy, { s with tree := t }) := by
    rw [run_edit, hclone]
  have horigin : (pathOfId n.id).run s₁ = (.ok origin, s₁) := by rw [run_pathOfId, horigin]
  have htarget : (pathOfId copy).run s₁ = (.ok target, s₁) := by rw [run_pathOfId, htarget]
  obtain ⟨s', hend⟩ : ∃ s', (Act.changed s!"copied {origin} -> {target}" user?).run s₁ = (.ok ⟨⟩, s') :=
    changed_iff.2 (flush_tree.2 hflush)
  refine ⟨s', next_ask hv (Act.next ?_ (Act.next hend rfl))⟩
  exact Act.next (run_get s) (Act.next hedit (Act.next run_editTree (Act.next horigin (Act.next htarget rfl))))

/-! ## What root can copy -/

/-- Out of safe mode root may do everything. -/
theorem can_root {access : Access} (hfree : s.safeMode = false) : s.can n access (some (.str rootName)) = .ok true := by
  obtain ⟨subject, hsubject, hname⟩ : ∃ subject, s.accounts.subject (.str rootName) = .ok subject ∧ subject.name = .str rootName :=
    ⟨_, rfl, rfl⟩
  unfold can
  rw [show s.actor (some (.str rootName)) = .str rootName from rfl, hsubject, hfree]
  show Permission.allows n.permissions n.owner n.group subject access false = .ok true
  simp [Permission.allows, hname]

theorem copyName_ok (h : Linked s.tree) (hd : s.tree.get? dir.id = some dir) :
    ∃ name, copyName n dir none s = .ok (some name) := by
  unfold copyName
  rcases h.childNamed_cases hd n.name with ⟨hnone, -⟩ | ⟨m, hsome, -⟩
  · exact ⟨n.name, by rw [hnone]; rfl⟩
  · obtain ⟨name, hname⟩ := uniqueName_ok h hd (n.name.plain ++ " copy")
    refine ⟨.str name, ?_⟩
    rw [hsome, hname]
    rfl

/-- A copy that nothing speaks against is granted, under one name or another. -/
theorem copyVerdict_free (h : Linked s.tree) (hn : s.tree.get? id = some n) (hat : s.nodeAt path user? = .ok (some dir))
    (hdir : dir.isDir = true) (hread : s.Allows n .read (firstName? source? user?)) (hmay : s.Allows dir .write user?) :
    ∃ name, copyVerdict id path user? source? none s = .ok (.granted (n, dir, name)) := by
  obtain ⟨name, hname⟩ := copyName_ok (n := n) h (nodeAt_found h hat).1
  refine ⟨name, bind_ok.2 ⟨some dir, hat, ?_⟩⟩
  rw [hn]
  dsimp only
  rw [if_neg (by simp [hdir])]
  exact bind_ok.2 ⟨true, hread, bind_ok.2 ⟨true, hmay, bind_ok.2 ⟨some name, hname, rfl⟩⟩⟩

/-- Root is granted a copy of a node without children into the root directory. -/
theorem copyVerdict_leaf (hs : s.Sound) (hfree : s.safeMode = false) : ∃ id n dir name,
    copyVerdict id Path.root (some (.str rootName)) none none s = .ok (.granted (n, dir, name)) ∧ s.tree.walk n = .ok [n] := by
  obtain ⟨n, hn, hwalk⟩ := hs.linked.exists_leaf
  obtain ⟨dir, hroot, -, -, hdir⟩ := hs.linked.root_ok
  have hat : s.nodeAt Path.root (some (.str rootName)) = .ok (some dir) := by
    refine bind_ok.2 ⟨Path.root, ?_, ?_⟩
    · unfold resolve
      rw [if_neg (by decide +kernel), if_pos (by decide +kernel)]
      exact congrArg Except.ok (by decide +kernel)
    · unfold Tree.lookup
      rw [hroot]
      exact congrArg (s.tree.descend dir) (show Path.components Path.root = [] by decide +kernel)
  obtain ⟨name, hv⟩ : ∃ name, copyVerdict n.id Path.root (some (.str rootName)) none none s = .ok (.granted (n, dir, name)) :=
    copyVerdict_free hs.linked hn hat hdir (can_root hfree) (can_root hfree)
  exact ⟨n.id, n, dir, name, hv, hwalk⟩

end Machine

namespace World

open Machine Tree

/-! ## Copies -/

/-- A copy is exact and lies apart. The node of the id, and all that a walk from it meets, has a copy below the directory, with
the same kind, content and permissions and the copies of the children in their order, under an id of its own that no node had.
The name of the copy at the top was free in the directory, and all others are those of before. Every copy belongs to the actor
and to its primary group. Of the nodes of before only the directory is different: the copy is one more child of it. -/
theorem Living.copy_exact {w : World} (h : w.Living) {id : NodeId} {path : String} {user? source? : Option Json}
    {name? : Option String} {s' : Machine} (hrun : (copyById id path user? source? name?).run w.machine = (.ok true, s')) :
    ∃ n dir name nodes f, w.machine.tree.get? id = some n ∧ w.machine.nodeAt path user? = .ok (some dir) ∧
      w.machine.tree.childNamed dir name = .ok none ∧ w.machine.tree.walk n = .ok nodes ∧
        Duplicates w.machine.tree s'.tree nodes n dir name (w.machine.actor user?)
          (w.machine.primaryGroup (w.machine.actor user?)) w.machine.now f := by
  obtain ⟨hw, hr⟩ := h.attended
  have hl := hw.machine.linked
  obtain ⟨n, dir, name, copy, t, hv, hclone, htree⟩ := copyById_accepted hrun
  obtain ⟨hget, hfound, -, -, -, own, -, -, hfree⟩ := copyVerdict_granted hl hv
  obtain ⟨nodes, f, hwalk, hcopy⟩ :=
    hl.duplicates name (hl.get_self hget) (nodeAt_found hl hfound).1 actor_truthy (primaryGroup_truthy hr h.numbered) hclone
  exact ⟨n, dir, name, nodes, f, hget, hfound, hfree, hwalk, htree ▸ hcopy⟩

/-- Root copies a node of a new system into the root directory. -/
theorem copied_fresh : fresh.Living ∧ ∃ id s',
    (copyById id Path.root (some (.str rootName)) none none).run fresh.machine = (.ok true, s') ∧
    ∃ n dir name nodes f, fresh.machine.tree.get? id = some n ∧
      fresh.machine.nodeAt Path.root (some (.str rootName)) = .ok (some dir) ∧
      fresh.machine.tree.childNamed dir name = .ok none ∧ fresh.machine.tree.walk n = .ok nodes ∧
        Duplicates fresh.machine.tree s'.tree nodes n dir name (fresh.machine.actor (some (.str rootName)))
          (fresh.machine.primaryGroup (fresh.machine.actor (some (.str rootName)))) fresh.machine.now f := by
  have hliving : fresh.Living := .started Store.empty_memory ⟨rfl, by decide, by decide⟩
  have hready : fresh.machine.Ready := by
    dsimp only [World.fresh]
    exact ready_fresh
  obtain ⟨id, n, dir, name, hv, hwalk⟩ := copyVerdict_leaf hready.sound hready.free
  obtain ⟨s', hrun⟩ := copyById_granted hready.sound hready.regular.run_flush hv hwalk
  exact ⟨hliving, id, s', hrun, hliving.copy_exact hrun⟩

/-! ## Moves -/

/-- A move that succeeds touches no nodes but the one that is moved and the two directories: the one gets another name and another
parent, and the others list it no more or list it now. All the rest of the arena is as it was. And the move from where the node
is now to where it was succeeds, and leaves the nodes of before, which may be listed in another order; so the same node as before
is found at every path. -/
theorem Reachable.move_undone {w : World} (h : w.Reachable) {path target : String} {user? : Option Json} {s' : Machine}
    (hrun : (moveNode path target user?).run w.machine = (.ok true, s')) :
    ∃ n parent place place', w.machine.nodeAt path user? = .ok (some n) ∧ w.machine.tree.parentOf? n = some parent ∧
      w.machine.tree.pathOf n = .ok place ∧ (∃ n', s'.tree.get? n.id = some n' ∧ s'.tree.pathOf n' = .ok place') ∧
      s'.tree.nodes.keys = w.machine.tree.nodes.keys ∧
      (s' = w.machine ∨ ∃ dir name, w.machine.tree.get? dir.id = some dir ∧
        ∀ a, s'.tree.get? a = (w.machine.tree.get? a).map (·.moved n.id name parent.id dir.id w.machine.now)) ∧
      ∃ s'', (moveNode place' place user?).run s' = (.ok true, s'') ∧ w.machine.tree.Reordered s''.tree ∧
        ∀ path, (w.machine.tree.lookup path = .ok none ∧ s''.tree.lookup path = .ok none) ∨
          ∃ m m', w.machine.tree.lookup path = .ok (some m) ∧ s''.tree.lookup path = .ok (some m') ∧ m.Reordered m' := by
  have hl := h.sound.machine.linked
  obtain ⟨n, dir, name, place, own, way, hat, hn, hdir, hrun⟩ := moveNode_accepted hl hrun
  obtain ⟨p, -, -, hp, -⟩ := hn.inside hl
  obtain ⟨hdget, hi⟩ := hl.lookup_found hdir.found
  rcases relocate_accepted hl (hn.present hl) hdget hi hrun with ⟨rfl, hv⟩ | ⟨d, hmove, hsame, hisDir, hvalid, hleave, hmay, hflush⟩
  · obtain ⟨hpath, hback⟩ := moveNode_unchanged hl hn hdir hv
    exact ⟨n, p, _, _, hat, hp, hpath, ⟨n, hn.present hl, hpath⟩, rfl, .inl rfl,
      w.machine, hback, .refl _, (Reordered.refl _).lookup hl hl⟩
  · obtain rfl : d = p := Option.some.inj (hmove.parent.symm.trans hp)
    obtain ⟨s'', hback, hsame', hl''⟩ := moveNode_back hl hn hdir hisDir hvalid hmove hsame hleave hmay hflush
    have hpath := (hmove.sits_node hl hdir hisDir hvalid).pathOf hmove.linked
    exact ⟨n, d, _, _, hat, hp, hn.pathOf hl, ⟨_, hmove.get_some hmove.node, hpath⟩, hmove.keys,
      .inr ⟨dir, name, hdget, hmove.get⟩, s'', hback, hsame', hsame'.lookup hl hl''⟩

/-- Root renames a directory and takes it back. -/
theorem undone_furnished : furnished.Reachable ∧
    ∃ s', (moveNode "/a" "/b" (some (.str rootName))).run furnished.machine = (.ok true, s') ∧
    ∃ n place place' s'', furnished.machine.nodeAt "/a" (some (.str rootName)) = .ok (some n) ∧
      furnished.machine.tree.pathOf n = .ok place ∧ (moveNode place' place (some (.str rootName))).run s' = (.ok true, s'') ∧
        furnished.machine.tree.Reordered s''.tree := by
  have hrun : (moveNode "/a" "/b" (some (.str rootName))).run furnished.machine =
      (.ok true, ((moveNode "/a" "/b" (some (.str rootName))).run furnished.machine).2) :=
    Prod.ext (show ((moveNode "/a" "/b" (some (.str rootName))).run furnished.machine).1 = .ok true by decide +kernel) rfl
  obtain ⟨n, -, place, place', hat, -, hplace, -, -, -, s'', hback, hsame, -⟩ := furnished_reachable.move_undone hrun
  exact ⟨furnished_reachable, _, hrun, n, place, place', s'', hat, hplace, hback, hsame⟩

end World

end SimUnix
