/-
What is written into a file is read from it. A file that is created holds what it was created with, and one that is written what
was written last, for whoever may read it; who has created a file may.
-/
import SimUnix.Proofs.Machine.Removal
import SimUnix.Proofs.Tree.Standing

namespace SimUnix

namespace Tree

variable {t t' : Tree} {n d : Node} {a : NodeId} {names : List String} {name : String} {now : Time.Stamp} {edited : NodeId → Prop}

/-! ## Ways down the tree -/

/-- Where all nodes stand as before, names lead to the same ones. -/
theorem Spares.sits (h : Linked t) (h' : Linked t') (hs : Spares edited t t') (hsits : t.Sits names n) :
    ∃ n', t'.Sits names n' ∧ t'.get? n.id = some n' := by
  obtain ⟨n', hfound, hn'⟩ := h.lookup_kept h' hs.rootId (P := fun _ => True) (fun _ _ => trivial) (fun {b m} _ hm => by
    obtain ⟨m', hm', hstand, -⟩ := hs.node hm
    have hname : m'.standing.name = m.standing.name := congrArg Node.name hstand
    have hparent : m'.standing.parent = m.standing.parent := congrArg Node.parent hstand
    have hkind : m'.standing.kind = m.standing.kind := congrArg Node.kind hstand
    exact ⟨m', hm', hname, hparent, hkind⟩) hsits.found trivial
  exact ⟨n', ⟨hsits.valid, hfound⟩, hn'⟩

/-- A node that is added to a directory is its child by that name. -/
theorem Sits.adds (h : Linked t) (hn : IsNew t n) (hd : t.Sits names d) (hname : n.name = .str name)
    (hfree : t.childNamed d name = .ok none) : ∃ d', (t.takeId.2.add n d.id now).Sits names d' ∧ d'.isDir = d.isDir ∧
      (t.takeId.2.add n d.id now).childNamed d' name = .ok (some { n with parent := d.id }) := by
  have hthere := hd.present h
  have h' : Linked (t.takeId.2.add n d.id now) := h.add hn hthere (hname ▸ h.childNamed_none hthere hfree)
  have hspares : Spares (fun _ => False) t (t.takeId.2.add n d.id now) := spares_add h hn
  obtain ⟨d', hd', hget⟩ := hspares.sits h h' hd
  have hnew : (t.takeId.2.add n d.id now).get? n.id = some { n with parent := d.id } := get?_add_new h hn hthere
  rw [get?_add_old h hn hthere, if_pos rfl] at hget
  cases hget
  refine ⟨_, hd', rfl, ?_⟩
  rw [← hname]
  exact h'.childNamed_of_mem (m := { n with parent := d.id }) (hd'.present h') (List.mem_append_right _ List.mem_cons_self) hnew

/-- A node that is added to a directory is found there by its name. -/
theorem Sits.add (h : Linked t) (hn : IsNew t n) (hd : t.Sits names d) (hdir : d.isDir = true) (hvalid : Path.validName name = true)
    (hname : n.name = .str name) (hfree : t.childNamed d name = .ok none) :
    (t.takeId.2.add n d.id now).Sits (names ++ [name]) { n with parent := d.id } := by
  have hthere := hd.present h
  have h' : Linked (t.takeId.2.add n d.id now) := h.add hn hthere (hname ▸ h.childNamed_none hthere hfree)
  obtain ⟨d', hd', hkind, hchild⟩ : ∃ d', (t.takeId.2.add n d.id now).Sits names d' ∧ d'.isDir = d.isDir ∧ _ := hd.adds h hn hname hfree
  exact (sits_snoc h').2 ⟨hvalid, d', hd', hkind.trans hdir, hchild⟩

/-- A node that is changed in place is found by the same names. -/
theorem Sits.update {f : Node → Node} (h : Linked t) (h' : Linked (t.update n.id f)) (hf : ∀ n, (f n).standing = n.standing)
    (hsits : t.Sits names n) : (t.update n.id f).Sits names (f n) := by
  obtain ⟨n', hn', hget⟩ := (spares_edit hf).sits h h' hsits
  rw [get?_update, if_pos rfl, hsits.present h] at hget
  cases hget
  exact hn'

end Tree

namespace Machine

open Tree

variable {s s' : Machine} {n dir : Node} {user? : Option Json} {names : List String} {path name text : String}

/-! ## Reading -/

/-- A path leads to a file that holds a text and that the user may read. -/
def Holds (s : Machine) (user? : Option Json) (path text : String) : Prop :=
  ∃ n, s.nodeAt path user? = .ok (some n) ∧ n.isDir = false ∧ n.content = .str text ∧ s.Allows n .read user?

theorem Holds.fileContent (h : s.Holds user? path text) : s.fileContent path user? = .ok (some (.str text)) := by
  obtain ⟨n, hat, hfile, hcontent, hmay⟩ := h
  refine bind_ok.2 ⟨some n, hat, ?_⟩
  dsimp only
  rw [hfile, if_neg Bool.false_ne_true]
  refine bind_ok.2 ⟨true, hmay, ?_⟩
  rw [if_pos rfl, hcontent]

/-- Only files have changed, the tree is in order, and a path leads to a file that holds a text. -/
structure Records (s : Machine) (user? : Option Json) (path text : String) (s' : Machine) : Prop where
  same : s.Retreed s'
  linked : Linked s'.tree
  holds : s'.Holds user? path text

/-- What a path stands for does not depend on the files. -/
theorem Retreed.resolve (h : s.Retreed s') {cwd? : Option String} : s'.resolve path user? cwd? = s.resolve path user? cwd? := by
  rw [h]
  rfl

/-- A file that has its place in the tree is read from there. -/
theorem records_of_sits {t : Tree} (ha : Aside { s with tree := t } s') (h : Linked s'.tree) (hsits : t.Sits names n) (hfile : n.isDir = false)
    (hcontent : n.content = .str text) (hmay : s.Allows n .read user?) : s.Records user? (Path.ofComponents names) text s' := by
  have hsame : s.Retreed s' := ha.retreed
  refine ⟨hsame, h, n, ?_, hfile, hcontent, (hsame.can rfl).trans hmay⟩
  rw [nodeAt_ofComponents hsits.valid, ha.tree]
  exact hsits.found

/-! ## Writing -/

/-- By the default permissions the owner of a file may read it. -/
theorem Permission.allows_own {subject : Permission.Subject} {group : Json} {safeMode : Bool} :
    Permission.allows (.str filePermissions) subject.name group subject .read safeMode = .ok true := by
  unfold Permission.allows Permission.classOf
  rw [if_neg (by rw [Bool.and_eq_true]; exact fun h => absurd h.2 (by decide))]
  split
  · rfl
  · rw [if_pos (by rw [beq_self_eq_true, Bool.or_true])]
    exact congrArg Except.ok (by decide)

/-- Who may write to a directory may read the files made there. -/
theorem Allows.read_own {own : Node} (hdir : s.Allows dir .write user?) (howner : own.owner = s.actor user?)
    (hpermissions : own.permissions = .str filePermissions) : s.Allows own .read user? := by
  obtain ⟨subject, hsubject, -⟩ := bind_ok.1 hdir
  have hname : subject.name = s.actor user? := by
    obtain ⟨u?, -, hsubject⟩ := bind_ok.1 hsubject
    cases hsubject
    rfl
  refine bind_ok.2 ⟨subject, hsubject, ?_⟩
  rw [howner, hpermissions, ← hname]
  exact Permission.allows_own

theorem writeVerdict_changes : writeVerdict n path user? s ≠ .ok .unchanged := by
  intro hv
  unfold writeVerdict at hv
  split at hv
  · cases hv
  obtain ⟨may, -, hv⟩ := bind_ok.1 hv
  split at hv <;> cases hv

theorem createVerdict_changes : createVerdict path name user? s ≠ .ok .unchanged := by
  intro hv
  unfold createVerdict at hv
  obtain ⟨found?, -, hv⟩ := bind_ok.1 hv
  split at hv
  · cases hv
  split at hv
  · cases hv
  obtain ⟨existing?, -, hv⟩ := bind_ok.1 hv
  split at hv
  · cases hv
  obtain ⟨may, -, hv⟩ := bind_ok.1 hv
  split at hv
  · obtain ⟨_, -, hv⟩ := bind_ok.1 hv
    cases hv
  · cases hv

theorem linked_overwriteFile (h : Linked s.tree) {r : Except Fault Bool}
    (hrun : (overwriteFile path (.str text) user?).run s = (r, s')) : Linked s'.tree := by
  have htrail : Trail (fun _ => False) user? none s s' := trail_overwriteFile h hrun
  exact (htrail.sequel h).linked

/-- A file that is there holds what is written last. -/
theorem overwriteFile_old (h : Linked s.tree) (hsits : s.tree.Sits names n) (hmay : s.Allows n .read user?)
    (hrun : (overwriteFile (Path.ofComponents names) (.str text) user?).run s = (.ok true, s')) :
    s.Records user? (Path.ofComponents names) text s' := by
  have h' := linked_overwriteFile h hrun
  unfold overwriteFile at hrun
  obtain ⟨e, -, he, -⟩ | ⟨resolved, hresolved, hrun⟩ := Act.asked (Act.got hrun)
  · cases he
  cases (resolve_ofComponents hsits.valid).symm.trans hresolved
  obtain ⟨e, -, he, -⟩ | ⟨n?, hlookup, hrun⟩ := Act.asked hrun
  · cases he
  cases hsits.found.symm.trans hlookup
  obtain ⟨hunchanged, -⟩ | ⟨id, message, s₁, hverdict, hchange, hchanged⟩ := decide_accepted hrun
  · exact absurd hunchanged writeVerdict_changes
  obtain ⟨rfl, hfile, hwrite⟩ := writeVerdict_granted hverdict
  cases hchange
  have hedited : Linked (s.tree.update n.id fun n => { n with content := .str text, modified := s.now }) :=
    ((Revision.write (hsits.present h) hfile hwrite).sequel h).linked
  exact records_of_sits (Act.aside_changed hchanged) h' (hsits.update h hedited fun _ => rfl) hfile rfl hmay

/-- A file that is created holds what it is created with. -/
theorem createFile_new {place : List String} (h : Linked s.tree) (h' : Linked s'.tree) (hvalid : Path.Valid (place ++ [name]))
    (hrun : (createFile (Path.ofComponents place) name (.str text) user? none).run s = (.ok true, s')) :
    s.Records user? (Path.ofComponents (place ++ [name])) text s' := by
  obtain ⟨hunchanged, -⟩ | ⟨dir, message, s₁, hverdict, hchange, hchanged⟩ := decide_accepted hrun
  · exact absurd hunchanged createVerdict_changes
  obtain ⟨hat, hdir, hname, hnone, hmay⟩ := createVerdict_granted hverdict
  rw [nodeAt_ofComponents (Path.valid_snoc.1 hvalid).1] at hat
  have hplace : s.tree.Sits place dir := ⟨(Path.valid_snoc.1 hvalid).1, hat⟩
  simp only [run_bind, run_get, run_addNew, run_pathOfId] at hchange
  generalize placeOf _ _ = told at hchange
  rcases told with e | told
  · cases hchange
  cases hchange
  exact records_of_sits (Act.aside_changed hchanged) h' (hplace.add h (build_isNew rfl rfl) hdir hname rfl hnone) rfl rfl
    (hmay.read_own rfl rfl)

/-- So does one that is written where there is none. -/
theorem overwriteFile_new (h : Linked s.tree) (hvalid : Path.Valid names)
    (hfree : s.nodeAt (Path.ofComponents names) user? = .ok none)
    (hrun : (overwriteFile (Path.ofComponents names) (.str text) user?).run s = (.ok true, s')) :
    s.Records user? (Path.ofComponents names) text s' := by
  have h' := linked_overwriteFile h hrun
  unfold overwriteFile at hrun
  obtain ⟨e, -, he, -⟩ | ⟨resolved, hresolved, hrun⟩ := Act.asked (Act.got hrun)
  · cases he
  cases (resolve_ofComponents hvalid).symm.trans hresolved
  obtain ⟨e, -, he, -⟩ | ⟨n?, hlookup, hrun⟩ := Act.asked hrun
  · cases he
  rw [nodeAt_ofComponents hvalid] at hfree
  cases hfree.symm.trans hlookup
  obtain rfl | ⟨place, name, rfl⟩ := List.eq_nil_or_concat' names
  · -- The root is always there.
    obtain ⟨root, hroot, -⟩ := h.root_ok
    cases hfree.symm.trans (sits_nil.2 hroot).found
  · dsimp only at hrun
    rw [Path.split_ofComponents hvalid] at hrun
    dsimp only at hrun
    rw [parentOrRoot_ofComponents] at hrun
    exact createFile_new h h' hvalid hrun

/-! ## Appending -/

/-- A file that is appended to holds what it held with what is appended after it. -/
theorem Holds.appendFile {old new : String} (h : Linked s.tree) (hvalid : Path.Valid names)
    (hholds : s.Holds user? (Path.ofComponents names) old)
    (hrun : (appendFile (Path.ofComponents names) (.str new) user?).run s = (.ok true, s')) :
    ∃ joined, appended (.str old) (.str new) = .ok (.str joined) ∧ s.Records user? (Path.ofComponents names) joined s' := by
  obtain ⟨n, hat, hfile, hcontent, hmay⟩ := hholds
  unfold Machine.appendFile at hrun
  obtain ⟨e, -, he, -⟩ | ⟨n?, hasked, hrun⟩ := Act.askedOf hrun
  · cases he
  cases hat.symm.trans hasked
  dsimp only at hrun
  rw [hfile, if_neg Bool.false_ne_true, hcontent] at hrun
  obtain ⟨e, -, he, -⟩ | ⟨joined, happended, hrun⟩ := Act.asked hrun
  · cases he
  obtain ⟨text, rfl⟩ := appended_text happended
  rw [nodeAt_ofComponents hvalid] at hat
  exact ⟨text, happended, overwriteFile_old h ⟨hvalid, hat⟩ hmay hrun⟩

end Machine

end SimUnix
