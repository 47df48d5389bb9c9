/-
What comes into a directory one after the other: nodes that are moved into the trash, and copies that are pasted. Each goes
under the first name that is free there, and names do not run out. So whatever has come stands beside the rest under a
name of its own, however often the same name comes.
-/
import SimUnix.Proofs.Machine.Audit
import SimUnix.Proofs.Terminal.Pasting
import SimUnix.Proofs.Terminal.Removal

namespace SimUnix

namespace Tree

open Skeleton

variable {t t' t₁ : Tree} {n d dir dir' : Node} {a c : NodeId} {name : String} {now : Time.Stamp} {children : List Node}

/-! ## Listings -/

/-- The children of a directory with their names, in their order. -/
def listing (t : Tree) (a : NodeId) : List (NodeId × Json) :=
  ((t.get? a).elim [] Node.children).filterMap fun c => (t.get? c).map fun n => (c, n.name)

theorem listing_eq (hd : t.get? a = some dir) : t.listing a = dir.children.filterMap fun c => (t.get? c).map fun n => (c, n.name) := by
  unfold listing
  rw [hd]
  rfl

theorem listing_absent (hd : t.get? a = none) : t.listing a = [] := by
  unfold listing
  rw [hd]
  rfl

/-- The names in a listing are those of the children. -/
theorem listing_names (hd : t.get? a = some dir) (h : t.childrenOf dir = .ok children) :
    (t.listing a).map Prod.snd = children.map Node.name := by
  rw [listing_eq hd]
  have hall := mapM_ok.1 h
  clear h hd
  generalize dir.children = ids at hall ⊢
  induction hall with
  | nil => rfl
  | cons hc _ ih => simp [node_ok.1 hc, ih]

/-- Siblings differ, and so do their names. -/
theorem Linked.listing_distinct (h : Linked t) (a : NodeId) : (t.listing a).Pairwise fun x y => x.1 ≠ y.1 ∧ x.2 ≠ y.2 := by
  rcases hd : t.get? a with _ | dir
  · rw [listing_absent hd]
    exact .nil
  rw [listing_eq hd]
  have hx : t.skeleton a = some dir.joint := skeleton_some.2 ⟨dir, hd, rfl⟩
  have honce : dir.children.Pairwise (· ≠ ·) := h.forest.once hx
  refine (honce.imp_of_mem (S := fun c k => c ≠ k ∧ ∀ n m, t.get? c = some n → t.get? k = some m → n.name ≠ m.name)
    fun {c k} hc hk hne => ⟨hne, fun n m hn hm hname => ?_⟩).filterMap _ ?_
  · exact hne (h.forest.names hx hc hk (skeleton_some.2 ⟨n, hn, rfl⟩) (skeleton_some.2 ⟨m, hm, rfl⟩) hname)
  · rintro c k ⟨hne, hnames⟩ x hx y hy
    obtain ⟨n, hn, rfl⟩ := Option.map_eq_some_iff.1 hx
    obtain ⟨m, hm, rfl⟩ := Option.map_eq_some_iff.1 hy
    exact ⟨hne, hnames n m hn hm⟩

/-- A directory that has got one more child lists it last. -/
theorem listing_snoc (hd : t.get? a = some dir) (hd' : t'.get? a = some dir') (hmore : dir'.children = dir.children ++ [c])
    (hc : t'.get? c = some n) (hsame : ∀ k ∈ dir.children, (t'.get? k).map Node.name = (t.get? k).map Node.name) :
    t'.listing a = t.listing a ++ [(c, n.name)] := by
  rw [listing_eq hd, listing_eq hd', hmore, List.filterMap_append]
  congr 1
  · refine List.filterMap_congr fun k hk => ?_
    have hentry := congrArg (Option.map fun name => (k, name)) (hsame k hk)
    rw [Option.map_map, Option.map_map] at hentry
    exact hentry
  · simp [hc]

/-- A node that is moved into a directory from another one is the last one there. -/
theorem Moves.listing (h : Linked t) (hmove : Moves t t₁ n d dir name now) (hother : d.id ≠ dir.id) :
    t₁.listing dir.id = t.listing dir.id ++ [(n.id, .str name)] := by
  have hself : n.moved n.id name d.id dir.id now = { n with name, parent := dir.id, modified := now } := Node.moved_self rfl
  have hout : ∀ k ∈ dir.children, k ≠ n.id := fun k hk he => by
    obtain ⟨hp, hab⟩ := (h.parentOf_iff hmove.node).1 hmove.parent
    exact hother (hab.unique ((h.above_iff hmove.target).2 (he ▸ hk)))
  refine listing_snoc hmove.target (hmove.get_some hmove.target) ?_ ((hmove.get_some hmove.node).trans (congrArg some hself))
    fun k hk => ?_
  · rw [Node.moved_children hmove.target_ne, if_neg (fun he => hother he.symm), if_pos rfl]
  · rcases hm : t.get? k with _ | m
    · rw [hmove.get, hm]
      rfl
    · rw [hmove.get_some hm]
      exact congrArg some (Node.moved_name fun he => hout k hk ((h.id_eq hm).symm.trans he))

/-- A copy that is hung below a directory is the last one there. -/
theorem HasCopy.listing (h : Linked t) (hg : Grown t t₁) (hcopy : HasCopy t t₁ n c) (hd : t.get? dir.id = some dir) {name : Json} :
    (t₁.hung c name dir.id now).listing dir.id = t.listing dir.id ++ [(c, name)] := by
  obtain ⟨m, hm, rfl⟩ : ∃ m, (t₁.hung c name dir.id now).get? c = some m ∧ name = m.name := by
    obtain ⟨m, hm, hname⟩ := hcopy.hung_new hd
    exact ⟨m, hm, hname.symm⟩
  refine listing_snoc hd (hcopy.hung_old hg hd hd) (by rw [if_pos rfl]) hm fun k hk => ?_
  obtain ⟨o, ho⟩ := present_of_above ((h.above_iff hd).2 hk)
  rw [hcopy.hung_old hg hd ho, ho]
  split <;> rfl

end Tree

namespace Machine

open Tree Skeleton Act

variable {s s₁ s' : Machine} {n dir parent trash : Node} {a id : NodeId} {user? source? : Option Json} {path base name own : String} {count : Nat}

/-! ## Joining a directory -/

/-- A node has become one more child of a directory, under the first name for a base that was free there. -/
def Joins (s s' : Machine) (dir a : NodeId) (base : String) : Prop :=
  ∃ name, FirstFree ((s.tree.listing dir).map Prod.snd) base name ∧ s'.tree.listing dir = s.tree.listing dir ++ [(a, .str name)]

theorem joins_of_uniqueName (h : Linked s.tree) (hd : s.tree.get? dir.id = some dir) (hname : uniqueName s.tree dir base = .ok name)
    (hlist : s'.tree.listing dir.id = s.tree.listing dir.id ++ [(a, .str name)]) : s.Joins s' dir.id a base := by
  obtain ⟨children, hchildren, -⟩ := h.childrenOf_ok hd
  obtain ⟨name', hname', hfirst⟩ := uniqueName_firstFree hchildren base
  cases hname.symm.trans hname'
  exact ⟨name, listing_names hd hchildren ▸ hfirst, hlist⟩

/-! ## Into the trash -/

/-- The trash lists what it has listed before, which is nothing if it has just been made. -/
theorem listing_ensureTrash (h : Linked s.tree) (hrun : (ensureTrash user?).run s = (.ok (some trash), s')) :
    s'.tree.listing trash.id = s.tree.listing trash.id := by
  rcases ensureTrash_cases hrun with ⟨-, hold⟩ | ⟨place, home, -, hlook, -, -, -, haside, hget⟩
  · rw [(hold trash rfl).1]
  have hnew : IsNew s.tree ((s.newTrash user?).build s) := newTrash_isNew
  have hself : s'.tree.get? ((s.newTrash user?).build s).id = some { (s.newTrash user?).build s with parent := home.id } := by
    rw [haside.tree]
    exact get?_add_new h hnew (h.lookup_found hlook).1
  have habsent : s.tree.get? ((s.newTrash user?).build s).id = none := by
    rcases hm : s.tree.get? ((s.newTrash user?).build s).id with _ | m
    · rfl
    · cases (h.new_absent hnew).symm.trans (skeleton_some.2 ⟨m, hm, rfl⟩)
  cases (hget trash rfl).symm.trans hself
  rw [listing_absent habsent, listing_eq hself, hnew.children]
  rfl

/-- What is moved into the trash joins it under the first name for its own that is free there. -/
theorem moveToTrash_joins (h : Linked s.tree) (hrun : (moveToTrash path user?).run s = (.ok true, s')) :
    ∃ n own trash, s.nodeAt path user? = .ok (some n) ∧ n.name = .str own ∧ s'.HasTrash user? trash ∧ s.Joins s' trash.id n.id own := by
  rcases moveToTrash_cases hrun with ⟨-, hno⟩ | ⟨n, x, s₁, hfound, hens, hend⟩
  · exact absurd rfl hno
  have hn := (nodeAt_found h hfound).1
  obtain ⟨own, hown⟩ := text_name h hn
  obtain ⟨hdisc, hhas⟩ : s.Discards user? (fun _ => False) s₁ ∧ ∀ trash, x = .ok (some trash) → s₁.HasTrash user? trash :=
    discards_ensureTrash h hens
  obtain ⟨-, hfacts⟩ : Relinks (fun _ => False) user? none s s₁ ∧ ∀ trash, x = .ok (some trash) → IsTrash s s₁ trash :=
    trail_ensureTrash h hens
  rcases hend with ⟨-, hno⟩ | ⟨trash, name, rfl, hanc, hother, hname, hmove⟩
  · exact absurd rfl hno
  have h₁ := hdisc.linked
  obtain ⟨ht, hi, hn₁⟩ := (hfacts trash rfl).of_apart h₁ hn hanc
  have hfree := (uniqueName_free h₁ ht hname).1
  rcases relocate_cases h₁ hn₁ ht hi hmove with ⟨-, hsame⟩ | ⟨parent, hmoves, hretreed⟩
  · obtain ⟨-, -, c, hc, -⟩ := relocateVerdict_unchanged (hsame rfl)
    cases hfree.symm.trans hc
  have hapart : parent.id ≠ trash.id := fun he =>
    hother ((parent_of_above hn₁ ((h₁.parentOf_iff hn₁).1 hmoves.parent).2).trans he)
  have hplain : n.name.plain = own := congrArg Json.plain hown
  rw [hplain] at hname
  have hjoins : s₁.Joins s' trash.id n.id own := joins_of_uniqueName h₁ ht hname (hmoves.listing h₁ hapart)
  unfold Joins at hjoins
  rw [listing_ensureTrash h hens] at hjoins
  refine ⟨n, own, _, hfound, hown, (hhas trash rfl).moves h₁ hmoves hretreed, ?_⟩
  rw [Node.moved_id]
  exact hjoins

/-- Nothing speaks against moving what is found at a path into the trash that is there. -/
structure Disposable (s : Machine) (path : String) (user? : Option Json) (n parent trash : Node) : Prop where
  found : s.nodeAt path user? = .ok (some n)
  below : s.tree.parentOf? n = some parent
  leave : s.Allows parent .write user?
  held : s.HasTrash user? trash
  isDir : trash.isDir = true
  enter : s.Allows trash .write user?
  other : n.parent ≠ trash.id
  apart : s.tree.isAncestor n trash = false
  records : ∃ s₁, flush.run s = (.ok ⟨⟩, s₁)

/-- So it is moved there, however many of the same name have been before. -/
theorem moveToTrash_made (h : Linked s.tree) (hdisp : s.Disposable path user? n parent trash) :
    ∃ s', (moveToTrash path user?).run s = (.ok true, s') := by
  have hn := (nodeAt_found h hdisp.found).1
  have ht := hdisp.held.present h
  obtain ⟨place, hverdict⟩ := removeVerdict_eq h hdisp.found hdisp.below "trash"
  rw [show s.can parent .write user? = .ok true from hdisp.leave] at hverdict
  -- What lies at a path has a name that may be given, and so have all that are tried.
  obtain ⟨names, hsits⟩ := sits_of_nodeAt hdisp.found
  obtain ⟨root, hroot, -⟩ := h.root_ok
  obtain ⟨place, own, rfl⟩ := sits_below hsits hroot (ne_root_of_parent h hn hdisp.below hroot)
  have hvalid := (Path.valid_snoc.1 hsits.valid).2
  obtain ⟨-, -, -, -, -, hown⟩ := hsits.inside h
  obtain ⟨name, hname⟩ := uniqueName_ok h ht own
  obtain ⟨hfree, k, rfl⟩ := uniqueName_free h ht hname
  have hapart : ¬ s.tree.skeleton.Under n.id trash.id := fun hu => by
    cases ((h.isAncestor_iff ht).2 hu).symm.trans hdisp.apart
  obtain ⟨s', hmade, -⟩ := relocate_made h hn hdisp.below ht hdisp.isDir (candidate_valid hvalid k) hapart hfree hdisp.leave
    hdisp.enter hdisp.records
  refine ⟨s', next_ask hverdict (next (run_ensureTrash_has hdisp.held) (next (run_get s) ?_))⟩
  rw [if_neg (by simp [hdisp.apart, hdisp.other])]
  refine next_given ?_ hmade
  rw [hown]
  exact hname

/-! ## Copies -/

/-- What the name of a copy begins with: the name of the original, marked as a copy where it is taken. -/
def copyBase (names : List Json) (own : String) : String := if .str own ∈ names then own ++ " copy" else own

theorem copyName_firstFree {children : List Node} (hchildren : s.tree.childrenOf dir = .ok children) (hown : n.name = .str own) {copy : Json}
    (hcopy : copyName n dir none s = .ok (some copy)) :
    ∃ name, copy = .str name ∧ FirstFree (children.map Node.name) (copyBase (children.map Node.name) own) name := by
  have hplain : n.name.plain = own := congrArg Json.plain hown
  obtain ⟨existing?, hfound, hcopy⟩ := bind_ok.1 hcopy
  unfold copyBase
  split at hcopy
  · rename_i hnone
    cases hcopy
    obtain rfl : existing? = none := by simpa using hnone
    have hfree := (childNamed_none_iff hchildren).1 hfound
    rw [hown] at hfree
    rw [if_neg hfree]
    exact ⟨own, hown, .plain hfree⟩
  · rename_i hsome
    obtain ⟨c, rfl⟩ : ∃ c, existing? = some c := Option.ne_none_iff_exists'.1 (by simpa using hsome)
    have htaken := (childNamed_some_iff hchildren).1 ⟨c, hfound⟩
    rw [hown] at htaken
    rw [if_pos htaken]
    obtain ⟨name, hname, hfirst⟩ := uniqueName_firstFree hchildren (own ++ " copy")
    rw [hplain, hname] at hcopy
    cases hcopy
    exact ⟨name, rfl, hfirst⟩

/-- A copy is new. It joins the directory under the name of the original if that is free there, and else under the first name that
is free for one marked as a copy. -/
theorem copyById_joins (h : Linked s.tree) (hrun : (copyById id path user? source? none).run s = (.ok true, s')) :
    ∃ n dir own copy, s.tree.get? id = some n ∧ s.nodeAt path user? = .ok (some dir) ∧ n.name = .str own ∧ s.tree.get? copy = none ∧
      s.Joins s' dir.id copy (copyBase ((s.tree.listing dir.id).map Prod.snd) own) := by
  obtain ⟨n, dir, name, copy, t, hv, hclone, htree⟩ := copyById_accepted hrun
  obtain ⟨hget, hfound, -, -, -, hname⟩ := copyVerdict_checks hv
  have hn := h.get_self hget
  have hd := (nodeAt_found h hfound).1
  obtain ⟨own, hown⟩ := text_name h hn
  obtain ⟨children, hchildren, -⟩ := h.childrenOf_ok hd
  obtain ⟨name, rfl, hfirst⟩ := copyName_firstFree hchildren hown hname
  obtain ⟨hg, hcopy, -⟩ := run_clone h hn hclone
  refine ⟨n, dir, own, copy, hget, hfound, hown, (hcopy copy rfl).fresh, name, ?_, ?_⟩
  · rw [listing_names hd hchildren]
    exact hfirst
  · rw [htree]
    exact (hcopy copy rfl).listing h hg hd

/-- Nothing speaks against copying the node of an id into a directory. -/
structure Copyable (s : Machine) (id : NodeId) (path : String) (user? source? : Option Json) (n dir : Node) : Prop where
  node : s.tree.get? id = some n
  dest : s.nodeAt path user? = .ok (some dir)
  isDir : dir.isDir = true
  read : s.Allows n .read (firstName? source? user?)
  enter : s.Allows dir .write user?
  walk : ∃ nodes, s.tree.walk n = .ok nodes
  records : ∃ s₁, flush.run s = (.ok ⟨⟩, s₁)

/-- So it is copied, however many copies there are. -/
theorem copyById_made (hs : s.Sound) (hcopy : s.Copyable id path user? source? n dir) :
    ∃ s', (copyById id path user? source? none).run s = (.ok true, s') := by
  obtain ⟨nodes, hwalk⟩ := hcopy.walk
  obtain ⟨name, hv⟩ : ∃ name, copyVerdict id path user? source? none s = .ok (.granted (n, dir, name)) :=
    copyVerdict_free hs.linked hcopy.node hcopy.dest hcopy.isDir hcopy.read hcopy.enter
  exact copyById_granted hs hcopy.records hv hwalk

/-! ## Pastes of copies -/

/-- Where nodes are only added, the same directory is found as before. -/
theorem Augments.nodeAt (haug : s.Augments s') (h : Linked s.tree) (h' : Linked s'.tree) (hroot : s'.tree.rootId = s.tree.rootId)
    (hat : s.nodeAt path user? = .ok (some dir)) : ∃ dir', s'.nodeAt path user? = .ok (some dir') ∧ dir'.id = dir.id := by
  obtain ⟨resolved, hres, hlook⟩ := bind_ok.1 hat
  obtain ⟨dir', hlook', hget⟩ := h.lookup_kept h' hroot (P := fun _ => True) (fun _ _ => trivial)
    (fun _ hm => by
      obtain ⟨m', hm', hsame, -⟩ := haug.kept hm
      exact ⟨m', hm', by rw [hsame], by rw [hsame], by rw [hsame]⟩) hlook trivial
  refine ⟨dir', ?_, h'.id_eq hget⟩
  rw [haug.same.nodeAt, hres]
  exact hlook'

/-- An item that is pasted joins the directory if it arrives. -/
theorem pasteItem_joins (h : Linked s.tree) (hat : s.nodeAt path user? = .ok (some dir)) {i : ClipboardItem} {arrived : Bool}
    (hrun : (pasteItem .copy path user? i).run s = (.ok arrived, s')) :
    (∃ dir', s'.nodeAt path user? = .ok (some dir') ∧ dir'.id = dir.id) ∧
      ∃ came, came.length = arrived.toNat ∧ s'.tree.listing dir.id = s.tree.listing dir.id ++ came := by
  have hsequel := (trail_pasteItem h hrun).sequel h
  unfold pasteItem at hrun
  split at hrun
  · cases hrun
  have hcopy : (copyById i.node path user? (some i.user) none).run s = (.ok arrived, s') := hrun
  cases arrived with
  | false =>
    rcases settles_copyById hcopy with hnoted | ⟨-, hno⟩
    · unfold Noted at hnoted
      rw [hnoted]
      exact ⟨⟨dir, hat, rfl⟩, [], rfl, (List.append_nil _).symm⟩
    · exact absurd rfl (hno false rfl)
  | true =>
    refine ⟨(augments_copyById h hcopy).nodeAt h hsequel.linked hsequel.rootId hat, ?_⟩
    obtain ⟨n, dir₁, own, copy, -, hat₁, -, -, name, -, hlist⟩ := copyById_joins h hcopy
    cases hat.symm.trans hat₁
    exact ⟨[(copy, .str name)], rfl, hlist⟩

theorem pasteItems_joins : ∀ {items : List ClipboardItem} {s s' : Machine} {dir : Node} {count : Nat}, Linked s.tree →
    s.nodeAt path user? = .ok (some dir) → (pasteItems .copy path user? items).run s = (.ok count, s') →
      ∃ came, came.length = count ∧ s'.tree.listing dir.id = s.tree.listing dir.id ++ came
  | [], s, s', dir, count, _, _, hrun => by
    cases hrun
    exact ⟨[], rfl, (List.append_nil _).symm⟩
  | i :: items, s, s', dir, count, h, hat, hrun => by
    rcases of_run_bind hrun with ⟨e, -, he⟩ | ⟨arrived, s₁, hitem, hrun⟩
    · cases he
    rcases of_run_bind hrun with ⟨e, -, he⟩ | ⟨others, s₂, hothers, hrun⟩
    · cases he
    cases hrun
    obtain ⟨⟨dir₁, hat₁, hid⟩, came, hlen, hlist⟩ := pasteItem_joins h hat hitem
    have h₁ : Linked s₁.tree := ((trail_pasteItem h hitem).sequel h).linked
    obtain ⟨more, hmore, hlist'⟩ := pasteItems_joins h₁ hat₁ hothers
    refine ⟨came ++ more, ?_, ?_⟩
    · rw [List.length_append, hlen, hmore]
      cases arrived <;> simp [Nat.add_comm]
    · rw [hid] at hlist'
      rw [hlist', hlist, List.append_assoc]

/-- As many nodes join the directory as a paste of copies counts. -/
theorem paste_joins (h : Linked s.tree) (hkind : s.clipboard.kind = .copy) (hat : s.nodeAt path user? = .ok (some dir))
    (hrun : (paste path user?).run s = (.ok count, s')) :
    ∃ came, came.length = count ∧ s'.tree.listing dir.id = s.tree.listing dir.id ++ came := by
  have hrun := Act.got hrun
  dsimp only at hrun
  rw [hkind] at hrun
  rcases of_run_bind hrun with ⟨e, -, he⟩ | ⟨arrived, s₁, hitems, hrun⟩
  · cases he
  cases hrun
  exact pasteItems_joins h hat hitems

end Machine

namespace World

open Machine Tree

variable {w w' : World} {dir : NodeId} {count : Nat}

/-! ## Directories that fill -/

/-- Nodes come into a directory, each into what is there then: they are moved into the trash, or pasted as copies. In between
anything may happen that takes none of its children away and gives none another name. -/
inductive Gathers (dir : NodeId) (w : World) : Nat → World → Prop
  | start : Gathers dir w 0 w
  | trash {count : Nat} {w₁ : World} {path : String} {user? : Option Json} {trash : Node} {s : Machine} (before : Gathers dir w count w₁)
      (run : (moveToTrash path user?).run w₁.machine = (.ok true, s)) (into : s.HasTrash user? trash) (here : trash.id = dir) :
      Gathers dir w (count + 1) { w₁ with machine := s }
  | paste {count more : Nat} {w₁ : World} {path : String} {user? : Option Json} {d : Node} {s : Machine} (before : Gathers dir w count w₁)
      (copies : w₁.machine.clipboard.kind = .copy) (into : w₁.machine.nodeAt path user? = .ok (some d)) (here : d.id = dir)
      (run : (paste path user?).run w₁.machine = (.ok more, s)) : Gathers dir w (count + more) { w₁ with machine := s }
  | meanwhile {count : Nat} {w₁ w₂ : World} (before : Gathers dir w count w₁) (move : Moves (fun _ => True) w₁ w₂)
      (kept : w₁.machine.tree.listing dir ⊆ w₂.machine.tree.listing dir) : Gathers dir w count w₂

theorem Gathers.reachable (h : w.Reachable) (hrun : w.Gathers dir count w') : w'.Reachable := by
  induction hrun with
  | start => exact h
  | @trash _ w₁ path user? _ s _ run _ _ ih =>
    have hcall : ((FileCall.moveToTrash path).run user? none).run w₁.machine = (.ok (.truth true), s) := by
      show (Answer.truth <$> moveToTrash path user?).run w₁.machine = _
      rw [run_map, run]
    obtain ⟨x, hop⟩ := run_discard_of hcall
    exact ih.operate (show (Operation.file (.moveToTrash path) user? none).run.run w₁.machine = (x, s) from hop)
  | @paste _ _ w₁ path user? _ s _ _ _ _ run ih =>
    obtain ⟨x, hop⟩ := run_discard_of run
    exact ih.operate (show (Operation.paste path user?).run.run w₁.machine = (x, s) from hop)
  | meanwhile _ move _ ih => exact move.reachable ih

/-- Whatever has come is in the directory with what was there before. -/
theorem Gathers.came (h : w.Reachable) (hrun : w.Gathers dir count w') :
    ∃ came, came.length = count ∧ (w.machine.tree.listing dir ++ came).Subperm (w'.machine.tree.listing dir) := by
  induction hrun with
  | start => exact ⟨[], rfl, by rw [List.append_nil]⟩
  | @trash _ w₁ _ _ _ s before run into here ih =>
    obtain ⟨came, rfl, hsub⟩ := ih
    obtain ⟨n, own, trash, -, -, htrash, name, -, hlist⟩ := moveToTrash_joins (before.reachable h).sound.machine.linked run
    cases into.unique htrash
    rw [here] at hlist
    refine ⟨came ++ [(n.id, .str name)], List.length_append, ?_⟩
    rw [← List.append_assoc]
    show List.Subperm _ (s.tree.listing dir)
    rw [hlist]
    exact (List.subperm_append_right _).2 hsub
  | @paste _ _ w₁ _ _ _ s before copies into here run ih =>
    obtain ⟨came, rfl, hsub⟩ := ih
    obtain ⟨more, rfl, hlist⟩ := paste_joins (before.reachable h).sound.machine.linked copies into run
    rw [here] at hlist
    refine ⟨came ++ more, List.length_append, ?_⟩
    rw [← List.append_assoc]
    show List.Subperm _ (s.tree.listing dir)
    rw [hlist]
    exact (List.subperm_append_right _).2 hsub
  | meanwhile before _ kept ih =>
    obtain ⟨came, hlen, hsub⟩ := ih
    have honce := (before.reachable h).sound.machine.linked.listing_distinct dir
    have hnd := honce.imp fun hne he => hne.1 (congrArg Prod.fst he)
    exact ⟨came, hlen, hsub.trans (List.subperm_of_subset hnd kept)⟩

/-- Names that collide are numbered, and names do not run out. In every directory of every tree, the search for a name that begins
with a name and a suffix is over after at most one round for each child, and gives the first one that is free. What is moved into
the trash joins it under the first one for its own name; a copy joins its directory under the name of the original if that is free,
and else under the first one for a name marked as a copy; and both succeed unless something else speaks against it, however many of
the same name are there. So whatever is moved into a trash or pasted into a directory, one after the other, gets an id and a name
of its own, apart from all that was there and all else that has come. -/
theorem Reachable.collisions_numbered (h : w.Reachable) :
    (∀ (t : Tree) (d : Node) (name suffix : String), ∃ rounds, Searched t d (name ++ suffix) rounds) ∧
    (∀ path user?,
      (∀ s', (moveToTrash path user?).run w.machine = (.ok true, s') → ∃ n own trash, w.machine.nodeAt path user? = .ok (some n) ∧
        n.name = .str own ∧ s'.HasTrash user? trash ∧ w.machine.Joins s' trash.id n.id own) ∧
      ∀ n parent trash, w.machine.Disposable path user? n parent trash →
        ∃ s', (moveToTrash path user?).run w.machine = (.ok true, s')) ∧
    (∀ id path user? source?,
      (∀ s', (copyById id path user? source? none).run w.machine = (.ok true, s') → ∃ n d own copy, w.machine.tree.get? id = some n ∧
        w.machine.nodeAt path user? = .ok (some d) ∧ n.name = .str own ∧ w.machine.tree.get? copy = none ∧
          w.machine.Joins s' d.id copy (copyBase ((w.machine.tree.listing d.id).map Prod.snd) own)) ∧
      ∀ n d, w.machine.Copyable id path user? source? n d →
        ∃ s', (copyById id path user? source? none).run w.machine = (.ok true, s')) ∧
    ∀ dir count w', w.Gathers dir count w' → ∃ came, came.length = count ∧
      w.machine.tree.listing dir ++ came ⊆ w'.machine.tree.listing dir ∧
        (w.machine.tree.listing dir ++ came).Pairwise fun x y => x.1 ≠ y.1 ∧ x.2 ≠ y.2 := by
  have hs := h.sound.machine
  refine ⟨fun t d name suffix => searched t d (name ++ suffix),
    fun path user? => ⟨fun s' => moveToTrash_joins hs.linked, fun n parent trash => moveToTrash_made hs.linked⟩,
    fun id path user? source? => ⟨fun s' => copyById_joins hs.linked, fun n d => copyById_made hs⟩,
    fun dir count w' hrun => ?_⟩
  obtain ⟨came, hlen, hsub⟩ := hrun.came h
  obtain ⟨listed, hperm, hsublist⟩ := id hsub
  have hdistinct := ((hrun.reachable h).sound.machine.linked.listing_distinct dir).sublist hsublist
  exact ⟨came, hlen, hsub.subset, (hperm.pairwise_iff fun hne => ⟨hne.1.symm, hne.2.symm⟩).1 hdistinct⟩

/-- Root has moved a directory into the trash, where there was none before. -/
def binned : World := { housed with machine := (Operation.file (.moveToTrash "/a") (some (.str rootName)) none).after housed.machine }

/-- Root has made another one of the same name. -/
def littered : World :=
  { binned with machine := (Operation.file (.createDirectory "/" "a") (some (.str rootName)) none).after binned.machine }

/-- A directory of root's in a new system. -/
def ownDirectory (id : NodeId) (name : String) (children : List NodeId) (parent : Json) : Node :=
  { id, name, kind := .directory, permissions := directoryPermissions, children, parent, created := { seconds := 0 },
    modified := { seconds := 0 } }

/-- The trash of root in such a system. -/
def ownTrash (children : List NodeId) : Node := { ownDirectory "n3" trashName children "n2" with permissions := "drwx------" }

theorem hasTrash_littered : littered.machine.HasTrash (some (.str rootName)) (ownTrash ["n1"]) :=
  ⟨"/root", ownDirectory "n2" "root" ["n3"] "n0", by decide +kernel, by decide +kernel, by decide, by decide +kernel⟩

theorem disposable_littered : littered.machine.Disposable "/a" (some (.str rootName)) (ownDirectory "n4" "a" [] "n0")
    (ownDirectory "n0" "/" ["n2", "n4"] .null) (ownTrash ["n1"]) where
  found := by decide +kernel
  below := by decide +kernel
  leave := can_root (by decide +kernel)
  held := hasTrash_littered
  isDir := by decide
  enter := can_root (by decide +kernel)
  other := by decide
  apart := by decide +kernel
  records := Act.flush_iff.2 fun hrunning => absurd hrunning (by decide +kernel)

theorem copyable_littered : littered.machine.Copyable "n4" "/" (some (.str rootName)) none (ownDirectory "n4" "a" [] "n0")
    (ownDirectory "n0" "/" ["n2", "n4"] .null) where
  node := by decide +kernel
  dest := by decide +kernel
  isDir := by decide
  read := can_root (by decide +kernel)
  enter := can_root (by decide +kernel)
  walk := ⟨[ownDirectory "n4" "a" [] "n0"], by decide +kernel⟩
  records := Act.flush_iff.2 fun hrunning => absurd hrunning (by decide +kernel)

/-- Root has moved the other one into the trash, too. -/
def cleared : World := { littered with machine := ((moveToTrash "/a" (some (.str rootName))).run littered.machine).2 }

theorem run_littered : (moveToTrash "/a" (some (.str rootName))).run littered.machine = (.ok true, cleared.machine) := by
  unfold cleared
  exact run_of_result (by decide +kernel)

theorem hasTrash_cleared : cleared.machine.HasTrash (some (.str rootName)) (ownTrash ["n1", "n4"]) :=
  ⟨"/root", ownDirectory "n2" "root" ["n3"] "n0", by decide +kernel, by decide +kernel, by decide, by decide +kernel⟩

/-- Root has picked the first one. -/
def picked : World := { cleared with machine := (Operation.pick ["n1"] .copy (some (.str rootName))).after cleared.machine }

/-- Root has pasted a copy of it into the trash. -/
def pasted : World := { picked with machine := ((paste "/root/.Trash" (some (.str rootName))).run picked.machine).2 }

theorem gathers_pasted : littered.Gathers "n3" 2 pasted := by
  have hcleared : littered.Gathers "n3" 1 cleared := .trash .start run_littered hasTrash_cleared rfl
  have hlisted : picked.machine.tree.listing "n3" = cleared.machine.tree.listing "n3" := by decide +kernel
  have hpicked : littered.Gathers "n3" 1 picked := .meanwhile hcleared (.perform trivial) fun x hx => hlisted ▸ hx
  have hfound : picked.machine.nodeAt "/root/.Trash" (some (.str rootName)) = .ok (some (ownTrash ["n1", "n4"])) := by decide +kernel
  have hrun : (paste "/root/.Trash" (some (.str rootName))).run picked.machine = (.ok 1, _) := run_of_result (by decide +kernel)
  exact .paste hpicked (by decide +kernel) hfound rfl hrun

/-- Three of a kind lie in the trash of root, each under a name of its own. -/
theorem collisions_littered : littered.Reachable ∧
    (∃ s', (moveToTrash "/a" (some (.str rootName))).run littered.machine = (.ok true, s') ∧ littered.machine.Joins s' "n3" "n4" "a") ∧
    (∃ s' copy, (copyById "n4" "/" (some (.str rootName)) none none).run littered.machine = (.ok true, s') ∧
      littered.machine.Joins s' "n0" copy "a copy") ∧
    littered.Gathers "n3" 2 pasted ∧
    (pasted.machine.tree.listing "n3").map Prod.snd = [.str "a", .str "a 2", .str "a copy"] ∧
    ∃ came, came.length = 2 ∧ littered.machine.tree.listing "n3" ++ came ⊆ pasted.machine.tree.listing "n3" ∧
      (littered.machine.tree.listing "n3" ++ came).Pairwise fun x y => x.1 ≠ y.1 ∧ x.2 ≠ y.2 := by
  have hhoused : housed.Reachable := furnished_reachable.perform _
  have hbinned : binned.Reachable := hhoused.perform _
  have hreach : littered.Reachable := hbinned.perform _
  obtain ⟨-, htrash, hcopy, hgathers⟩ := hreach.collisions_numbered
  refine ⟨hreach, ?_, ?_, gathers_pasted, by decide +kernel, hgathers _ _ _ gathers_pasted⟩
  · obtain ⟨hjoins, hmade⟩ := htrash "/a" (some (.str rootName))
    obtain ⟨s', hrun⟩ := hmade _ _ _ disposable_littered
    obtain ⟨n, own, trash, hat, hown, hhas, hjoin⟩ := hjoins s' hrun
    obtain rfl : s' = cleared.machine := congrArg Prod.snd (hrun.symm.trans run_littered)
    obtain rfl : trash = ownTrash ["n1", "n4"] := hhas.unique hasTrash_cleared
    obtain rfl : n = ownDirectory "n4" "a" [] "n0" := Option.some.inj (Except.ok.inj (hat.symm.trans disposable_littered.found))
    obtain rfl : "a" = own := Json.str.inj hown
    exact ⟨_, hrun, hjoin⟩
  · obtain ⟨hjoins, hmade⟩ := hcopy "n4" "/" (some (.str rootName)) none
    obtain ⟨s', hrun⟩ := hmade _ _ copyable_littered
    obtain ⟨n, d, own, copy, hget, hat, hown, -, hjoin⟩ := hjoins s' hrun
    obtain rfl : n = ownDirectory "n4" "a" [] "n0" := Option.some.inj (hget.symm.trans copyable_littered.node)
    obtain rfl : d = ownDirectory "n0" "/" ["n2", "n4"] .null := Option.some.inj (Except.ok.inj (hat.symm.trans copyable_littered.dest))
    obtain rfl : "a" = own := Json.str.inj hown
    have hbase : copyBase ((littered.machine.tree.listing "n0").map Prod.snd) "a" = "a copy" := by decide +kernel
    rw [show (ownDirectory "n0" "/" ["n2", "n4"] .null).id = "n0" from rfl, hbase] at hjoin
    exact ⟨s', copy, hrun, hjoin⟩

end World

end SimUnix
