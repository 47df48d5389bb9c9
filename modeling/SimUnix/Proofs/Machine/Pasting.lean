/-
Pasting what has been cut. The items are moved one after the other, each in the tree that the ones before it have left;
what one move does to the directory, to what is in it already and to what may still be moved carries over to all of them.
-/
import SimUnix.Proofs.Machine.Backup
import SimUnix.Proofs.Machine.Ordinary
import SimUnix.Proofs.Machine.Removal
import SimUnix.Proofs.Machine.Telling

namespace SimUnix

/-- The same node, but for where it lies, what lies in it and the time of its last change. -/
structure Node.Carried (m m' : Node) : Prop where
  same : m' = { m with parent := m'.parent, children := m'.children, modified := m'.modified }

namespace Node

variable {m m' m'' : Node}

theorem Carried.refl (m : Node) : m.Carried m := ⟨rfl⟩

theorem Carried.trans (h : m.Carried m') (h' : m'.Carried m'') : m.Carried m'' := ⟨by rw [h'.same, h.same]⟩

theorem Carried.id (h : m.Carried m') : m'.id = m.id := (congrArg Node.id h.same :)

theorem Carried.name (h : m.Carried m') : m'.name = m.name := (congrArg Node.name h.same :)

theorem Carried.isDir (h : m.Carried m') : m'.isDir = m.isDir := (congrArg Node.isDir h.same :)

theorem Carried.core (h : m.Carried m') : m'.core = m.core := (congrArg Node.core h.same :)

/-- A node that is moved under its own name is carried, and so is every other one. -/
theorem carried_moved {c p q : NodeId} {name : Json} {now : Time.Stamp} (h : m.id = c → m.name = name) :
    m.Carried (m.moved c name p q now) := by
  by_cases hc : m.id = c
  · refine ⟨?_⟩
    rw [moved_self hc, ← h hc]
  · refine ⟨?_⟩
    rw [moved_parent hc]
    exact moved_other hc

end Node

namespace Machine

open Tree Skeleton Act

variable {s s₁ s' : Machine} {user? source? : Option Json} {path name own : String} {id a : NodeId} {n m dir parent : Node}
  {came came' : NodeId → Prop} {kind : PasteKind}

/-! ## Pastes item by item -/

/-- What has become of an item: whether it has arrived, and how many nodes a walk from it met when its turn came. -/
structure Arrival where
  item : ClipboardItem
  arrived : Bool
  size : Nat

/-- How many nodes a walk from the node of an id meets; none, where there is no such node or the walk gives up. -/
def extent (t : Tree) (id : NodeId) : Nat :=
  match (t.node id).bind t.walk with
  | .ok nodes => nodes.length
  | .error _ => 0

/-- Pastes one item, and tells what has become of it. -/
def pasteNoted (kind : PasteKind) (path : String) (user? : Option Json) (i : ClipboardItem) : Act Arrival := do
  let t := (← get).tree
  let arrived ← pasteItem kind path user? i
  pure { item := i, arrived, size := extent t i.node }

/-- Pastes some items, and tells of each what has become of it. -/
def pasteEach (kind : PasteKind) (path : String) (user? : Option Json) (items : List ClipboardItem) : Act (List Arrival) :=
  items.mapM (pasteNoted kind path user?)

/-- A paste is one that tells what has become of each item, and that counts those that have arrived. -/
theorem pasteItems_eq : ∀ items : List ClipboardItem,
    pasteItems kind path user? items = List.countP Arrival.arrived <$> pasteEach kind path user? items
  | [] => rfl
  | i :: rest => by
    unfold pasteItems
    rw [pasteItems_eq rest]
    unfold pasteEach
    rw [List.mapM_cons]
    simp only [pasteNoted, map_bind, bind_assoc, pure_bind, bind_map_left, map_pure, List.countP_cons]
    -- Looking at the tree changes nothing.
    change _ = (pasteItem kind path user? i >>= fun arrived => rest.mapM (pasteNoted kind path user?) >>= fun others =>
      pure (others.countP Arrival.arrived + if arrived = true then 1 else 0))
    refine bind_congr fun arrived => bind_congr fun others => ?_
    cases arrived <;> rfl

/-! ## What may be moved -/

/-- A node and the directory at a path, where the node has a name that may be given. -/
structure Meets (s : Machine) (path : String) (user? : Option Json) (id : NodeId) (n dir : Node) (name : String) : Prop where
  node : s.tree.get? id = some n
  dest : s.nodeAt path user? = .ok (some dir)
  isDir : dir.isDir = true
  named : n.name = .str name
  valid : Path.validName name = true

/-- A node lies in the directory at a path, under a name that may be given. -/
def InPlace (s : Machine) (path : String) (user? : Option Json) (id : NodeId) : Prop :=
  ∃ n dir name, s.Meets path user? id n dir name ∧ id ∈ dir.children

/-- A node may be moved into the directory at a path: it is not the root, the directory does not lie below it, its name is
free there, and the users may write to the directories that it leaves and enters. -/
def MayEnter (s : Machine) (path : String) (user? source? : Option Json) (id : NodeId) : Prop :=
  ∃ n dir name parent, s.Meets path user? id n dir name ∧ s.tree.parentOf? n = some parent ∧ ¬ s.tree.skeleton.Under id dir.id ∧
    s.tree.childNamed dir name = .ok none ∧ s.Allows parent .write (firstName? source? user?) ∧ s.Allows dir .write user?

/-- A node that a move finds in its place or brings there. -/
def Welcome (s : Machine) (path : String) (user? source? : Option Json) (id : NodeId) : Prop :=
  s.InPlace path user? id ∨ s.MayEnter path user? source? id

/-- Whatever lies in a directory has a parent, and is not above it. -/
theorem parent_of_child (h : Linked s.tree) (hn : s.tree.get? n.id = some n) (hd : s.tree.get? dir.id = some dir)
    (hmem : n.id ∈ dir.children) : s.tree.parentOf? n = some dir ∧ ¬ s.tree.skeleton.Under n.id dir.id := by
  have hab := (h.above_iff hd).2 hmem
  exact ⟨(h.parentOf_iff hn).2 ⟨hd, hab⟩, h.forest.not_above_under hab⟩

/-- The root is welcome nowhere. -/
theorem Welcome.ne_root (h : Linked s.tree) (hw : s.Welcome path user? source? id) {root : Node} (hroot : s.tree.root = .ok root) :
    id ≠ root.id := by
  rintro rfl
  have hget : s.tree.get? root.id = some root := h.get_self (node_ok.1 hroot)
  have hloose : s.tree.skeleton.Loose root.id := h.id_eq (node_ok.1 hroot) ▸ h.loose_root
  have hnone := (h.parentOf_none hget).2 hloose
  rcases hw with ⟨n, dir, name, hmeets, hmem⟩ | ⟨n, dir, name, parent, hmeets, hparent, -⟩
  · cases hget.symm.trans hmeets.node
    rw [(parent_of_child h hget (nodeAt_found h hmeets.dest).1 hmem).1] at hnone
    cases hnone
  · cases hget.symm.trans hmeets.node
    rw [hparent] at hnone
    cases hnone

/-- A node that is in its place stays there. -/
theorem relocateVerdict_inPlace (h : Linked s.tree) (hmeets : s.Meets path user? n.id n dir name) (hmem : n.id ∈ dir.children) :
    relocateVerdict n dir (.str name) user? source? s = .ok .unchanged := by
  have hd := (nodeAt_found h hmeets.dest).1
  obtain ⟨hparent, hapart⟩ := parent_of_child h hmeets.node hd hmem
  have hanc : s.tree.isAncestor n dir = false := Bool.eq_false_iff.2 fun hyes => hapart ((h.isAncestor_iff hd).1 hyes)
  have hc := h.childNamed_of_mem hd hmem hmeets.node
  rw [hmeets.named] at hc
  unfold relocateVerdict
  rw [hparent]
  dsimp only
  rw [if_neg (by simp [hmeets.isDir])]
  refine bind_ok.2 ⟨true, congrArg Except.ok hmeets.valid, ?_⟩
  rw [if_neg (by simp), if_neg (by simp [hanc])]
  refine bind_ok.2 ⟨some n, hc, ?_⟩
  dsimp only
  rw [if_pos rfl]

/-- A node that is welcome is not refused. -/
theorem relocateVerdict_welcome (h : Linked s.tree) (hn : s.tree.get? n.id = some n) (hat : s.nodeAt path user? = .ok (some dir))
    (hnamed : n.name = .str name) (hw : s.Welcome path user? source? n.id) :
    relocateVerdict n dir (.str name) user? source? s = .ok .unchanged ∨
      relocateVerdict n dir (.str name) user? source? s = .ok (.granted dir) := by
  rcases hw with ⟨n', dir', own, hmeets, hmem⟩ | ⟨n', dir', own, parent, hmeets, hparent, hapart, hfree, hleave, hmay⟩
  all_goals
    cases hn.symm.trans hmeets.node
    cases hat.symm.trans hmeets.dest
    cases hnamed.symm.trans hmeets.named
  · exact .inl (relocateVerdict_inPlace h hmeets hmem)
  · exact .inr (relocateVerdict_free h hparent (nodeAt_found h hat).1 hmeets.isDir hmeets.valid hapart hfree hleave hmay)

/-! ## Deliveries -/

theorem Retreed.nodeAt (h : s.Retreed s') : s'.nodeAt path user? = (s.resolve path user? none).bind s'.tree.lookup := by
  rw [h]
  rfl

theorem Retreed.allows (h : s.Retreed s') {access : Access} (hm : m.core = n.core) : s'.Allows m access user? ↔ s.Allows n access user? := by
  unfold Allows
  rw [h.can hm]

/-- Some nodes have been moved into the directory at a path. All nodes are still there and the same, but for their places; only
those that came have another parent. The path leads to the same directory, which lies below the same ones; who came is in its
place now, and so is who was there before. -/
structure Delivers (path : String) (user? : Option Json) (came : NodeId → Prop) (s s' : Machine) : Prop where
  same : s.Retreed s'
  keys : s'.tree.nodes.keys = s.tree.nodes.keys
  kept : ∀ {a m}, s.tree.get? a = some m → ∃ m', s'.tree.get? a = some m' ∧ m.Carried m' ∧ (m'.parent = m.parent ∨ came a)
  dest : ∀ {dir?}, s.nodeAt path user? = .ok dir? → ∃ dir'?, s'.nodeAt path user? = .ok dir'? ∧ dir'?.map Node.id = dir?.map Node.id
  ways : ∀ {dir a}, s.nodeAt path user? = .ok (some dir) → s.tree.skeleton.Under a dir.id → s'.tree.skeleton.Under a dir.id
  arrived : ∀ {a}, came a → s'.InPlace path user? a
  still : ∀ {a}, s.InPlace path user? a → s'.InPlace path user? a

/-- Logging and writing records moves nothing. -/
theorem Aside.delivers (h : s.Aside s') (hnone : ∀ a, came a → s.InPlace path user? a) : s.Delivers path user? came s' := by
  have hat : s'.nodeAt path user? = s.nodeAt path user? := by
    rw [h.retreed.nodeAt, h.tree]
    rfl
  have hstill : ∀ {a}, s.InPlace path user? a → s'.InPlace path user? a := by
    rintro a ⟨n, dir, name, hmeets, hmem⟩
    exact ⟨n, dir, name, ⟨h.tree ▸ hmeets.node, hat.trans hmeets.dest, hmeets.isDir, hmeets.named, hmeets.valid⟩, hmem⟩
  exact {
    same := h.retreed
    keys := by rw [h.tree]
    kept := fun {a m} hm => ⟨m, h.tree ▸ hm, .refl m, .inl rfl⟩
    dest := fun {dir?} hd => ⟨dir?, hat.trans hd, rfl⟩
    ways := fun _ hu => h.tree ▸ hu
    arrived := fun {a} ha => hstill (hnone a ha)
    still := hstill }

theorem Delivers.trans (h : s.Delivers path user? came s₁) (h' : s₁.Delivers path user? came' s') :
    s.Delivers path user? (fun a => came a ∨ came' a) s' := by
  refine {
    same := h.same.trans h'.same
    keys := h'.keys.trans h.keys
    kept := fun {a m} hm => ?_
    dest := fun {dir?} hd => ?_
    ways := fun {dir a} hd hu => ?_
    arrived := fun {a} ha => ha.elim (fun ha => h'.still (h.arrived ha)) h'.arrived
    still := fun {a} ha => h'.still (h.still ha) }
  · obtain ⟨m₁, hm₁, hsame₁, hplace₁⟩ := h.kept hm
    obtain ⟨m', hm', hsame', hplace'⟩ := h'.kept hm₁
    refine ⟨m', hm', hsame₁.trans hsame', ?_⟩
    rcases hplace' with hplace' | hcame
    · exact hplace₁.imp hplace'.trans .inl
    · exact .inr (.inr hcame)
  · obtain ⟨dir₁?, hd₁, hid₁⟩ := h.dest hd
    obtain ⟨dir'?, hd', hid'⟩ := h'.dest hd₁
    exact ⟨dir'?, hd', hid'.trans hid₁⟩
  · obtain ⟨dir₁?, hd₁, hid₁⟩ := h.dest hd
    obtain ⟨dir₁, rfl, hid⟩ := Option.map_eq_some_iff.1 hid₁
    rw [← hid]
    exact h'.ways hd₁ (hid ▸ h.ways hd hu)

theorem Delivers.mono (h : s.Delivers path user? came s') (hsame : ∀ a, came a ↔ came' a) : s.Delivers path user? came' s' := by
  rwa [show came' = came from funext fun a => propext (hsame a).symm]

/-- Where a node has been moved into the directory under its own name, whoever met the directory meets it still. -/
theorem Meets.moved (h : Linked s.tree) (hmeets : s.Meets path user? n.id n dir name)
    (hmove : Moves s.tree s'.tree n parent dir name s.now) (hsame : s.Retreed s') (hm : s.Meets path user? a m dir own) :
    s'.Meets path user? a (m.moved n.id name parent.id dir.id s.now) (dir.moved n.id name parent.id dir.id s.now) own where
  node := hmove.get_some hm.node
  dest := by
    obtain ⟨resolved, hres, hlook⟩ := bind_ok.1 hm.dest
    rw [hsame.nodeAt, hres]
    exact hmove.lookup_moved h hlook hmove.apart
  isDir := Node.moved_isDir.trans hm.isDir
  named := by
    by_cases hid : m.id = n.id
    · have hself := h.get_self hm.node
      rw [hid, hmeets.node] at hself
      cases hself
      rw [Node.moved_self rfl, ← hm.named, hmeets.named]
    · exact (Node.moved_name hid).trans hm.named
  valid := hm.valid

/-- A node that has been moved under its own name is delivered. -/
theorem delivers_moves (h : Linked s.tree) (hmeets : s.Meets path user? n.id n dir name)
    (hmove : Moves s.tree s'.tree n parent dir name s.now) (hsame : s.Retreed s') : s.Delivers path user? (· = n.id) s' := by
  have hmeets' := hmeets.moved h hmove hsame hmeets
  have hcame : s'.InPlace path user? n.id := by
    refine ⟨_, _, name, hmeets', ?_⟩
    rw [Node.moved_children hmove.target_ne]
    simp
  refine {
    same := hsame
    keys := hmove.keys
    kept := fun {a m} hm => ⟨_, hmove.get_some hm, Node.carried_moved fun hid => ?_, ?_⟩
    dest := fun {dir?} hd => ?_
    ways := fun {dir' a} hd hu => ?_
    arrived := fun {a} ha => ha ▸ hcame
    still := ?_ }
  · have hself := h.get_self hm
    rw [hid, hmove.node] at hself
    cases hself
    exact hmeets.named
  · by_cases hid : m.id = n.id
    · exact .inr ((h.id_eq hm).symm.trans hid)
    · exact .inl (Node.moved_parent hid)
  · cases hd.symm.trans hmeets.dest
    exact ⟨_, hmeets'.dest, congrArg some Node.moved_id⟩
  · cases hd.symm.trans hmeets.dest
    exact hmove.under_apart h hmove.apart hu
  · rintro a ⟨k, dir', own, hk, hmem⟩
    cases hmeets.dest.symm.trans hk.dest
    by_cases hid : a = n.id
    · exact hid ▸ hcame
    · exact ⟨_, _, own, hmeets.moved h hmove hsame hk, (Node.mem_moved_children hmove.target_ne hid).2 hmem⟩

/-! ## Who may come later might have come before -/

/-- A node that has not come has the same parent as before. -/
theorem Delivers.child_before (h : Linked s.tree) (h' : Linked s'.tree) (hdel : s.Delivers path user? came s') (hnot : ¬ came a)
    {d d' : Node} (hd : s.tree.get? d.id = some d) (hd' : s'.tree.get? d.id = some d') (hm : s.tree.get? a = some m) :
    a ∈ d'.children ↔ a ∈ d.children := by
  obtain ⟨m', hm', -, hplace⟩ := hdel.kept hm
  have hparent := hplace.resolve_right hnot
  rw [← h.above_iff hd, ← h'.above_iff hd']
  constructor
  · rintro ⟨x, hx, hup, hnull⟩
    obtain ⟨k, hk, rfl⟩ := skeleton_some.1 hx
    cases hm'.symm.trans hk
    exact ⟨m.joint, skeleton_some.2 ⟨m, hm, rfl⟩, hparent.symm.trans hup, hnull⟩
  · rintro ⟨x, hx, hup, hnull⟩
    obtain ⟨k, hk, rfl⟩ := skeleton_some.1 hx
    cases hm.symm.trans hk
    exact ⟨m'.joint, skeleton_some.2 ⟨m', hm', rfl⟩, hparent.trans hup, hnull⟩

/-- No node appears. -/
theorem Delivers.present (hdel : s.Delivers path user? came s') (hm : s'.tree.get? a = some m) : ∃ o, s.tree.get? a = some o :=
  mem_keys_iff.1 (hdel.keys ▸ mem_keys_iff.2 ⟨m, hm⟩)

/-- A node that meets the directory met it before. -/
theorem Delivers.meets_before (h : Linked s.tree) (h' : Linked s'.tree) (hdel : s.Delivers path user? came s') {dir? : Option Node}
    (hat : s.nodeAt path user? = .ok dir?) {n' dir' : Node} (hmeets : s'.Meets path user? id n' dir' name) :
    ∃ n dir, s.Meets path user? id n dir name ∧ n.Carried n' ∧ dir.Carried dir' ∧ (n'.parent = n.parent ∨ came id) := by
  obtain ⟨n, hn⟩ := hdel.present hmeets.node
  obtain ⟨n₁, hn₁, hsame, hplace⟩ := hdel.kept hn
  cases hmeets.node.symm.trans hn₁
  obtain ⟨dir'?, hdest, hids⟩ := hdel.dest hat
  cases hmeets.dest.symm.trans hdest
  obtain ⟨dir, rfl, hid⟩ := Option.map_eq_some_iff.1 hids.symm
  obtain ⟨dir₁, hd₁, hdsame, -⟩ := hdel.kept (nodeAt_found h hat).1
  rw [hid, (nodeAt_found h' hmeets.dest).1] at hd₁
  cases hd₁
  exact ⟨n, dir, ⟨hn, hat, hdsame.isDir.symm.trans hmeets.isDir, hsame.name.symm.trans hmeets.named, hmeets.valid⟩, hsame, hdsame, hplace⟩

/-- A name that is free in the directory was free before: what has it is listed still. -/
theorem Delivers.free_before (h : Linked s.tree) (h' : Linked s'.tree) (hdel : s.Delivers path user? came s') {dir' : Node}
    (hd : s.tree.get? dir.id = some dir) (hat' : s'.nodeAt path user? = .ok (some dir')) (hid : dir'.id = dir.id)
    (hfree : s'.tree.childNamed dir' name = .ok none) : s.tree.childNamed dir name = .ok none := by
  have hd' := (nodeAt_found h' hat').1
  rcases h.childNamed_cases hd (.str name) with ⟨hnone, -⟩ | ⟨c, -, hmem, hc, hname⟩
  · exact hnone
  obtain ⟨c', hc', hsame, -⟩ := hdel.kept hc
  have hmem' : c.id ∈ dir'.children := by
    by_cases hcame : came c.id
    · obtain ⟨_, _, _, hmeets, hmem'⟩ := hdel.arrived hcame
      cases hat'.symm.trans hmeets.dest
      exact hmem'
    · exact (hdel.child_before h h' hcame hd (hid ▸ hd') hc).2 hmem
  exact absurd (hsame.name.trans hname) (h'.childNamed_none hd' hfree c.id hmem' _ (skeleton_some.2 ⟨c', hc', rfl⟩))

/-- Whoever is welcome after others have come was welcome before. -/
theorem Delivers.welcome_before (h : Linked s.tree) (h' : Linked s'.tree) (hdel : s.Delivers path user? came s') {dir? : Option Node}
    (hat : s.nodeAt path user? = .ok dir?) (hnot : ¬ came id) (hw : s'.Welcome path user? source? id) :
    s.Welcome path user? source? id := by
  rcases hw with ⟨n', dir', name, hmeets', hmem'⟩ | ⟨n', dir', name, parent', hmeets', hparent', hapart', hfree', hleave', hmay'⟩
  · obtain ⟨n, dir, hmeets, -, hdsame, -⟩ := hdel.meets_before h h' hat hmeets'
    have hd' := (nodeAt_found h' hmeets'.dest).1
    refine .inl ⟨n, dir, name, hmeets, ?_⟩
    exact (hdel.child_before h h' hnot (nodeAt_found h hmeets.dest).1 (hdsame.id ▸ hd') hmeets.node).1 hmem'
  · obtain ⟨n, dir, hmeets, hsame, hdsame, hplace⟩ := hdel.meets_before h h' hat hmeets'
    have hd := (nodeAt_found h hmeets.dest).1
    obtain ⟨hp', x, hx, hup, hnull⟩ := (h'.parentOf_iff hmeets'.node).1 hparent'
    obtain ⟨k, hk, rfl⟩ := skeleton_some.1 hx
    cases hmeets'.node.symm.trans hk
    obtain ⟨parent, hp⟩ := hdel.present hp'
    obtain ⟨p₁, hp₁, hpsame, -⟩ := hdel.kept hp
    cases hp'.symm.trans hp₁
    refine .inr ⟨n, dir, name, parent, hmeets, (h.parentOf_iff hmeets.node).2 ⟨hpsame.id ▸ hp, n.joint, ?_, ?_, hpsame.id ▸ hnull⟩, ?_,
      hdel.free_before h h' hd hmeets'.dest hdsame.id hfree', (hdel.same.allows hpsame.core).1 hleave',
      (hdel.same.allows hdsame.core).1 hmay'⟩
    · exact skeleton_some.2 ⟨n, hmeets.node, rfl⟩
    · exact (hplace.resolve_right hnot).symm.trans (hup.trans hpsame.id)
    · exact fun hu => hapart' (hdsame.id ▸ hdel.ways hmeets.dest hu)

/-! ## One move -/

/-- A move is always answered: it is made if the node is welcome, and changes nothing but the log if it is not. -/
theorem relocate_answers (hs : s.Sound) (hr : s.Regular) (hu : UserArg user?) (hv : UserArg source?) (hn : s.tree.get? n.id = some n)
    (hat : s.nodeAt path user? = .ok (some dir)) (hnamed : n.name = .str name) :
    ∃ arrived s', (relocate n dir (.str name) user? source?).run s = (.ok arrived, s') ∧
      (arrived = true ↔ s.Welcome path user? source? n.id) ∧ s.Delivers path user? (fun a => a = n.id ∧ arrived = true) s' := by
  have hl := hs.linked
  obtain ⟨hd, hi⟩ := nodeAt_found hl hat
  obtain ⟨v, hverdict⟩ : ∃ v, relocateVerdict n dir (.str name) user? source? s = .ok v :=
    hr.relocateVerdict_ok hl hn hd hu hv
  have hyes : ∀ {v}, relocateVerdict n dir (.str name) user? source? s = .ok v → s.Welcome path user? source? n.id →
      v = .unchanged ∨ v = .granted dir := fun hv' hw =>
    (relocateVerdict_welcome hl hn hat hnamed hw).imp (fun h => Except.ok.inj (hv'.symm.trans h)) fun h => Except.ok.inj (hv'.symm.trans h)
  have hstill : ∀ {s'}, s.Aside s' → s.Delivers path user? (fun a => a = n.id ∧ false = true) s' := fun ha =>
    ha.delivers fun _ hcame => nomatch hcame.2
  have hno : (∀ v, relocateVerdict n dir (.str name) user? source? s = .ok v → v ≠ .unchanged ∧ v ≠ .granted dir) →
      (false = true ↔ s.Welcome path user? source? n.id) := fun hne =>
    ⟨nofun, fun hw => ((hyes hverdict hw).elim (hne _ hverdict).1 (hne _ hverdict).2).elim⟩
  cases v with
  | refused => exact ⟨false, s, next_ask hverdict rfl, hno (by simp [hverdict]), hstill (.refl s)⟩
  | denied what who? => exact ⟨false, _, next_ask hverdict rfl, hno (by simp [hverdict]), hstill aside_logged⟩
  | unchanged =>
    obtain ⟨hisDir, hvalid, c, hc, hcn⟩ := relocateVerdict_unchanged hverdict
    have hplace : s.InPlace path user? n.id :=
      ⟨n, dir, name, ⟨hn, hat, hisDir, hnamed, hvalid⟩, hcn ▸ (hl.childNamed_some hd hc).1⟩
    exact ⟨true, s, next_ask hverdict rfl, iff_of_true rfl (.inl hplace), (Aside.refl s).delivers fun a ha => ha.1 ▸ hplace⟩
  | granted dest =>
    obtain ⟨rfl, hisDir, hvalid, hanc, hfree, hmay, parent, hp, hleave⟩ := relocateVerdict_granted hverdict
    have hmeets : s.Meets path user? n.id n dest name := ⟨hn, hat, hisDir, hnamed, validName_str hvalid⟩
    have hapart := apart_of_inDirectories hl hn hd hi hisDir hanc
    obtain ⟨parent', t, message, hmove, hmade⟩ := relocate_granted hl hn hd hapart hverdict
    obtain ⟨s', hend⟩ : ∃ s', (changed message user?).run { s with tree := t } = (.ok ⟨⟩, s') :=
      changed_iff.2 (flush_tree.2 hr.run_flush)
    have haside := aside_changed hend
    have hmoved : Moves s.tree s'.tree n parent' dest name s.now := by
      rw [haside.tree]
      exact hmove
    refine ⟨true, s', hmade.trans (next hend rfl), iff_of_true rfl (.inr ⟨n, dest, name, parent, hmeets, hp, hapart, hfree, hleave, hmay⟩), ?_⟩
    exact (delivers_moves hl hmeets hmoved haside.retreed).mono fun a => (and_iff_left rfl).symm

/-- So is the move of the node of an id. -/
theorem moveById_answers (hs : s.Sound) (hr : s.Regular) (hu : UserArg user?) (hv : UserArg source?) :
    ∃ arrived s', (moveById id path user? source?).run s = (.ok arrived, s') ∧
      (arrived = true ↔ s.Welcome path user? source? id) ∧ s.Delivers path user? (fun a => a = id ∧ arrived = true) s' := by
  have hl := hs.linked
  obtain ⟨dir?, hat⟩ := hr.nodeAt_ok hl hu path
  obtain ⟨root, hroot, -⟩ := hl.root_ok
  have hrefused : (moveById id path user? source?).run s = (.ok false, s) → ¬ s.Welcome path user? source? id →
      ∃ arrived s', (moveById id path user? source?).run s = (.ok arrived, s') ∧
        (arrived = true ↔ s.Welcome path user? source? id) ∧ s.Delivers path user? (fun a => a = id ∧ arrived = true) s' :=
    fun hrun hno => ⟨false, s, hrun, iff_of_false nofun hno, (Aside.refl s).delivers fun _ hcame => nomatch hcame.2⟩
  rcases hget : s.tree.get? id with _ | n
  · refine hrefused (Act.next (run_get s) (Act.next_given hat ?_)) ?_
    · rw [hget]
      rfl
    · rintro (⟨n, dir, name, hmeets, -⟩ | ⟨n, dir, name, parent, hmeets, -⟩) <;> cases hget.symm.trans hmeets.node
  rcases dir? with _ | dir
  · refine hrefused (Act.next (run_get s) (Act.next_given hat ?_)) ?_
    · rw [hget]
      rfl
    · rintro (⟨n, dir, name, hmeets, -⟩ | ⟨n, dir, name, parent, hmeets, -⟩) <;> cases hat.symm.trans hmeets.dest
  obtain rfl := hl.id_eq hget
  obtain ⟨name, hname⟩ : n.name.IsText := (hl.written (bare_some.2 ⟨n, hget, rfl⟩)).name
  by_cases hid : n.id = root.id
  · refine hrefused (Act.next (run_get s) (Act.next_given hat ?_)) fun hw => hw.ne_root hl hroot hid
    rw [hget]
    refine next_given hroot ?_
    rw [if_pos (beq_iff_eq.2 hid)]
    rfl
  · obtain ⟨arrived, s', hrun, hwelcome, hdel⟩ := relocate_answers hs hr hu hv hget hat hname
    refine ⟨arrived, s', Act.next (run_get s) (Act.next_given hat ?_), hwelcome, hdel⟩
    rw [hget]
    refine next_given hroot ?_
    rw [if_neg (by simpa using hid), hname]
    exact hrun

/-! ## Move after move -/

/-- Those whose item has arrived. -/
def Came (arrivals : List Arrival) (a : NodeId) : Prop := ∃ x ∈ arrivals, x.item.node = a ∧ x.arrived = true

/-- Items that a user has picked have been moved one after the other. Those that have arrived were welcome from the beginning,
those that were in their place have arrived, and of the same node always the same has become. -/
structure Unloads (path : String) (user? : Option Json) (source : Json) (items : List ClipboardItem) (arrivals : List Arrival)
    (s s' : Machine) : Prop where
  items : arrivals.map Arrival.item = items
  delivers : s.Delivers path user? (Came arrivals) s'
  welcome : ∀ x ∈ arrivals, x.arrived = true → s.Welcome path user? (some source) x.item.node
  settled : ∀ x ∈ arrivals, s.InPlace path user? x.item.node → x.arrived = true
  alike : ∀ x ∈ arrivals, ∀ y ∈ arrivals, x.item.node = y.item.node → x.arrived = y.arrived

theorem unloads_nil {source : Json} : Unloads path user? source [] [] s s where
  items := rfl
  delivers := (Aside.refl s).delivers fun _ ⟨_, hx, _⟩ => nomatch hx
  welcome := nofun
  settled := nofun
  alike := nofun

/-- One more item is moved first. -/
theorem Unloads.cons {source : Json} {x : Arrival} {items : List ClipboardItem} {arrivals : List Arrival} (h : Linked s.tree)
    (h₁ : Linked s₁.tree) {dir? : Option Node} (hat : s.nodeAt path user? = .ok dir?)
    (hwelcome : x.arrived = true ↔ s.Welcome path user? (some source) x.item.node)
    (hdel : s.Delivers path user? (fun a => a = x.item.node ∧ x.arrived = true) s₁)
    (hrest : Unloads path user? source items arrivals s₁ s') : Unloads path user? source (x.item :: items) (x :: arrivals) s s' := by
  -- An item that arrives later was welcome before, whether the first one is the same or another one.
  have hbefore : ∀ y ∈ arrivals, y.arrived = true → s.Welcome path user? (some source) y.item.node := fun y hy harrived => by
    by_cases hcame : y.item.node = x.item.node ∧ x.arrived = true
    · exact hcame.1 ▸ hwelcome.1 hcame.2
    · exact hdel.welcome_before h h₁ hat hcame (hrest.welcome y hy harrived)
  have hlike : ∀ y ∈ arrivals, x.item.node = y.item.node → x.arrived = y.arrived := fun y hy hnode => by
    rw [Bool.eq_iff_iff]
    exact ⟨fun hx => hrest.settled y hy (hnode ▸ hdel.arrived ⟨rfl, hx⟩), fun harrived => hwelcome.2 (hnode ▸ hbefore y hy harrived)⟩
  refine {
    items := congrArg (x.item :: ·) hrest.items
    delivers := (hdel.trans hrest.delivers).mono fun a => ?_
    welcome := List.forall_mem_cons.2 ⟨hwelcome.1, hbefore⟩
    settled := List.forall_mem_cons.2 ⟨fun hplace => hwelcome.2 (.inl hplace), fun y hy hplace => hrest.settled y hy (hdel.still hplace)⟩
    alike := ?_ }
  · unfold Came
    rw [List.exists_mem_cons_iff, eq_comm]
  · rintro y hy z hz hnode
    rcases List.mem_cons.1 hy with rfl | hy' <;> rcases List.mem_cons.1 hz with rfl | hz'
    · rfl
    · exact hlike z hz' hnode
    · exact (hlike y hy' hnode.symm).symm
    · exact hrest.alike y hy' z hz' hnode

theorem keeps_pasteItem (hu : UserArg user?) {i : ClipboardItem} (hs : s.Sound) (hr : s.Regular) {r : Except Fault Bool}
    (hrun : (pasteItem kind path user? i).run s = (r, s')) : s'.Sound ∧ s'.Regular :=
  ⟨(trail_pasteItem hs.linked hrun).sound hs, (tidy_pasteItem hu hr.tidyWith hrun).regular⟩

/-- One more item has been pasted first. -/
theorem run_pasteEach_next {i : ClipboardItem} {rest : List ClipboardItem} {arrived : Bool} {arrivals : List Arrival}
    (hitem : (pasteItem kind path user? i).run s = (.ok arrived, s₁)) (hrest : (pasteEach kind path user? rest).run s₁ = (.ok arrivals, s')) :
    (pasteEach kind path user? (i :: rest)).run s = (.ok ({ item := i, arrived, size := extent s.tree i.node } :: arrivals), s') := by
  have hnoted : (pasteNoted kind path user? i).run s = (.ok { item := i, arrived, size := extent s.tree i.node }, s₁) :=
    next (run_get s) (next hitem rfl)
  unfold pasteEach at hrest ⊢
  rw [List.mapM_cons]
  exact next hnoted (next hrest rfl)

/-- What has been cut is pasted in any case. -/
theorem run_pasteEach_cut {source : Json} (hu : UserArg user?) : ∀ {items : List ClipboardItem} {s : Machine}, s.Sound → s.Regular →
    (∀ i ∈ items, i.node.IsText ∧ i.user.IsText ∧ i.user = source) → ∃ arrivals s',
      (pasteEach .cut path user? items).run s = (.ok arrivals, s') ∧ s'.Sound ∧ s'.Regular ∧
        Unloads path user? source items arrivals s s'
  | [], s, hs, hr, _ => ⟨[], s, rfl, hs, hr, unloads_nil⟩
  | i :: rest, s, hs, hr, hitems => by
    obtain ⟨⟨⟨text, htext⟩, hsource, rfl⟩, hrest⟩ := List.forall_mem_cons.1 hitems
    have hkey : ¬ (!i.node.isKey) = true := by
      rw [htext]
      exact Bool.false_ne_true
    obtain ⟨arrived, s₁, hrun, hwelcome, hdel⟩ : ∃ arrived s₁, (pasteItem .cut path user? i).run s = (.ok arrived, s₁) ∧
        (arrived = true ↔ s.Welcome path user? (some i.user) i.node) ∧
          s.Delivers path user? (fun a => a = i.node ∧ arrived = true) s₁ := by
      unfold pasteItem
      rw [if_neg hkey]
      exact moveById_answers hs hr hu fun u hu => by cases hu; exact .inr hsource
    obtain ⟨hs₁, hr₁⟩ := keeps_pasteItem hu hs hr hrun
    obtain ⟨dir?, hat⟩ := hr.nodeAt_ok hs.linked hu path
    obtain ⟨arrivals, s', hrun', hs', hr', hunloads⟩ := run_pasteEach_cut hu hs₁ hr₁ hrest
    exact ⟨_, s', run_pasteEach_next hrun hrun', hs', hr',
      hunloads.cons (x := { item := i, arrived, size := extent s.tree i.node }) hs.linked hs₁.linked hat hwelcome hdel⟩

/-! ## The whole paste -/

theorem run_pasteItems {items : List ClipboardItem} {arrivals : List Arrival}
    (hrun : (pasteEach kind path user? items).run s = (.ok arrivals, s')) :
    (pasteItems kind path user? items).run s = (.ok (arrivals.countP Arrival.arrived), s') := by
  rw [pasteItems_eq, run_map, hrun]

/-- Emptying the clipboard changes nothing else. -/
theorem run_clearClipboard (hr : s.Regular) :
    ∃ s', clearClipboard.run s = (.ok ⟨⟩, s') ∧ s'.tree = s.tree ∧ s'.clipboard = {} ∧ Aside { s with clipboard := {} } s' := by
  have hr' : Regular { s with clipboard := {} } := (hr.tidyWith.withClipboard (c := {}) nofun).regular
  obtain ⟨s', hrun⟩ := hr'.run_flush
  have haside := aside_flush hrun
  refine ⟨s', next (run_modify ..) hrun, haside.tree, ?_, haside⟩
  rw [haside.same]

/-- A paste of what has been cut loses nothing. There are the same nodes, and they have kept all but their places. Each item that
has been counted lies in the directory, each other one lies where it lay; and the clipboard is emptied if any has been counted. -/
structure CutPasted (path : String) (user? : Option Json) (arrivals : List Arrival) (s s' : Machine) : Prop where
  items : arrivals.map Arrival.item = s.clipboard.items
  keys : s'.tree.nodes.keys = s.tree.nodes.keys
  kept : ∀ {a m}, s.tree.get? a = some m → ∃ m', s'.tree.get? a = some m' ∧ m.Carried m' ∧ (m'.parent = m.parent ∨ Came arrivals a)
  dest : ∀ {dir?}, s.nodeAt path user? = .ok dir? → ∃ dir'?, s'.nodeAt path user? = .ok dir'? ∧ dir'?.map Node.id = dir?.map Node.id
  counted : ∀ x ∈ arrivals, x.arrived = true → s'.InPlace path user? x.item.node
  left : ∀ x ∈ arrivals, x.arrived = false → ∀ {m}, s.tree.get? x.item.node = some m → ∃ m', s'.tree.get? x.item.node = some m' ∧
    m'.name = m.name ∧ m'.parent = m.parent ∧ ∀ {p}, s'.tree.get? m.parent = some p → x.item.node ∈ p.children
  clipboard : s'.clipboard = if arrivals.countP Arrival.arrived = 0 then s.clipboard else {}

/-- Once the items have been moved, nothing happens to the tree any more. -/
theorem Unloads.pasted {source : Json} {arrivals : List Arrival} (h₁ : Linked s₁.tree)
    (hunloads : Unloads path user? source s.clipboard.items arrivals s s₁) (htree : s'.tree = s₁.tree)
    (hat : s'.nodeAt path user? = s₁.nodeAt path user?)
    (hclipboard : s'.clipboard = if arrivals.countP Arrival.arrived = 0 then s.clipboard else {}) : CutPasted path user? arrivals s s' := by
  have hdel := hunloads.delivers
  refine {
    items := hunloads.items
    keys := htree ▸ hdel.keys
    kept := fun {a m} hm => htree ▸ hdel.kept hm
    dest := fun {dir?} hd => hat ▸ hdel.dest hd
    counted := fun x hx harrived => ?_
    left := fun x hx hno m hm => ?_
    clipboard := hclipboard }
  · obtain ⟨n, dir, name, hmeets, hmem⟩ := hdel.arrived ⟨x, hx, rfl, harrived⟩
    exact ⟨n, dir, name, ⟨htree ▸ hmeets.node, hat.trans hmeets.dest, hmeets.isDir, hmeets.named, hmeets.valid⟩, hmem⟩
  · obtain ⟨m', hm', hsame, hplace⟩ := hdel.kept hm
    -- No other item of the same node has arrived either.
    have hparent : m'.parent = m.parent := hplace.resolve_right fun ⟨y, hy, hnode, hyes⟩ => by
      rw [hunloads.alike y hy x hx hnode, hno] at hyes
      cases hyes
    refine ⟨m', htree ▸ hm', hsame.name, hparent, fun {p} hp => ?_⟩
    rw [htree] at hp
    obtain ⟨text, htext⟩ := (h₁.written (bare_some.2 ⟨p, hp, rfl⟩)).id
    refine (h₁.above_iff hp).1 ⟨m'.joint, skeleton_some.2 ⟨m', hm', rfl⟩, hparent, ?_⟩
    rw [htext]
    exact nofun

/-- What has been cut by one user is pasted, whoever pastes it and wherever to. -/
theorem run_paste_cut {ids : List NodeId} {source : Json} (hs : s.Sound) (hr : s.Regular) (hu : UserArg user?)
    (hpicked : s.clipboard = { items := ids.map fun node => { node, user := source }, kind := .cut }) :
    ∃ arrivals s₁ s', (pasteEach .cut path user? s.clipboard.items).run s = (.ok arrivals, s₁) ∧
      (paste path user?).run s = (.ok (arrivals.countP Arrival.arrived), s') ∧ CutPasted path user? arrivals s s' := by
  have hkind : s.clipboard.kind = .cut := by rw [hpicked]
  have hitems : ∀ i ∈ s.clipboard.items, i.node.IsText ∧ i.user.IsText ∧ i.user = source := fun i hi => by
    refine ⟨(hr.clipboard i hi).1, (hr.clipboard i hi).2, ?_⟩
    rw [hpicked] at hi
    obtain ⟨node, -, rfl⟩ := List.mem_map.1 hi
    rfl
  obtain ⟨arrivals, s₁, hrun, hs₁, hr₁, hunloads⟩ : ∃ arrivals s₁,
      (pasteEach .cut path user? s.clipboard.items).run s = (.ok arrivals, s₁) ∧ s₁.Sound ∧ s₁.Regular ∧
        Unloads path user? source s.clipboard.items arrivals s s₁ := run_pasteEach_cut hu hs hr hitems
  have hclipboard : s₁.clipboard = s.clipboard := by rw [hunloads.delivers.same]
  have hpaste : ∀ {s'}, (do
      if s.clipboard.kind = .cut && arrivals.countP Arrival.arrived != 0 then clearClipboard
      pure (arrivals.countP Arrival.arrived) : Act Nat).run s₁ = (.ok (arrivals.countP Arrival.arrived), s') →
        (paste path user?).run s = (.ok (arrivals.countP Arrival.arrived), s') := fun hrest => by
    refine next (run_get s) ?_
    dsimp only
    rw [hkind] at hrest ⊢
    exact next (run_pasteItems hrun) hrest
  by_cases hzero : arrivals.countP Arrival.arrived = 0
  · refine ⟨arrivals, s₁, s₁, hrun, hpaste ?_, hunloads.pasted hs₁.linked rfl rfl ?_⟩
    · rw [if_neg (by simp [hzero])]
      rfl
    · rw [if_pos hzero, hclipboard]
  · obtain ⟨s', hclear, htree, hempty, haside⟩ := run_clearClipboard hr₁
    refine ⟨arrivals, s₁, s', hrun, hpaste ?_, hunloads.pasted hs₁.linked htree ?_ ?_⟩
    · rw [if_pos (by simp [hkind, hzero])]
      exact next hclear rfl
    · rw [haside.same]
      rfl
    · rw [if_neg hzero, hempty]

end Machine

end SimUnix
