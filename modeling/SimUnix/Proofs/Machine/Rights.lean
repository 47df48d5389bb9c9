/-
The rights that calls on files need, told without the checks: which directories must be written to, what must be read, and
whose a node must be, where a call makes sense. A check denies something to somebody exactly where one of these rights is
lacking, and to one who lacks it.
-/
import SimUnix.Proofs.Machine.Calls
import SimUnix.Proofs.Machine.Telling

namespace SimUnix.Machine

open Tree Act

/-! ## Rights -/

/-- A right, and who needs it. -/
inductive Need where
  | access (n : Node) (kind : Access) (who? : Option Json)
  /-- To change the permissions of a node. -/
  | ownership (n : Node) (who? : Option Json)
  /-- To change the owner of a node. -/
  | superuser (who? : Option Json)

/-- Who needs a right. -/
def Need.who? : Need → Option Json
  | access _ _ who? | ownership _ who? | superuser who? => who?

/-- A right that is needed is lacking. In safe mode nobody has power over permissions and owners. -/
def Need.Lacking (s : Machine) : Need → Prop
  | access n kind who? => s.can n kind who? = .ok false
  | ownership n who? => s.safeMode = true ∨ s.actor who? ≠ rootName ∧ n.owner ≠ s.actor who?
  | superuser who? => s.safeMode = true ∨ s.actor who? ≠ rootName

/-- Somebody is refused for want of a right that is needed. -/
def Refuses (s : Machine) (needs : Need → Prop) (who : Json) : Prop :=
  ∃ need, needs need ∧ need.Lacking s ∧ who = s.actor need.who?

/-! ## What is needed -/

/-- A node can be made in a directory under a name. -/
structure Vacant (s : Machine) (path name : String) (user? : Option Json) (dir : Node) : Prop where
  found : s.nodeAt path user? = .ok (some dir)
  isDir : dir.isDir = true
  valid : Path.validName name = true
  free : s.tree.childNamed dir name = .ok none

/-- A creation writes to the directory. -/
inductive CreationNeeds (s : Machine) (path name : String) (user? : Option Json) : Need → Prop
  | write {dir : Node} (vacant : s.Vacant path name user? dir) : CreationNeeds s path name user? (.access dir .write user?)

/-- A file is written to, or made where nothing is found. -/
inductive WritingNeeds (s : Machine) (path : String) (user? : Option Json) : Need → Prop
  | write {n : Node} (found : s.nodeAt path user? = .ok (some n)) (isFile : n.isDir = false) :
      WritingNeeds s path user? (.access n .write user?)
  | create {resolved : String} {need : Need} (resolves : s.resolve path user? none = .ok resolved)
      (free : s.tree.lookup resolved = .ok none)
      (creation : s.CreationNeeds (parentOrRoot (Path.split resolved).1) (Path.split resolved).2 user? need) :
      WritingNeeds s path user? need

/-- A removal writes to the directory that the node lies in. -/
inductive RemovalNeeds (s : Machine) (path : String) (user? : Option Json) : Need → Prop
  | leave {n parent : Node} (found : s.nodeAt path user? = .ok (some n)) (below : s.tree.parentOf? n = some parent) :
      RemovalNeeds s path user? (.access parent .write user?)

/-- A node that lies in a directory can be put into another one under a name. -/
structure Movable (s : Machine) (n parent dir : Node) (name : Json) : Prop where
  below : s.tree.parentOf? n = some parent
  isDir : dir.isDir = true
  valid : validName name = .ok true
  apart : n.isDir = true → s.tree.isAncestor n dir = false
  free : s.tree.childNamed dir name = .ok none

/-- Putting a node into a directory writes to that one and to the one that the node leaves. -/
inductive RelocationNeeds (s : Machine) (n dir : Node) (name : Json) (user? source? : Option Json) : Need → Prop
  | leave {parent : Node} (movable : s.Movable n parent dir name) :
      RelocationNeeds s n dir name user? source? (.access parent .write (firstName? source? user?))
  | enter {parent : Node} (movable : s.Movable n parent dir name) :
      RelocationNeeds s n dir name user? source? (.access dir .write user?)

/-- The directory that a move leads into, and the name that it gives: the path of another directory means into it, any other
path is the new place itself. -/
inductive LeadsInto (s : Machine) (n : Node) (target : String) (user? : Option Json) : Node → Json → Prop
  | into {dir : Node} (found : s.nodeAt target user? = .ok (some dir)) (isDir : dir.isDir = true) (other : dir.id ≠ n.id) :
      LeadsInto s n target user? dir n.name
  | onto {dir : Node} {resolved : String}
      (nowhere : ∀ d, s.nodeAt target user? = .ok (some d) → d.isDir = true → d.id = n.id)
      (resolves : s.resolve target user? none = .ok resolved)
      (found : s.tree.lookup (parentOrRoot (Path.split resolved).1) = .ok (some dir)) :
      LeadsInto s n target user? dir (.str (Path.split resolved).2)

/-- A move finds its node and the directory by their paths. -/
inductive MoveNeeds (s : Machine) (source target : String) (user? : Option Json) : Need → Prop
  | move {n dir : Node} {name : Json} {need : Need} (found : s.nodeAt source user? = .ok (some n))
      (leads : s.LeadsInto n target user? dir name) (relocation : s.RelocationNeeds n dir name user? user? need) :
      MoveNeeds s source target user? need

/-- A move of the node of an id. -/
inductive MoveByIdNeeds (s : Machine) (id : NodeId) (path : String) (user? source? : Option Json) : Need → Prop
  | move {n dir : Node} {need : Need} (node : s.tree.get? id = some n) (found : s.nodeAt path user? = .ok (some dir))
      (relocation : s.RelocationNeeds n dir n.name user? source? need) : MoveByIdNeeds s id path user? source? need

/-- A copy reads the node and writes to the directory. -/
inductive CopyNeeds (s : Machine) (id : NodeId) (path : String) (user? source? : Option Json) : Need → Prop
  | read {n dir : Node} (node : s.tree.get? id = some n) (found : s.nodeAt path user? = .ok (some dir)) (isDir : dir.isDir = true) :
      CopyNeeds s id path user? source? (.access n .read (firstName? source? user?))
  | enter {n dir : Node} (node : s.tree.get? id = some n) (found : s.nodeAt path user? = .ok (some dir)) (isDir : dir.isDir = true) :
      CopyNeeds s id path user? source? (.access dir .write user?)

/-- The trash is made in the home where it is missing. -/
inductive EnsuringNeeds (s : Machine) (user? : Option Json) : Need → Prop
  | make {home : Node} {place : String} (lives : (s.homePath user?).bind Json.asOwnText = .ok place)
      (there : s.tree.lookup place = .ok (some home)) (isDir : home.isDir = true)
      (missing : s.tree.childNamed home trashName = .ok none) : EnsuringNeeds s user? (.access home .write user?)

/-- What is moved into the trash leaves its directory and enters the trash, once there is one. -/
inductive TrashNeeds (s : Machine) (path : String) (user? : Option Json) : Need → Prop
  | leave {need : Need} (removal : s.RemovalNeeds path user? need) : TrashNeeds s path user? need
  | make {n parent : Node} {need : Need} (found : s.nodeAt path user? = .ok (some n)) (below : s.tree.parentOf? n = some parent)
      (ensuring : s.EnsuringNeeds user? need) : TrashNeeds s path user? need
  | enter {n parent trash : Node} {name : String} (found : s.nodeAt path user? = .ok (some n)) (has : s.HasTrash user? trash)
      (apart : s.tree.isAncestor n trash = false) (outside : n.parent ≠ trash.id)
      (named : uniqueName s.tree trash n.name.plain = .ok name) (movable : s.Movable n parent trash (.str name)) :
      TrashNeeds s path user? (.access trash .write user?)

/-- Emptying the trash writes to it. -/
inductive EmptyingNeeds (s : Machine) (user? : Option Json) : Need → Prop
  | write {trash : Node} (found : (s.trashPath user?).bind s.tree.lookup = .ok (some trash)) (isDir : trash.isDir = true) :
      EmptyingNeeds s user? (.access trash .write user?)

/-- The permissions of a node are its owner's business, and root's. -/
inductive ChmodNeeds (s : Machine) (path : String) (user? : Option Json) : Need → Prop
  | own {n : Node} (found : s.nodeAt path user? = .ok (some n)) : ChmodNeeds s path user? (.ownership n user?)

/-- The owner of a node is root's business. -/
inductive ChownNeeds (s : Machine) (path : String) (user? : Option Json) : Need → Prop
  | root {n : Node} (found : s.nodeAt path user? = .ok (some n)) : ChownNeeds s path user? (.superuser user?)

/-- The rights that a call needs that makes sense. -/
def FileCall.Needs (s : Machine) (user? source? : Option Json) : FileCall → Need → Prop
  | createFile dir name _ _ | createDirectory dir name => s.CreationNeeds dir name user?
  | writeFile path _ | appendFile path _ => s.WritingNeeds path user?
  | deleteNode path => s.RemovalNeeds path user?
  | moveToTrash path => s.TrashNeeds path user?
  | emptyTrash => s.EmptyingNeeds user?
  | moveNode source target => s.MoveNeeds source target user?
  | moveById id dir => s.MoveByIdNeeds id dir user? source?
  | copyById id dir _ => s.CopyNeeds id dir user? source?
  | chmod path _ => s.ChmodNeeds path user?
  | chown path _ _ => s.ChownNeeds path user?

/-! ## Checks -/

/-- A check denies something exactly for want of a right that is needed, and to one who lacks it. -/
structure Weighs {β : Type} (s : Machine) (needs : Need → Prop) (v : Except Fault (Verdict β)) : Prop where
  lacking : ∀ {what : String} {who? : Option Json}, v = .ok (.denied what who?) →
    ∃ need, needs need ∧ need.Lacking s ∧ need.who? = who?
  denied : ∀ {need : Need}, needs need → need.Lacking s → ∃ what who?, v = .ok (.denied what who?)

variable {s : Machine} {n dir parent : Node} {user? source? : Option Json} {path name : String} {id : NodeId}

theorem weighs_create (hl : Linked s.tree) : s.Weighs (s.CreationNeeds path name user?) (createVerdict path name user? s) where
  lacking hv := by
    unfold createVerdict at hv
    obtain ⟨found?, hfound, hv⟩ := bind_ok.1 hv
    split at hv
    · cases hv
    split at hv
    · cases hv
    rename_i d hsense
    obtain ⟨existing?, hfree, hv⟩ := bind_ok.1 hv
    split at hv
    · cases hv
    rename_i hnone
    obtain ⟨may, hmay, hv⟩ := bind_ok.1 hv
    split at hv
    · rename_i hno
      obtain ⟨_, -, hv⟩ := bind_ok.1 hv
      cases hv
      simp only [Bool.or_eq_true, Bool.not_eq_true', not_or, Bool.not_eq_false] at hsense hno
      obtain rfl : existing? = none := by simpa using hnone
      subst hno
      exact ⟨_, .write ⟨hfound, hsense.1, hsense.2, hfree⟩, hmay, rfl⟩
    · cases hv
  denied := by
    rintro _ ⟨hfound, hdir, hvalid, hfree⟩ hno
    obtain ⟨place, hplace⟩ := hl.pathOf_ok (nodeAt_found hl hfound).1
    refine ⟨"create " ++ Path.join place name, user?, ?_⟩
    simp only [Need.Lacking] at hno
    simp [createVerdict, hfound, hdir, hvalid, hfree, hno, hplace, bind, Except.bind]

theorem weighs_write {resolved : String} :
    s.Weighs (fun need => n.isDir = false ∧ need = .access n .write user?) (writeVerdict n resolved user? s) where
  lacking hv := by
    unfold writeVerdict at hv
    split at hv
    · cases hv
    rename_i hfile
    obtain ⟨may, hmay, hv⟩ := bind_ok.1 hv
    split at hv
    · rename_i hno
      cases hv
      obtain rfl : may = false := by simpa using hno
      exact ⟨_, ⟨by simpa using hfile, rfl⟩, hmay, rfl⟩
    · cases hv
  denied := by
    rintro _ ⟨hfile, rfl⟩ hno
    refine ⟨"write " ++ resolved, user?, ?_⟩
    simp only [Need.Lacking] at hno
    simp [writeVerdict, hfile, hno, bind, Except.bind]

/-- Whatever is found at a path lies in a directory, or is the root. -/
theorem parent_of_found (hl : Linked s.tree) (hfound : s.nodeAt path user? = .ok (some n)) {root : Node} (hroot : s.tree.root = .ok root)
    (hne : n.id ≠ root.id) : ∃ parent, s.tree.parentOf? n = some parent := by
  obtain ⟨names, hn⟩ := sits_of_nodeAt hfound
  obtain ⟨place, own, rfl⟩ := sits_below hn hroot hne
  obtain ⟨d, hd, -, -, hab, -⟩ := hn.inside hl
  exact ⟨d, (hl.parentOf_iff (nodeAt_found hl hfound).1).2 ⟨hd.present hl, hab⟩⟩

/-- Only the root lies in no directory. -/
theorem ne_root_of_parent (hl : Linked s.tree) (hn : s.tree.get? n.id = some n) (hparent : s.tree.parentOf? n = some parent) {root : Node}
    (hroot : s.tree.root = .ok root) : n.id ≠ root.id := by
  intro he
  have hloose := hl.loose_root
  rw [← hl.id_eq (node_ok.1 hroot), ← he] at hloose
  cases ((hl.parentOf_none hn).2 hloose).symm.trans hparent

/-- Whatever lies in a directory may be removed by whoever may write to it. -/
theorem removeVerdict_eq (hl : Linked s.tree) (hfound : s.nodeAt path user? = .ok (some n)) (hparent : s.tree.parentOf? n = some parent)
    (what : String) : ∃ place, removeVerdict what path user? s = (do
      if ← s.can parent .write user? then .ok (.granted n) else .ok (.denied (what ++ " " ++ place) user?)) := by
  obtain ⟨hn, -⟩ := nodeAt_found hl hfound
  obtain ⟨place, hplace⟩ := hl.pathOf_ok hn
  obtain ⟨root, hroot, -⟩ := hl.root_ok
  have hne : ¬ (n.id == root.id) = true := fun he => ne_root_of_parent hl hn hparent hroot (beq_iff_eq.1 he)
  refine ⟨place, ?_⟩
  simp [removeVerdict, hfound, hroot, hne, hparent, hplace, bind, Except.bind]

theorem weighs_remove (hl : Linked s.tree) {what : String} :
    s.Weighs (s.RemovalNeeds path user?) (removeVerdict what path user? s) where
  lacking hv := by
    unfold removeVerdict at hv
    obtain ⟨found?, hfound, hv⟩ := bind_ok.1 hv
    split at hv
    · cases hv
    obtain ⟨root, hroot, hv⟩ := bind_ok.1 hv
    split at hv
    · cases hv
    rename_i hne
    obtain ⟨parent, hparent⟩ := parent_of_found hl hfound hroot (by simpa using hne)
    rw [hparent] at hv
    obtain ⟨may, hmay, hv⟩ := bind_ok.1 hv
    dsimp only at hv
    split at hv
    · cases hv
    · rename_i hno
      obtain ⟨_, -, hv⟩ := bind_ok.1 hv
      cases hv
      obtain rfl : may = false := by simpa using hno
      exact ⟨_, .leave hfound hparent, hmay, rfl⟩
  denied := by
    rintro _ ⟨hfound, hparent⟩ hno
    obtain ⟨place, heq⟩ := removeVerdict_eq hl hfound hparent what
    simp only [Need.Lacking] at hno
    exact ⟨_, _, by rw [heq, hno]; rfl⟩

theorem weighs_relocate (ht : s.Tidy) (hl : Linked s.tree) (hn : s.tree.get? n.id = some n) (hd : s.tree.get? dir.id = some dir)
    (hu : UserArg user?) (hv : UserArg source?) {own : Json} :
    s.Weighs (s.RelocationNeeds n dir own user? source?) (relocateVerdict n dir own user? source? s) where
  lacking hdenied := by
    unfold relocateVerdict at hdenied
    split at hdenied
    · cases hdenied
    rename_i parent hparent
    split at hdenied
    · cases hdenied
    rename_i hdir
    obtain ⟨valid, hvalid, hdenied⟩ := bind_ok.1 hdenied
    split at hdenied
    · cases hdenied
    rename_i hyes
    split at hdenied
    · cases hdenied
    rename_i hanc
    obtain ⟨existing?, hfree, hdenied⟩ := bind_ok.1 hdenied
    split at hdenied
    · split at hdenied <;> cases hdenied
    obtain rfl : valid = true := by simpa using hyes
    have hmovable : s.Movable n parent dir own :=
      ⟨hparent, by simpa using hdir, hvalid, fun hk => by simpa [hk] using hanc, hfree⟩
    obtain ⟨mayLeave, hleave, hdenied⟩ := bind_ok.1 hdenied
    split at hdenied
    · rename_i hno
      obtain ⟨_, -, hdenied⟩ := bind_ok.1 hdenied
      cases hdenied
      obtain rfl : mayLeave = false := by simpa using hno
      exact ⟨_, .leave hmovable, hleave, rfl⟩
    obtain ⟨may, hmay, hdenied⟩ := bind_ok.1 hdenied
    split at hdenied
    · rename_i hno
      obtain ⟨_, -, hdenied⟩ := bind_ok.1 hdenied
      cases hdenied
      obtain rfl : may = false := by simpa using hno
      exact ⟨_, .enter hmovable, hmay, rfl⟩
    · cases hdenied
  denied := by
    obtain ⟨place, hplace⟩ := hl.pathOf_ok hn
    obtain ⟨target, htarget⟩ := hl.pathOf_ok hd
    have hplain : ∀ {parent}, s.Movable n parent dir own → relocateVerdict n dir own user? source? s = (do
        if !(← s.can parent .write (firstName? source? user?)) then
          .ok (.denied ("move " ++ place) (firstName? source? user?))
        else if !(← s.can dir .write user?) then .ok (.denied ("move into " ++ target) user?)
        else .ok (.granted dir)) := fun ⟨hparent, hdir, hvalid, hanc, hfree⟩ => by
      have hapart : (n.isDir && s.tree.isAncestor n dir) = false := by cases hk : n.isDir <;> simp [hk, hanc]
      simp [relocateVerdict, hparent, hdir, hvalid, hapart, hfree, hplace, htarget, bind, Except.bind]
    rintro _ (⟨hmovable⟩ | ⟨hmovable⟩) hno <;> simp only [Need.Lacking] at hno <;> rw [hplain hmovable]
    · exact ⟨_, _, by rw [hno]; rfl⟩
    · obtain ⟨mayLeave, hleave⟩ := ht.can_ok ((hl.parentOf_iff hn).1 hmovable.below).1 (userArg_firstName hv hu) .write
      rw [hleave, hno]
      cases mayLeave <;> exact ⟨_, _, rfl⟩

theorem weighs_copy (ht : s.Tidy) (hl : Linked s.tree) (hu : UserArg user?) (hv : UserArg source?) {name? : Option String} :
    s.Weighs (s.CopyNeeds id path user? source?) (copyVerdict id path user? source? name? s) where
  lacking hdenied := by
    unfold copyVerdict at hdenied
    obtain ⟨dest?, hfound, hdenied⟩ := bind_ok.1 hdenied
    split at hdenied
    · rename_i n dir hnode
      dsimp only at hdenied
      split at hdenied
      · cases hdenied
      rename_i hdir
      have hdir : dir.isDir = true := by simpa using hdir
      obtain ⟨mayRead, hread, hdenied⟩ := bind_ok.1 hdenied
      split at hdenied
      · rename_i hno
        obtain ⟨_, -, hdenied⟩ := bind_ok.1 hdenied
        cases hdenied
        obtain rfl : mayRead = false := by simpa using hno
        exact ⟨_, .read hnode hfound hdir, hread, rfl⟩
      obtain ⟨may, hmay, hdenied⟩ := bind_ok.1 hdenied
      split at hdenied
      · rename_i hno
        obtain ⟨_, -, hdenied⟩ := bind_ok.1 hdenied
        cases hdenied
        obtain rfl : may = false := by simpa using hno
        exact ⟨_, .enter hnode hfound hdir, hmay, rfl⟩
      obtain ⟨own?, -, hdenied⟩ := bind_ok.1 hdenied
      split at hdenied <;> cases hdenied
    · cases hdenied
  denied := by
    have hplain : ∀ {n dir}, s.tree.get? id = some n → s.nodeAt path user? = .ok (some dir) → dir.isDir = true →
        ∃ place target rest, copyVerdict id path user? source? name? s = (do
          if !(← s.can n .read (firstName? source? user?)) then
            .ok (.denied ("read " ++ place) (firstName? source? user?))
          else if !(← s.can dir .write user?) then .ok (.denied ("copy into " ++ target) user?)
          else rest) := fun {n dir} hnode hfound hdir => by
      obtain ⟨place, hplace⟩ := hl.pathOf_ok (hl.get_self hnode)
      obtain ⟨target, htarget⟩ := hl.pathOf_ok (nodeAt_found hl hfound).1
      exact ⟨place, target, _, by
        simp only [copyVerdict, hfound, hnode, hdir, hplace, htarget, bind, Except.bind, Bool.not_true, Bool.false_eq_true, if_false]
        rfl⟩
    rintro _ (⟨hnode, hfound, hdir⟩ | ⟨hnode, hfound, hdir⟩) hno <;> simp only [Need.Lacking] at hno <;>
      obtain ⟨place, target, rest, heq⟩ := hplain hnode hfound hdir <;> rw [heq]
    · exact ⟨_, _, by rw [hno]; rfl⟩
    · obtain ⟨mayRead, hread⟩ := ht.can_ok (hl.get_self hnode) (userArg_firstName hv hu) .read
      rw [hread, hno]
      cases mayRead <;> exact ⟨_, _, rfl⟩

theorem weighs_chmod (hl : Linked s.tree) {mode : String} : s.Weighs (s.ChmodNeeds path user?) (chmodVerdict path mode user? s) where
  lacking hdenied := by
    unfold chmodVerdict at hdenied
    obtain ⟨found?, hfound, hdenied⟩ := bind_ok.1 hdenied
    split at hdenied
    · cases hdenied
    dsimp only at hdenied
    split at hdenied
    · rename_i hno
      obtain ⟨_, -, hdenied⟩ := bind_ok.1 hdenied
      cases hdenied
      exact ⟨_, .own hfound, by simpa [Need.Lacking] using hno, rfl⟩
    · split at hdenied <;> cases hdenied
  denied := by
    rintro _ ⟨hfound⟩ hno
    obtain ⟨place, hplace⟩ := hl.pathOf_ok (nodeAt_found hl hfound).1
    refine ⟨"chmod " ++ place, user?, ?_⟩
    simp only [Need.Lacking] at hno
    simp [chmodVerdict, hfound, hno, hplace, bind, Except.bind]

theorem weighs_chown (hl : Linked s.tree) {owner : String} {group? : Option String} :
    s.Weighs (s.ChownNeeds path user?) (chownVerdict path owner group? user? s) where
  lacking hdenied := by
    unfold chownVerdict at hdenied
    obtain ⟨found?, hfound, hdenied⟩ := bind_ok.1 hdenied
    split at hdenied
    · cases hdenied
    split at hdenied
    · rename_i hno
      obtain ⟨_, -, hdenied⟩ := bind_ok.1 hdenied
      cases hdenied
      exact ⟨_, .root hfound, by simpa [Need.Lacking] using hno, rfl⟩
    · split at hdenied
      · cases hdenied
      · split at hdenied <;> cases hdenied
  denied := by
    rintro _ ⟨hfound⟩ hno
    obtain ⟨place, hplace⟩ := hl.pathOf_ok (nodeAt_found hl hfound).1
    refine ⟨"chown " ++ place, user?, ?_⟩
    simp only [Need.Lacking] at hno
    simp [chownVerdict, hfound, hno, hplace, bind, Except.bind]

end SimUnix.Machine
