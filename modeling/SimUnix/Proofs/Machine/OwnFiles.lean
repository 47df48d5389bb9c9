/-
The operations by which the system keeps its own files leave it sound, although they ask for no
permission and do not look at what kind of node they add to.
-/
import SimUnix.Proofs.Machine.Steady

namespace SimUnix.Machine

open Tree Act

variable {s s' s₀ : Machine} {parent : NodeId} {new : NewNode}

theorem steady_sound : Steady Sound := ⟨Sound.linked, Sound.same, Sound.aside⟩

/-! ## Adding what is missing -/

/-- What the system adds has texts for its name and its content. -/
structure NewNode.Plain (new : NewNode) : Prop where
  name : ∃ name, new.name = .str name
  content : ∃ text, new.content = .str text

theorem NewNode.Plain.isNew (hp : new.Plain) : IsNew s.tree (new.build s) := by
  obtain ⟨⟨name, hname⟩, ⟨text, htext⟩⟩ := hp
  exact build_isNew hname htext

/-- A steady invariant that is kept where nodes are added to the tree or changed in place: the links stay in order, and
the same nodes are without a parent as before. -/
structure Growing (I : Machine → Prop) : Prop extends Steady I where
  grown : ∀ {s t}, I s → Linked t → t.rootId = s.tree.rootId → s.tree.ids.Later t.ids →
    (∀ {a}, t.skeleton.Loose a ↔ s.tree.skeleton.Loose a) → I { s with tree := t }

namespace Growing

variable {I : Machine → Prop}

theorem add (hI : Growing I) (h : I s) (hp : new.Plain) {dir : Node} (hd : s.tree.get? dir.id = some dir)
    (hfree : s.tree.childNamed dir new.name = .ok none) :
    I { s with tree := s.tree.takeId.2.add (new.build s) dir.id s.now } := by
  have hl := hI.linked h
  exact hI.grown h (hl.add hp.isNew hd (hl.childNamed_none hd hfree)) rfl s.tree.ids.later_rest (hl.loose_add hp.isNew hd)

theorem childOrNew (hI : Growing I) (hp : new.Plain) : Keeps I (childOrNew parent new) := by
  refine keeps_get fun s s' r h hrun => ?_
  rcases asked hrun with ⟨e, -, -, rfl⟩ | ⟨dir, hdir, hrun⟩
  · exact h
  rcases asked hrun with ⟨e, -, -, rfl⟩ | ⟨child?, hchild, hrun⟩
  · exact h
  cases child? with
  | some child =>
    cases hrun
    exact h
  | none =>
    have hd := node_ok.1 hdir
    have hid := (hI.linked h).id_eq hd
    rw [run_addNew] at hrun
    cases hrun
    exact hid ▸ hI.add h hp ((hI.linked h).get_self hd) hchild

theorem ensureBelow (hI : Growing I) {style : DirectoryStyle} : ∀ {names : List String} {start : NodeId},
    Keeps I (ensureBelow style start names)
  | [], _ => keeps_pure _
  | _ :: _, _ => keeps_bind (hI.childOrNew ⟨⟨_, rfl⟩, ⟨_, rfl⟩⟩) fun _ => hI.ensureBelow

theorem ensureDirectory (hI : Growing I) {path : String} {style : DirectoryStyle} : Keeps I (ensureDirectory path style) :=
  keeps_bind (keeps_ask _) fun _ => hI.ensureBelow

theorem putSystemFile (hI : Growing I) {dir name content : String} {permissions : Json} :
    Keeps I (putSystemFile dir name content permissions) := by
  refine keeps_bind hI.ensureDirectory fun id => keeps_get fun s s' r h hrun => ?_
  rcases asked hrun with ⟨e, -, -, rfl⟩ | ⟨dir, hdir, hrun⟩
  · exact h
  rcases asked hrun with ⟨e, -, -, rfl⟩ | ⟨child?, hchild, hrun⟩
  · exact h
  have hd := node_ok.1 hdir
  have hl := hI.linked h
  have hid := hl.id_eq hd
  cases child? with
  | none =>
    rw [run_addNew] at hrun
    cases hrun
    exact hid ▸ hI.add h ⟨⟨_, rfl⟩, ⟨_, rfl⟩⟩ (hl.get_self hd) hchild
  | some n =>
    simp only at hrun
    split at hrun
    · rw [run_bind, run_editTree] at hrun
      cases hrun
      have hjoint : ∀ n : Node, ({ n with content := .str content, modified := s.now } : Node).joint = n.joint := by intro; rfl
      exact hI.grown h (hl.edit hjoint (by intro _ _; exact ⟨_, rfl⟩)) rfl (.refl _) (by rw [skeleton_update_same hjoint])
    · cases hrun
      exact h

theorem createHome (hI : Growing I) {u : User} : Keeps I (createHome u) := by
  refine keeps_get fun s s' r h hrun => ?_
  refine (keeps_bind (keeps_ofExcept _) fun path => ?_) h hrun
  refine keeps_bind hI.ensureDirectory fun parent => ?_
  refine keeps_bind (hI.childOrNew ⟨⟨_, rfl⟩, ⟨_, rfl⟩⟩) fun home => ?_
  exact keeps_bind (keeps_for fun _ _ => keeps_discard (hI.childOrNew ⟨⟨_, rfl⟩, ⟨_, rfl⟩⟩)) fun _ => keeps_pure _

theorem syncFiles (hI : Growing I) : Keeps I syncFiles :=
  keeps_bind (keeps_ask _) fun _ => keeps_bind (keeps_discard hI.putSystemFile) fun _ =>
    keeps_bind (keeps_ask _) fun _ => keeps_discard hI.putSystemFile

theorem furnished (hI : Growing I) : Furnished I where
  toSteady := hI.toSteady
  directory _ := hI.ensureDirectory
  program _ := hI.putSystemFile
  app _ := keeps_discard hI.putSystemFile
  host := fun {_} => hI.putSystemFile
  home _ := hI.createHome
  sync := hI.syncFiles

end Growing

theorem growing_sound : Growing Sound := ⟨steady_sound, fun h ht hr hi hl => h.sequel (.of_loose ht hr hi hl)⟩

theorem sound_childOrNew (hp : new.Plain) : Keeps Sound (childOrNew parent new) := growing_sound.childOrNew hp

theorem sound_ensureDirectory {path : String} {style : DirectoryStyle} : Keeps Sound (ensureDirectory path style) :=
  growing_sound.ensureDirectory

theorem sound_putSystemFile {dir name content : String} {permissions : Json} :
    Keeps Sound (putSystemFile dir name content permissions) := growing_sound.putSystemFile

theorem sound_createHome {u : User} : Keeps Sound (createHome u) := growing_sound.createHome

theorem sound_syncFiles : Keeps Sound syncFiles := growing_sound.syncFiles

theorem furnished_sound : Furnished Sound := growing_sound.furnished

/-! ## Nothing but the tree -/

/-- A system that differs from another one in its tree only. -/
def OnlyTree (s₀ s : Machine) : Prop := s = { s₀ with tree := s.tree }

theorem OnlyTree.refl (s : Machine) : s.OnlyTree s := rfl

theorem onlyTree_addNew {new : NewNode} {parent : NodeId} : Keeps (OnlyTree s₀) (addNew new parent) := by
  intro s s' r h hrun
  rw [run_addNew] at hrun
  cases hrun
  unfold OnlyTree at h ⊢
  rw [h]

theorem onlyTree_editTree {change : Tree → Tree} : Keeps (OnlyTree s₀) (Act.editTree change) := by
  intro s s' r h hrun
  rw [run_editTree] at hrun
  cases hrun
  unfold OnlyTree at h ⊢
  rw [h]

theorem onlyTree_edit {α : Type} {change : Edit α} : Keeps (OnlyTree s₀) (Act.edit change) := by
  intro s s' r h hrun
  rw [run_edit] at hrun
  cases hrun
  unfold OnlyTree at h ⊢
  rw [h]

theorem onlyTree_childOrNew {parent : NodeId} {new : NewNode} : Keeps (OnlyTree s₀) (childOrNew parent new) := by
  refine keeps_read fun s => keeps_bind (keeps_ofExcept _) fun dir => keeps_bind (keeps_ofExcept _) fun child? => ?_
  split
  · exact keeps_pure _
  · exact onlyTree_addNew

theorem onlyTree_ensureBelow {style : DirectoryStyle} : ∀ {names : List String} {start : NodeId},
    Keeps (OnlyTree s₀) (ensureBelow style start names)
  | [], _ => keeps_pure _
  | _ :: _, _ => keeps_bind onlyTree_childOrNew fun _ => onlyTree_ensureBelow

theorem onlyTree_ensureDirectory {path : String} {style : DirectoryStyle} :
    Keeps (OnlyTree s₀) (ensureDirectory path style) := keeps_bind (keeps_ask _) fun _ => onlyTree_ensureBelow

theorem onlyTree_putSystemFile {dir name : String} {content permissions : Json} :
    Keeps (OnlyTree s₀) (putSystemFile dir name content permissions) := by
  refine keeps_bind onlyTree_ensureDirectory fun id => keeps_read fun s => ?_
  refine keeps_bind (keeps_ofExcept _) fun dir => keeps_bind (keeps_ofExcept _) fun child? => ?_
  split
  · exact onlyTree_addNew
  · dsimp only
    split
    · exact keeps_bind onlyTree_editTree fun _ => keeps_pure _
    · exact keeps_pure _

theorem onlyTree_createHome {u : User} : Keeps (OnlyTree s₀) (createHome u) := by
  refine keeps_read fun s => keeps_bind (keeps_ofExcept _) fun home => keeps_bind onlyTree_ensureDirectory fun parent => ?_
  refine keeps_bind onlyTree_childOrNew fun home => ?_
  exact keeps_bind (keeps_for fun _ _ => keeps_discard onlyTree_childOrNew) fun _ => keeps_pure _

theorem onlyTree_syncFiles : Keeps (OnlyTree s₀) syncFiles :=
  keeps_bind (keeps_ask _) fun _ => keeps_bind (keeps_discard onlyTree_putSystemFile) fun _ =>
    keeps_bind (keeps_ask _) fun _ => keeps_discard onlyTree_putSystemFile

/-- What hangs on anything but the tree is kept by the work of the system on its own files. -/
theorem keeps_of_onlyTree {α : Type} {I : Machine → Prop} {m : Act α} (hm : ∀ s₀, Keeps (OnlyTree s₀) m)
    (hI : ∀ {s t}, I s → I { s with tree := t }) : Keeps I m := by
  intro s s' r h hrun
  have hframe : s' = { s with tree := s'.tree } := hm s (show s = { s with tree := s.tree } from rfl) hrun
  rw [hframe]
  exact hI h

end SimUnix.Machine
