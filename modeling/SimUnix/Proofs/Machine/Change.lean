/-
The elementary changes that file operations make to the tree. A `Relink` adds, moves, removes or
copies nodes, a `Revision` changes one node in place; each carries what was checked before it, for
the users on whose behalf it is made. A tree in order stays so.
-/
import SimUnix.Machine.Relocation
import SimUnix.Proofs.Tree.Copy
import SimUnix.Proofs.Tree.Lookup
import SimUnix.Proofs.Tree.Reshape

namespace SimUnix.Machine

open Tree Skeleton

/-- The acting user may access a node. -/
def Allows (s : Machine) (n : Node) (access : Access) (user? : Option Json) : Prop :=
  s.can n access user? = .ok true

/-- Two systems in which the same users may do the same things. -/
structure Alike (s s' : Machine) : Prop where
  accounts : s'.accounts = s.accounts
  currentUser : s'.currentUser = s.currentUser
  safeMode : s'.safeMode = s.safeMode

/-- What a user may do with a node depends neither on its name and its links nor on the rest of the tree. -/
theorem can_core {s s' : Machine} {n m : Node} {access : Access} {user? : Option Json} (h : s.Alike s')
    (hn : m.core = n.core) : s'.can m access user? = s.can n access user? := by
  have hperm : m.permissions = n.permissions := show m.core.permissions = n.core.permissions by rw [hn]
  have howner : m.owner = n.owner := show m.core.owner = n.core.owner by rw [hn]
  have hgroup : m.group = n.group := show m.core.group = n.core.group by rw [hn]
  unfold can actor
  rw [h.accounts, h.currentUser, h.safeMode, hperm, howner, hgroup]

theorem can_congr {s s' : Machine} {n m : Node} {access : Access} {user? : Option Json} (h : s.Alike s')
    (hn : m.bare = n.bare) : s'.can m access user? = s.can n access user? :=
  can_core h (congrArg (fun b : Node => { b with name := .null }) hn)

/-- The name of a node for a copy of it, marked as a copy where it is taken. -/
def OwnName (n : Node) (name : String) : Prop :=
  ∃ own, n.name = .str own ∧ (name = own ∨ ∃ k, name = candidate (own ++ " copy") k)

/-- A change of the links between nodes, made for a user; a node that leaves its place leaves it by
the permission of another one, which is mostly the same. A copy has a name that may be given, or is that
of one of the `keepers` and has its name. A copy that is given up leaves what has been made of it. -/
inductive Relink (keepers : NodeId → Prop) (s : Machine) (user? leaver? : Option Json) : Tree → Prop
  | create {new : NewNode} {dir : Node} {name content : String} (there : s.tree.get? dir.id = some dir)
      (isDir : dir.isDir = true) (named : new.name = .str name) (valid : Path.validName name = true)
      (written : new.content = .str content) (free : s.tree.childNamed dir new.name = .ok none)
      (may : s.Allows dir .write user?) :
      Relink keepers s user? leaver? (s.tree.takeId.2.add (new.build s) dir.id s.now)
  | move {n parent dir : Node} {name : String} {t : Tree} (node : s.tree.get? n.id = some n)
      (below : s.tree.parentOf? n = some parent) (there : s.tree.get? dir.id = some dir)
      (isDir : dir.isDir = true) (valid : Path.validName name = true)
      (apart : ¬ s.tree.skeleton.Under n.id dir.id) (free : s.tree.childNamed dir name = .ok none)
      (mayLeave : s.Allows parent .write leaver?) (may : s.Allows dir .write user?)
      (unlinked : s.tree.detach n s.now = .ok t) :
      Relink keepers s user? leaver? (t.relinked n.id name dir.id s.now)
  | remove {n parent : Node} {count : Nat} {t : Tree} (node : s.tree.get? n.id = some n)
      (below : s.tree.parentOf? n = some parent) (may : s.Allows parent .write user?)
      (run : (Tree.remove n s.now).run s.tree = (.ok count, t)) : Relink keepers s user? leaver? t
  | copy {n dir : Node} {new : NewOwner} {name : String} {id : NodeId} {t : Tree}
      (node : s.tree.get? n.id = some n) (there : s.tree.get? dir.id = some dir) (isDir : dir.isDir = true)
      (named : Path.validName name = true ∨ keepers n.id ∧ OwnName n name) (free : s.tree.childNamed dir name = .ok none)
      (mayRead : s.Allows n .read leaver?) (may : s.Allows dir .write user?)
      (run : (clone n new s.now).run s.tree = (.ok id, t)) :
      Relink keepers s user? leaver? (t.hung id name dir.id s.now)
  | strand {n dir : Node} {new : NewOwner} {e : Fault} {t : Tree} (node : s.tree.get? n.id = some n)
      (may : s.Allows dir .write user?)
      (run : (clone n new s.now).run s.tree = (.error e, t)) : Relink keepers s user? leaver? t

/-- A change of a node in place, made for a user. -/
inductive Revision (s : Machine) (user? : Option Json) : Tree → Prop
  | write {n : Node} {content : String} (node : s.tree.get? n.id = some n) (isFile : n.isDir = false)
      (may : s.Allows n .write user?) :
      Revision s user? (s.tree.update n.id fun n => { n with content := content, modified := s.now })
  | chmod {n : Node} {permissions : String} (node : s.tree.get? n.id = some n) (calm : s.safeMode = false)
      (may : s.actor user? = rootName ∨ n.owner = s.actor user?) :
      Revision s user? (s.tree.update n.id fun n => { n with permissions := permissions, modified := s.now })
  | chown {n : Node} {owner : String} {group? : Option Json} (node : s.tree.get? n.id = some n)
      (calm : s.safeMode = false) (may : s.actor user? = rootName) :
      Revision s user? (s.tree.update n.id fun n =>
        { n with owner := owner, group := group?.getD n.group, modified := s.now })

variable {keepers : NodeId → Prop} {s : Machine} {user? leaver? : Option Json} {t t₁ t₂ : Tree}

theorem build_isNew {new : NewNode} {name content : String} (hname : new.name = .str name)
    (hcont : new.content = .str content) : IsNew s.tree (new.build s) :=
  ⟨rfl, rfl, rfl, ⟨name, hname⟩, ⟨content, hcont⟩⟩

/-- What every change of the tree keeps: the tree is in order, its supply only goes on, and no node
loses its parent, unless a copy was given up. -/
structure Sequel (t t' : Tree) : Prop where
  linked : Linked t'
  rootId : t'.rootId = t.rootId
  ids : t.ids.Later t'.ids
  loose : ∀ {a}, t.skeleton.Loose a → t'.skeleton.Loose a
  whole : (∀ {a}, t'.skeleton.Loose a → t.skeleton.Loose a) ∨ Stranded t'

theorem Sequel.refl (h : Linked t) : Sequel t t := ⟨h, rfl, .refl _, id, .inl id⟩

theorem Sequel.stranded (h : Sequel t t₁) (hs : Stranded t) : Stranded t₁ := by
  obtain ⟨left, hnd, hlen, hleft⟩ := hs
  refine ⟨left, hnd, hlen, fun a ha => ?_⟩
  obtain ⟨hne, hl⟩ := hleft a ha
  exact ⟨h.rootId ▸ hne, h.loose hl⟩

theorem Sequel.trans (h₁ : Sequel t t₁) (h₂ : Sequel t₁ t₂) : Sequel t t₂ := by
  refine ⟨h₂.linked, h₂.rootId.trans h₁.rootId, h₁.ids.trans h₂.ids, fun hl => h₂.loose (h₁.loose hl), ?_⟩
  rcases h₂.whole with hw₂ | hs
  · rcases h₁.whole with hw₁ | hs
    · exact .inl fun hl => hw₁ (hw₂ hl)
    · exact .inr (h₂.stranded hs)
  · exact .inr hs

/-- A tree without stray nodes, or one in which a copy was given up once, has such a sequel. -/
theorem Sequel.gathered (h : Sequel t t₁) (hg : Gathered t) : Gathered t₁ := by
  rcases hg with hw | hs
  · rcases h.whole with hw₁ | hs
    · exact .inl fun hl => h.rootId ▸ hw (hw₁ hl)
    · exact .inr hs
  · exact .inr (h.stranded hs)

/-- A change after which the same nodes are without a parent. -/
theorem Sequel.of_loose (hl : Linked t₁) (hr : t₁.rootId = t.rootId) (hi : t.ids.Later t₁.ids)
    (h : ∀ {a}, t₁.skeleton.Loose a ↔ t.skeleton.Loose a) : Sequel t t₁ := ⟨hl, hr, hi, h.2, .inl h.1⟩

/-- A change of a node that leaves its name, its kind and its links alone. -/
theorem sequel_edit {id : NodeId} {f : Node → Node} (h : Linked t) (hj : ∀ n, (f n).joint = n.joint)
    (hc : ∀ n, (∃ s, n.content = .str s) → ∃ s, (f n).content = .str s) : Sequel t (t.update id f) :=
  .of_loose (h.edit hj hc) rfl (.refl _) (by rw [skeleton_update_same hj])

/-- A change of the links keeps a tree in order. -/
theorem Relink.sequel (h : Linked s.tree) (hr : Relink keepers s user? leaver? t) : Sequel s.tree t := by
  cases hr with
  | @create new dir name content there _ named _ written free _ =>
    have hnew : IsNew s.tree (new.build s) := build_isNew named written
    exact .of_loose (h.add hnew there (h.childNamed_none there free)) rfl s.tree.ids.later_rest
      (h.loose_add hnew there)
  | @move n parent dir name t₁ node below there _ _ apart free _ _ unlinked =>
    obtain ⟨hroot, hids⟩ := (⟨(rewired_detach unlinked).rootId, (rewired_detach unlinked).ids⟩ : _ ∧ _)
    refine .of_loose (h.move node below unlinked there apart (h.childNamed_none there free)) hroot ?_
      (h.loose_move node below unlinked there)
    show s.tree.ids.Later t₁.ids
    rw [hids]
    exact .refl _
  | remove node below _ run =>
    obtain ⟨-, hab⟩ := (h.parentOf_iff node).1 below
    rcases h.run_remove node below run with ⟨e, -, he, -⟩ | ⟨nodes, -, -, hrem⟩
    · cases he
    · exact .of_loose (h.removed hab hrem) hrem.rootId (hrem.ids ▸ .refl _) (loose_removed hab hrem)
  | copy node there _ _ free _ _ run =>
    obtain ⟨hg, hc, -⟩ := run_clone h node run
    exact .of_loose ((hc _ rfl).hang h hg there (h.childNamed_none there free)) hg.rootId hg.ids
      ((hc _ rfl).loose_hung h there)
  | strand node _ run =>
    obtain ⟨hg, -, hrem⟩ := run_clone h node run
    exact ⟨hg.linked, hg.rootId, hg.ids, hg.loose, .inr (hg.stranded h (hrem _ rfl))⟩

theorem Revision.sequel (h : Linked s.tree) (hr : Revision s user? t) : Sequel s.tree t := by
  cases hr with
  | write => exact sequel_edit h (by intro; rfl) (by intro _ _; exact ⟨_, rfl⟩)
  | chmod => exact sequel_edit h (by intro; rfl) (by intro _ hc; exact hc)
  | chown => exact sequel_edit h (by intro; rfl) (by intro _ hc; exact hc)

end SimUnix.Machine
