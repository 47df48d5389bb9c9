/-
The system's work on its own files leaves a tidy state, and so do the changes of users and groups. Making
a home never fails, so that the tables are always brought up to date once they have been changed.
-/
import SimUnix.Proofs.Account.Order
import SimUnix.Proofs.Machine.Tidy

namespace SimUnix.Machine

open Tree Act

variable {P : Accounts → Prop} {s s' : Machine} {user? : Option Json} {parent : NodeId} {new : NewNode}

/-! ## Own files -/

theorem tidy_childOrNew (hn : new.Labelled) : Keeps (TidyWith P) (childOrNew parent new) := by
  refine keeps_read fun s => keeps_bind (keeps_ofExcept _) fun dir => keeps_bind (keeps_ofExcept _) fun child? => ?_
  split
  · exact keeps_pure _
  · exact tidy_addNew hn

/-- A style of texts. -/
structure DirectoryStyle.Plain (style : DirectoryStyle) : Prop where
  owner : style.owner.IsText
  group : style.group.IsText
  permissions : style.permissions.IsText

theorem plain_style {permissions : String} : DirectoryStyle.Plain { permissions := .str permissions } :=
  ⟨⟨_, rfl⟩, ⟨_, rfl⟩, ⟨_, rfl⟩⟩

theorem tidy_ensureBelow {style : DirectoryStyle} (hs : style.Plain) : ∀ {names : List String} {start : NodeId},
    Keeps (TidyWith P) (ensureBelow style start names)
  | [], _ => keeps_pure _
  | _ :: _, _ => keeps_bind (tidy_childOrNew ⟨hs.owner, hs.group, hs.permissions⟩) fun _ => tidy_ensureBelow hs

theorem tidy_ensureDirectory {path : String} {style : DirectoryStyle} (hs : style.Plain) :
    Keeps (TidyWith P) (ensureDirectory path style) := keeps_bind (keeps_ask _) fun _ => tidy_ensureBelow hs

theorem tidy_putSystemFile {dir name : String} {content permissions : Json} (hp : permissions.IsText) :
    Keeps (TidyWith P) (putSystemFile dir name content permissions) := by
  refine keeps_bind (tidy_ensureDirectory plain_style) fun id => keeps_get fun s s' r h hrun => ?_
  have hnow := h.1.clock
  refine (keeps_bind (keeps_ofExcept _) fun dir => keeps_bind (keeps_ofExcept _) fun child? => ?_) h hrun
  split
  · exact tidy_addNew ⟨⟨_, rfl⟩, ⟨_, rfl⟩, hp⟩
  · have hedit : ∀ id, Keeps (TidyWith P) (Act.editTree (·.update id fun n => { n with content, modified := s.now })) :=
      fun id => tidy_editTree fun t ht => ht.update fun _ hn => ⟨hn.owner, hn.group, hn.permissions, hn.created, hnow⟩
    dsimp only
    split
    · exact keeps_bind (hedit _) fun _ => keeps_pure _
    · exact keeps_pure _

theorem tidy_createHome {u : User} (hu : u.name.IsText) : Keeps (TidyWith P) (createHome u) := by
  refine keeps_get fun s s' r h hrun => ?_
  have hgroup : (s.accounts.groupName u.gid).IsText := h.1.groupName
  refine (keeps_bind (keeps_ofExcept _) fun home => keeps_bind (tidy_ensureDirectory plain_style) fun parent => ?_) h hrun
  refine keeps_bind (tidy_childOrNew ⟨hu, hgroup, ⟨_, rfl⟩⟩) fun home => ?_
  exact keeps_bind (keeps_for fun _ _ => keeps_discard (tidy_childOrNew ⟨hu, hgroup, ⟨_, rfl⟩⟩)) fun _ => keeps_pure _

theorem tidy_syncFiles : Keeps (TidyWith P) syncFiles :=
  keeps_bind (keeps_ask _) fun _ => keeps_bind (keeps_discard (tidy_putSystemFile ⟨_, rfl⟩)) fun _ =>
    keeps_bind (keeps_ask _) fun _ => keeps_discard (tidy_putSystemFile ⟨_, rfl⟩)

/-! ## Homes -/

/-- A node that is in the tree. -/
def Has (s : Machine) (a : NodeId) : Prop := ∃ n, s.tree.get? a = some n

theorem run_childOrNew (h : s.Sound) (hp : s.Has parent) (hn : new.Plain) :
    ∃ id s', (childOrNew parent new).run s = (.ok id, s') ∧ s'.Has id ∧ ∀ a, s.Has a → s'.Has a := by
  obtain ⟨dir, hdir⟩ := hp
  have hnode : s.tree.node parent = .ok dir := node_ok.2 hdir
  unfold childOrNew
  rw [run_bind, run_get]
  dsimp only
  rw [hnode, run_bind, run_ofExcept]
  dsimp only
  rw [run_bind, run_ofExcept]
  rcases h.linked.childNamed_cases hdir new.name with ⟨hc, -⟩ | ⟨m, hc, -, hm, -⟩
  · rw [hc]
    dsimp only
    rw [run_addNew]
    refine ⟨_, _, rfl, ?_, fun a ⟨n, hn'⟩ => keeps_add h.linked hn.isNew hn'⟩
    have hins : (s.tree.takeId.2.insert (new.build s)).get? (new.build s).id = some (new.build s) := by
      rw [get?_insert, if_pos rfl]
    obtain ⟨n₁, hn₁⟩ := keeps_update hins
    exact keeps_update hn₁
  · rw [hc]
    exact ⟨_, _, rfl, ⟨m, hm⟩, fun _ ha => ha⟩

theorem run_ensureBelow {style : DirectoryStyle} : ∀ {names : List String} {start : NodeId} {s : Machine}, s.Sound →
    s.Has start → ∃ id s', (ensureBelow style start names).run s = (.ok id, s') ∧ s'.Has id
  | [], start, s, _, hstart => ⟨start, s, rfl, hstart⟩
  | name :: rest, start, s, h, hstart => by
    have hplain : NewNode.Plain {
        name, kind := .directory, owner := style.owner, group := style.group, permissions := style.permissions } :=
      ⟨⟨_, rfl⟩, ⟨_, rfl⟩⟩
    obtain ⟨child, s₁, hrun, hchild, -⟩ := run_childOrNew h hstart hplain
    obtain ⟨id, s₂, hrest, hid⟩ := run_ensureBelow (sound_childOrNew hplain h hrun) hchild
    refine ⟨id, s₂, ?_, hid⟩
    unfold ensureBelow
    rw [run_bind, hrun]
    exact hrest

theorem run_ensureDirectory {path : String} {style : DirectoryStyle} (h : s.Sound) :
    ∃ id s', (ensureDirectory path style).run s = (.ok id, s') ∧ s'.Has id := by
  obtain ⟨root, hroot, hget, -⟩ := h.linked.root_ok
  obtain ⟨id, s', hrun, hid⟩ := run_ensureBelow h ⟨root, hget⟩
  refine ⟨id, s', ?_, hid⟩
  unfold ensureDirectory
  rw [run_bind, run_ask, hroot]
  exact hrun

/-- The folders of a home can be made, one after the other. -/
theorem run_folders {home : NodeId} {build : String → NewNode} (hbuild : ∀ f, (build f).Plain) :
    ∀ {folders : List String} {s : Machine}, s.Sound → s.Has home → ∃ s',
      (forIn folders PUnit.unit fun f _ => (discard (childOrNew home (build f)) : Act PUnit) >>= fun _ =>
        pure (.yield PUnit.unit)).run s = (.ok ⟨⟩, s')
  | [], s, _, _ => ⟨s, rfl⟩
  | f :: rest, s, h, hhome => by
    obtain ⟨id, s₁, hrun, -, hstay⟩ := run_childOrNew h hhome (hbuild f)
    obtain ⟨s₂, hrest⟩ := run_folders hbuild (sound_childOrNew (hbuild f) h hrun) (hstay _ hhome)
    refine ⟨s₂, ?_⟩
    rw [run_for_cons, run_discard, hrun]
    exact hrest

/-- A home can always be made. -/
theorem run_createHome {u : User} (h : s.Sound) (hu : u.home.IsText) : ∃ id s', (createHome u).run s = (.ok id, s') := by
  obtain ⟨path, hpath⟩ := hu
  -- Each step works below a node that is there, and leaves it there for the next one.
  have htext : u.home.asOwnText = .ok path := by
    rw [hpath]
    rfl
  obtain ⟨id, s₁, hdir, hid⟩ := run_ensureDirectory h
  have h₁ : s₁.Sound := sound_ensureDirectory h hdir
  have hplain : ∀ {name group permissions : Json}, name.IsText → NewNode.Plain {
      name, kind := .directory, owner := u.name, group, permissions } := fun hname => ⟨hname, ⟨_, rfl⟩⟩
  obtain ⟨home, s₂, hhome, hthere, -⟩ := run_childOrNew h₁ hid (hplain ⟨_, rfl⟩)
  obtain ⟨s₃, hfolders⟩ := run_folders (fun f => hplain ⟨f, rfl⟩) (sound_childOrNew (hplain ⟨_, rfl⟩) h₁ hhome) hthere
  refine ⟨home, s₃, ?_⟩
  unfold createHome
  rw [run_bind, run_get]
  dsimp only
  rw [run_bind, run_ofExcept, htext]
  dsimp only
  rw [run_bind, hdir]
  dsimp only
  rw [run_bind, hhome]
  dsimp only
  rw [run_bind, hfolders]
  rfl

end SimUnix.Machine
