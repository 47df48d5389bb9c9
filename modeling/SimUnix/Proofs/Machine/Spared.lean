/-
The work of the system on its own files leaves every node where it stands. It finds or makes what its paths
lead to, and touches the content of nothing but the file that it writes.
-/
import SimUnix.Proofs.Machine.OwnFiles
import SimUnix.Proofs.Tree.Standing

namespace SimUnix

namespace Tree

variable {t : Tree} {n dir : Node} {p : NodeId} {now : Time.Stamp}

theorem Linked.root_self (h : Linked t) (hr : t.root = .ok n) : t.get? n.id = some n := h.get_self (node_ok.1 hr)

/-- What is found once a node has been added is that node, or stands where it stood. -/
theorem get?_add_cases {a : NodeId} {m : Node} (h : Linked t) (hn : IsNew t n) (hd : t.get? p = some dir)
    (hm : (t.takeId.2.add n p now).get? a = some m) :
    a = n.id ∧ m = { n with parent := p } ∨ ∃ k, t.get? a = some k ∧ m.standing = k.standing := by
  by_cases ha : a = n.id
  · subst ha
    rw [get?_add_new h hn hd] at hm
    exact .inl ⟨rfl, (Option.some.inj hm).symm⟩
  · obtain ⟨k, hk⟩ : ∃ k, t.get? a = some k := by
      by_cases hp : a = p
      · exact ⟨dir, hp ▸ hd⟩
      · exact ⟨m, (get?_add ha hp).symm.trans hm⟩
    rw [get?_add_old h hn hk] at hm
    cases hm
    exact .inr ⟨k, hk, by split <;> rfl⟩

theorem reaches_append : ∀ {names rest : List String} {n m k : Node}, t.Reaches n names m → t.Reaches m rest k → t.Reaches n (names ++ rest) k
  | [], _, _, _, _, h, h' => by
    cases h
    exact h'
  | _ :: _, _, _, _, _, ⟨c, hc, h⟩, h' => ⟨c, hc, reaches_append h h'⟩

/-- What a path leads to once a node has been added is what it led to before, or the new node in its directory. -/
theorem reaches_add (h : Linked t) (h' : Linked (t.takeId.2.add n p now)) (hn : IsNew t n) (hd : t.get? p = some dir) :
    ∀ {names : List String} {m m' k' : Node}, t.get? m.id = some m → (t.takeId.2.add n p now).get? m.id = some m' →
      (t.takeId.2.add n p now).Reaches m' names k' →
        (∃ k, k'.standing = k.standing ∧ t.Reaches m names k) ∨
          ∃ front last, names = front ++ [last] ∧ k' = { n with parent := p } ∧ n.name = .str last ∧ t.Reaches m front dir
  | [], m, m', _, hm, hm', hr => by
    cases hr
    have hspares : Spares (fun _ => False) t (t.takeId.2.add n p now) := spares_add h hn
    obtain ⟨x, hx, hs, -⟩ := hspares.node hm
    cases hm'.symm.trans hx
    exact .inl ⟨m, hs, rfl⟩
  | name :: rest, m, m', k', hm, hm', ⟨c', hc', hr⟩ => by
    have hself : (t.takeId.2.add n p now).get? m'.id = some m' := h'.get_self hm'
    obtain ⟨hcget, hcp, hcname⟩ := (h'.childNamed_iff hself).1 hc'
    have hcp : c'.parent = m.id := hcp.trans (h'.id_eq hm')
    rcases get?_add_cases h hn hd hcget with ⟨-, rfl⟩ | ⟨k, hk, hs⟩
    · -- nothing is below the new node
      cases rest with
      | nil =>
        have hp : p = m.id := hcp
        rw [hp, hm] at hd
        cases hd
        cases hr
        exact .inr ⟨[], name, rfl, rfl, hcname, rfl⟩
      | cons next rest =>
        obtain ⟨c, hc, -⟩ := hr
        unfold childNamed at hc
        rw [hn.children] at hc
        cases hc
    · have hkid : k.id = c'.id := h.id_eq hk
      have hkself : t.get? k.id = some k := h.get_self hk
      have hmid : m'.id = m.id := h'.id_eq hm'
      have hchild : t.childNamed m name = .ok (some k) :=
        childNamed_stands h' h hself hc' (hmid ▸ hm) hk hs.symm
      rcases reaches_add h h' hn hd hkself (hkid ▸ hcget) hr with ⟨x, hx, hreach⟩ | ⟨front, last, rfl, hk', hlast, hreach⟩
      · exact .inl ⟨x, hx, k, hchild, hreach⟩
      · exact .inr ⟨name :: front, last, rfl, hk', hlast, k, hchild, hreach⟩

/-- A property of trees that goes on when a node is added that fits into its directory. -/
def Welcomes (fits : Node → Node → Prop) (J : Tree → Prop) : Prop :=
  ∀ ⦃t : Tree⦄ ⦃n dir : Node⦄ ⦃p : NodeId⦄ ⦃now : Time.Stamp⦄, Linked t → Linked (t.takeId.2.add n p now) → J t → IsNew t n →
    t.get? p = some dir → fits dir n → J (t.takeId.2.add n p now)

/-- A property of trees that goes on when the content of a node changes. -/
def Overlooks (J : Tree → Prop) : Prop :=
  ∀ ⦃t : Tree⦄ ⦃id : NodeId⦄ ⦃f : Node → Node⦄, Linked t → Linked (t.update id f) → (∀ n, (f n).standing = n.standing) → J t →
    J (t.update id f)

theorem welcomes_spares {edited : NodeId → Prop} {t₀ : Tree} : Welcomes (fun _ _ => True) (Spares edited t₀) :=
  fun _ _ _ _ _ h _ hs hn _ _ => hs.trans (spares_add h hn)

end Tree

namespace Machine

open Tree Act

variable {s s' : Machine} {t₀ : Tree} {new : NewNode} {parent id : NodeId} {edited : NodeId → Prop}

/-! ## What new nodes and new content leave as it is -/

/-- A sound system whose tree has a property. -/
def Grounded (J : Tree → Prop) (s : Machine) : Prop := s.Sound ∧ J s.tree

/-- New nodes that fit into any directory. -/
def NewNode.Suits (fits : Node → Node → Prop) (new : NewNode) : Prop := ∀ dir s, fits dir (new.build s)

section

variable {fits : Node → Node → Prop} {J : Tree → Prop} {style : DirectoryStyle}

theorem grounded_childOrNew {r : Except Fault NodeId} (hJ : Welcomes fits J) (hp : new.Plain) (h : s.Grounded J)
    (hfit : ∀ dir, s.tree.get? parent = some dir → fits dir (new.build s)) (hrun : (childOrNew parent new).run s = (r, s')) :
    s'.Grounded J := by
  have h' : s'.Sound := sound_childOrNew hp h.1 hrun
  refine ⟨h', ?_⟩
  have hrun := got hrun
  rcases asked hrun with ⟨e, -, -, rfl⟩ | ⟨dir, hdir, hrun⟩
  · exact h.2
  rcases asked hrun with ⟨e, -, -, rfl⟩ | ⟨child?, -, hrun⟩
  · exact h.2
  cases child? with
  | some child =>
    cases hrun
    exact h.2
  | none =>
    rw [run_addNew] at hrun
    cases hrun
    have hdir := node_ok.1 hdir
    exact hJ h.1.linked h'.linked h.2 hp.isNew hdir (hfit dir hdir)

theorem grounded_ensureBelow (hJ : Welcomes fits J) : ∀ {names : List String} {start : NodeId},
    (∀ name ∈ names, NewNode.Suits fits {
      name, kind := .directory, owner := style.owner, group := style.group, permissions := style.permissions }) →
        Keeps (Grounded J) (ensureBelow style start names)
  | [], _, _ => keeps_pure _
  | _ :: _, _, hfit => by
    simp only [List.forall_mem_cons] at hfit
    exact keeps_bind (fun _ _ _ h hrun => grounded_childOrNew hJ ⟨⟨_, rfl⟩, ⟨_, rfl⟩⟩ h (fun dir _ => hfit.1 dir _) hrun) fun _ =>
      grounded_ensureBelow hJ hfit.2

theorem grounded_ensureDirectory {path : String} (hJ : Welcomes fits J) (hfit : ∀ name ∈ Path.nonEmptyComponents path,
    NewNode.Suits fits {
      name, kind := .directory, owner := style.owner, group := style.group, permissions := style.permissions }) :
    Keeps (Grounded J) (ensureDirectory path style) := keeps_bind (keeps_ask _) fun _ => grounded_ensureBelow hJ hfit

/-- A file of the system needs directories and itself, and its content does not matter. -/
theorem grounded_putSystemFile {dir name content : String} {permissions : Json} (hJ : Welcomes fits J) (hcontent : Overlooks J)
    (hdirs : ∀ part ∈ Path.nonEmptyComponents dir, NewNode.Suits fits {
      name := part, kind := .directory, owner := .str rootName, group := .str rootName, permissions := directoryPermissions })
    (hfile : NewNode.Suits fits { name, kind := .file, content, permissions }) :
    Keeps (Grounded J) (putSystemFile dir name content permissions) := by
  intro s s' r h hrun
  have h' : s'.Sound := sound_putSystemFile h.1 hrun
  refine ⟨h', ?_⟩
  have hdirectories : Keeps (Grounded J) (ensureDirectory dir {}) := grounded_ensureDirectory hJ hdirs
  rcases of_run_bind hrun with ⟨e, hdirectory, -⟩ | ⟨id, s₁, hdirectory, hrun⟩
  · exact (hdirectories h hdirectory).2
  obtain ⟨h₁, hj⟩ := hdirectories h hdirectory
  have hrun := got hrun
  rcases asked hrun with ⟨e, -, -, rfl⟩ | ⟨d, hdir, hrun⟩
  · exact hj
  rcases asked hrun with ⟨e, -, -, rfl⟩ | ⟨child?, -, hrun⟩
  · exact hj
  cases child? with
  | none =>
    have hplain : NewNode.Plain { name := .str name, kind := .file, content := .str content, permissions } := ⟨⟨_, rfl⟩, ⟨_, rfl⟩⟩
    rw [run_addNew] at hrun
    cases hrun
    exact hJ h₁.linked h'.linked hj hplain.isNew (node_ok.1 hdir) (hfile d s₁)
  | some n =>
    simp only at hrun
    split at hrun
    · rw [run_bind, run_editTree] at hrun
      cases hrun
      exact hcontent h₁.linked h'.linked (fun _ => rfl) hj
    · cases hrun
      exact hj

end

/-! ## Nodes that stay -/

/-- A sound system in which the nodes of an earlier tree are where they were. -/
def Sparing (edited : NodeId → Prop) (t₀ : Tree) (s : Machine) : Prop := s.Sound ∧ Spares edited t₀ s.tree

theorem sparing_childOrNew (hp : new.Plain) : Keeps (Sparing edited t₀) (childOrNew parent new) :=
  fun _ _ _ h hrun => grounded_childOrNew welcomes_spares hp h (fun _ _ => trivial) hrun

theorem sparing_ensureBelow {style : DirectoryStyle} {names : List String} {start : NodeId} :
    Keeps (Sparing edited t₀) (ensureBelow style start names) :=
  grounded_ensureBelow welcomes_spares fun _ _ _ _ => trivial

theorem sparing_ensureDirectory {path : String} {style : DirectoryStyle} :
    Keeps (Sparing edited t₀) (ensureDirectory path style) := keeps_bind (keeps_ask _) fun _ => sparing_ensureBelow

theorem sparing_createHome {u : User} : Keeps (Sparing edited t₀) (createHome u) := by
  refine keeps_read fun s => keeps_bind (keeps_ofExcept _) fun path => keeps_bind sparing_ensureDirectory fun parent => ?_
  refine keeps_bind (sparing_childOrNew ⟨⟨_, rfl⟩, ⟨_, rfl⟩⟩) fun home => ?_
  exact keeps_bind (keeps_for fun _ _ => keeps_discard (sparing_childOrNew ⟨⟨_, rfl⟩, ⟨_, rfl⟩⟩)) fun _ => keeps_pure _

/-! ## What is found or made -/

theorem found_childOrNew (h : s.Sound) (hp : new.Plain) (hrun : (childOrNew parent new).run s = (.ok id, s')) :
    ∃ dir c, s'.tree.get? parent = some dir ∧ s'.tree.get? id = some c ∧ s'.tree.childNamed dir new.name = .ok (some c) := by
  have h' := sound_childOrNew hp h hrun
  have hrun := got hrun
  rcases asked hrun with ⟨e, -, he, -⟩ | ⟨dir, hdir, hrun⟩
  · cases he
  rcases asked hrun with ⟨e, -, he, -⟩ | ⟨child?, hchild, hrun⟩
  · cases he
  have hd := node_ok.1 hdir
  cases child? with
  | some child =>
    cases hrun
    obtain ⟨-, hget, -⟩ := h.linked.childNamed_some hd hchild
    exact ⟨dir, child, hd, hget, hchild⟩
  | none =>
    rw [run_addNew] at hrun
    cases hrun
    have hself : (s.tree.takeId.2.add (new.build s) parent s.now).get? (new.build s).id = some { new.build s with parent } :=
      get?_add_new h.linked hp.isNew hd
    have hold : (s.tree.takeId.2.add (new.build s) parent s.now).get? parent = some (if parent = parent then _ else dir) :=
      get?_add_old h.linked hp.isNew hd
    rw [if_pos rfl] at hold
    refine ⟨_, _, hold, hself, ?_⟩
    exact (h'.linked.childNamed_iff (h'.linked.get_self hold)).2 ⟨hself, (h.linked.id_eq hd).symm, rfl⟩

theorem found_ensureBelow {style : DirectoryStyle} : ∀ {names : List String} {start : NodeId} {n : Node} {s : Machine}, s.Sound →
    s.tree.get? start = some n → (ensureBelow style start names).run s = (.ok id, s') →
      ∃ n' m, s'.tree.get? start = some n' ∧ s'.tree.get? id = some m ∧ s'.tree.Reaches n' names m
  | [], start, n, s, _, hn, hrun => by
    cases hrun
    exact ⟨n, n, hn, hn, rfl⟩
  | name :: names, start, n, s, h, hn, hrun => by
    have hplain : NewNode.Plain {
        name, kind := .directory, owner := style.owner, group := style.group, permissions := style.permissions } :=
      ⟨⟨_, rfl⟩, ⟨_, rfl⟩⟩
    rcases of_run_bind hrun with ⟨e, -, he⟩ | ⟨child, s₁, hfirst, hrun⟩
    · cases he
    have h₁ := sound_childOrNew hplain h hfirst
    obtain ⟨n₁, c, hn₁, hc, hchild⟩ := found_childOrNew h hplain hfirst
    obtain ⟨c', m, hc', hm, hreach⟩ := found_ensureBelow h₁ hc hrun
    -- what was found first is still there
    obtain ⟨h₂, hspares⟩ : Sparing (fun _ => False) s₁.tree s' := sparing_ensureBelow ⟨h₁, .refl⟩ hrun
    obtain ⟨n₂, hn₂, -⟩ := hspares.node hn₁
    obtain ⟨c₂, hc₂, hstands, -⟩ := hspares.node hc
    rw [hc'] at hc₂
    cases hc₂
    have hid := h₁.linked.id_eq hn₁
    refine ⟨n₂, m, hn₂, hm, c', ?_, hreach⟩
    exact childNamed_stands h₁.linked h₂.linked (h₁.linked.get_self hn₁) hchild (hid ▸ hn₂)
      ((h₁.linked.id_eq hc).symm ▸ hc') hstands

/-- The names of a path lead to the directory that is there in the end. -/
theorem found_ensureDirectory {path : String} {style : DirectoryStyle} (h : s.Sound)
    (hrun : (ensureDirectory path style).run s = (.ok id, s')) :
    ∃ root m, s'.tree.root = .ok root ∧ s'.tree.get? id = some m ∧ s'.tree.Reaches root (Path.nonEmptyComponents path) m := by
  obtain ⟨h', hspares⟩ : Sparing (fun _ => False) s.tree s' := sparing_ensureDirectory ⟨h, .refl⟩ hrun
  rcases askedOf hrun with ⟨e, -, he, -⟩ | ⟨root, hroot, hrun⟩
  · cases he
  obtain ⟨root', m, hroot', hm, hreach⟩ := found_ensureBelow h (h.linked.root_self hroot) hrun
  rw [h.linked.id_eq (node_ok.1 hroot), ← hspares.rootId] at hroot'
  exact ⟨root', m, node_ok.2 hroot', hm, hreach⟩

/-- What lies in a directory is found by the path of the directory and its own name, also when other nodes
have changed since the directory was found. -/
theorem found_inside {path : List String} {name : String} {root d n : Node} (h : s.Sound) (h' : s'.Sound)
    (hs : Spares edited s.tree s'.tree) (hroot : s.tree.root = .ok root) (hd : s.tree.get? id = some d)
    (hreach : s.tree.Reaches root path d) (hn : s'.tree.get? n.id = some n) (hparent : n.parent = id)
    (hname : n.name = .str name) : ∃ root', s'.tree.root = .ok root' ∧ s'.tree.Reaches root' (path ++ [name]) n := by
  obtain ⟨root', hroot', -⟩ := hs.node (node_ok.1 hroot)
  have hself : s'.tree.get? root.id = some root' := by rw [h.linked.id_eq (node_ok.1 hroot), hroot']
  obtain ⟨d', hd', hreach'⟩ := hs.reaches h.linked h'.linked (h.linked.root_self hroot) hself hreach
  rw [h.linked.id_eq hd] at hd'
  refine ⟨root', node_ok.2 (hs.rootId.symm ▸ hroot'), reaches_append hreach' ⟨n, ?_, rfl⟩⟩
  exact (h'.linked.childNamed_iff (h'.linked.get_self hd')).2 ⟨hn, hparent.trans (h'.linked.id_eq hd').symm, hname⟩

/-- A file of the system is written where its path leads to, and nowhere else. -/
theorem found_putSystemFile {dir name content : String} {permissions : Json} {r : Except Fault NodeId} (h : s.Sound)
    (hrun : (putSystemFile dir name content permissions).run s = (r, s')) :
    Spares (fun a => r = .ok a) s.tree s'.tree ∧ ∀ id, r = .ok id → ∃ root n, s'.tree.root = .ok root ∧
      s'.tree.get? id = some n ∧ s'.tree.Reaches root (Path.nonEmptyComponents dir ++ [name]) n ∧ n.content = .str content := by
  have h' : s'.Sound := sound_putSystemFile h hrun
  have hspares : Keeps (Sparing (fun a => r = .ok a) s.tree) (ensureDirectory dir {}) := sparing_ensureDirectory
  rcases of_run_bind hrun with ⟨e, hdirectory, rfl⟩ | ⟨dirId, s₁, hdirectory, hrun⟩
  · exact ⟨(hspares ⟨h, .refl⟩ hdirectory).2, fun _ he => by cases he⟩
  obtain ⟨h₁, hs₁⟩ := hspares ⟨h, .refl⟩ hdirectory
  obtain ⟨root, d, hroot, hd, hreach⟩ := found_ensureDirectory h hdirectory
  have hrun := got hrun
  rcases asked hrun with ⟨e, -, rfl, rfl⟩ | ⟨d', hd', hrun⟩
  · exact ⟨hs₁, fun _ he => by cases he⟩
  rcases asked hrun with ⟨e, -, rfl, rfl⟩ | ⟨child?, hchild, hrun⟩
  · exact ⟨hs₁, fun _ he => by cases he⟩
  rw [node_ok, hd] at hd'
  cases hd'
  -- the directory is where it was, and the file is its child by that name
  have hend : ∀ {n : Node}, Spares (fun a => r = .ok a) s₁.tree s'.tree → s'.tree.get? n.id = some n → n.name = .str name →
      n.parent = dirId → n.content = .str content → r = .ok n.id →
        Spares (fun a => r = .ok a) s.tree s'.tree ∧ ∀ id, r = .ok id → ∃ root n, s'.tree.root = .ok root ∧
          s'.tree.get? id = some n ∧ s'.tree.Reaches root (Path.nonEmptyComponents dir ++ [name]) n ∧ n.content = .str content := by
    intro n hs hn hname hparent hcontent hr
    refine ⟨hs₁.trans hs, fun id he => ?_⟩
    rw [hr] at he
    cases he
    obtain ⟨root', hroot', hreach'⟩ := found_inside h₁ h' hs hroot hd hreach hn hparent hname
    exact ⟨root', n, hroot', hn, hreach', hcontent⟩
  cases child? with
  | none =>
    rw [run_addNew] at hrun
    cases hrun
    have hplain : NewNode.Plain { name := .str name, kind := .file, content := .str content, permissions } :=
      ⟨⟨_, rfl⟩, ⟨_, rfl⟩⟩
    exact hend (n := { NewNode.build { name := .str name, kind := .file, content := .str content, permissions } s₁ with parent := dirId })
      (spares_add h₁.linked hplain.isNew) (get?_add_new h₁.linked hplain.isNew hd) rfl rfl rfl rfl
  | some n =>
    obtain ⟨hn, hparent, hname⟩ := (h₁.linked.childNamed_iff (h₁.linked.get_self hd)).1 hchild
    rw [h₁.linked.id_eq hd] at hparent
    dsimp only at hrun
    split at hrun
    · rw [run_bind, run_editTree] at hrun
      cases hrun
      have hedit : Spares (· = n.id) s₁.tree (s₁.tree.update n.id fun n => { n with content := .str content, modified := s₁.now }) :=
        spares_edit fun _ => rfl
      refine hend (n := { n with content := .str content, modified := s₁.now }) (hedit.imp fun a ha => ?_) ?_ hname hparent rfl rfl
      · rw [ha]
      · show (s₁.tree.update n.id _).get? n.id = _
        rw [get?_update, if_pos rfl, hn]
        rfl
    · rename_i hsame
      cases hrun
      exact hend .refl hn hname hparent (by simpa using hsame) rfl

end Machine

end SimUnix
