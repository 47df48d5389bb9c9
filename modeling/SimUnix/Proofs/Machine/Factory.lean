/-
The files of users and groups on a new system. Everything that is laid out under one of the names on the way
to them belongs to root and is of the right kind, so that they are published once they have been written.
-/
import SimUnix.Proofs.Machine.Published

namespace SimUnix

/-! ## Fitting nodes -/

/-- A node that may go by its name, if that is one on the way to the files of users and groups: it is of the
right kind, and only root may write to it. -/
structure Node.Fitting (n : Node) : Prop where
  directory : n.name = .str "etc" → n.Barred ∧ n.isDir = true
  file : n.name = .str "passwd" ∨ n.name = .str "group" → n.Barred ∧ n.isDir = false

namespace Node

variable {n n' : Node}

theorem Fitting.congr (h : n.Fitting) (hname : n'.name = n.name) (hkind : n'.kind = n.kind) (howner : n'.owner = n.owner)
    (hperm : n'.permissions = n.permissions) : n'.Fitting := by
  have hbarred : n.Barred → n'.Barred := fun hb => ⟨howner.trans hb.owner, hperm ▸ hb.flags⟩
  have hdir : n'.isDir = n.isDir := by
    unfold isDir
    rw [hkind]
  exact ⟨fun he => (h.directory (hname ▸ he)).imp hbarred hdir.trans, fun he => (h.file (hname ▸ he)).imp hbarred hdir.trans⟩

theorem Fitting.of_standing (h : n.Fitting) (hs : n'.standing = n.standing) : n'.Fitting :=
  have hfield : ∀ {β : Type} (field : Node → β), field n'.standing = field n.standing := fun field => congrArg field hs
  h.congr (hfield name) (hfield kind) (hfield owner) (hfield permissions)

/-- None of the permissions that are given out here lets group or others write. -/
theorem barred_of_text {p : String} (howner : n.owner = .str rootName) (hperm : n.permissions = .str p)
    (hp : p ∈ [directoryPermissions, filePermissions, Executable.permissions]) : n.Barred := by
  have hflags : ∀ p ∈ [directoryPermissions, filePermissions, Executable.permissions], ∀ c ∈ [Class.group, .other],
      Permission.grants (p.toList.map fun c => .str c.toString) c .write = false := by decide +kernel
  refine ⟨howner, _, hperm ▸ rfl, fun c hc => hflags p hp c ?_⟩
  cases c
  · exact absurd rfl hc
  · exact List.mem_cons_self ..
  · exact List.mem_cons_of_mem _ (List.mem_cons_self ..)

end Node

namespace Tree

variable {t : Tree} {n dir : Node} {p : NodeId} {now : Time.Stamp}

/-- A tree in which all nodes may go by their names. -/
structure Fitted (t : Tree) : Prop where
  root : ∀ n, t.get? t.rootId = some n → n.Barred
  node : ∀ a n, t.get? a = some n → n.Fitting

theorem fitted_empty {ids : IdSupply} : Fitted (Tree.empty ids now) := by
  refine ⟨fun n hn => ?_, fun a n hn => ?_⟩
  all_goals
    rw [Machine.get?_empty] at hn
    split at hn <;> cases hn
  · exact Node.barred_of_text rfl rfl (List.mem_cons_self ..)
  · refine ⟨fun he => ?_, fun he => he.elim (fun he => ?_) fun he => ?_⟩ <;> exact absurd (Json.str.inj he) (by decide)

theorem Fitted.add (hf : t.Fitted) (h : Linked t) (hn : IsNew t n) (hd : t.get? p = some dir) (hfit : n.Fitting) :
    Fitted (t.takeId.2.add n p now) := by
  refine ⟨fun m hm => ?_, fun a m hm => ?_⟩
  · rcases get?_add_cases h hn hd hm with ⟨he, -⟩ | ⟨k, hk, hs⟩
    · exact absurd he.symm (h.new_ne_root hn)
    · exact (hf.root k hk).of_standing hs
  · rcases get?_add_cases h hn hd hm with ⟨-, rfl⟩ | ⟨k, hk, hs⟩
    · exact hfit.congr rfl rfl rfl rfl
    · exact (hf.node a k hk).of_standing hs

theorem Fitted.update {id : NodeId} {f : Node → Node} (hf : t.Fitted) (hs : ∀ n, (f n).standing = n.standing) : Fitted (t.update id f) := by
  have hback : ∀ {a m}, (t.update id f).get? a = some m → ∃ k, t.get? a = some k ∧ m.standing = k.standing := by
    intro a m hm
    rw [get?_update] at hm
    split at hm
    · obtain ⟨k, hk, rfl⟩ := Option.map_eq_some_iff.1 hm
      exact ⟨k, hk, hs k⟩
    · exact ⟨m, hm, rfl⟩
  refine ⟨fun m hm => ?_, fun a m hm => ?_⟩
  · obtain ⟨k, hk, hstand⟩ := hback hm
    exact (hf.root k hk).of_standing hstand
  · obtain ⟨k, hk, hstand⟩ := hback hm
    exact (hf.node a k hk).of_standing hstand

theorem welcomes_fitted : Welcomes (fun _ n => n.Fitting) Fitted :=
  fun _ _ _ _ _ h _ hf hn hd hfit => hf.add h hn hd hfit

end Tree

namespace Machine

open Tree Act

variable {s s' : Machine} {new : NewNode} {parent : NodeId}

/-- New nodes that may go by their names. -/
def NewNode.Fits (new : NewNode) : Prop := ∀ s, (new.build s).Fitting

/-- A sound system in whose tree all nodes may go by their names. -/
def Fit (s : Machine) : Prop := s.Sound ∧ s.tree.Fitted

theorem fit_childOrNew (hp : new.Plain) (hf : new.Fits) : Keeps Fit (childOrNew parent new) :=
  fun _ _ _ h hrun => grounded_childOrNew welcomes_fitted hp h (fun _ _ => hf _) hrun

theorem fit_ensureDirectory {path : String} {style : DirectoryStyle} (hf : ∀ name ∈ Path.nonEmptyComponents path, NewNode.Fits {
    name, kind := .directory, owner := style.owner, group := style.group, permissions := style.permissions }) :
    Keeps Fit (ensureDirectory path style) := grounded_ensureDirectory welcomes_fitted fun name hname _ => hf name hname

theorem fit_putSystemFile {dir name content : String} {permissions : Json}
    (hd : ∀ part ∈ Path.nonEmptyComponents dir, NewNode.Fits {
      name := part, kind := .directory, owner := .str rootName, group := .str rootName, permissions := directoryPermissions })
    (hf : NewNode.Fits { name, kind := .file, content, permissions }) : Keeps Fit (putSystemFile dir name content permissions) :=
  grounded_putSystemFile welcomes_fitted (fun _ _ _ _ _ hs hfit => hfit.update hs) (fun part hpart _ => hd part hpart) fun _ => hf

/-! ## Names -/

/-- A directory may have any name but those of the files, and the name of their directory if only root may write to it. -/
theorem fits_directory {name : String} {owner group permissions : Json} (hfile : name ≠ "passwd" ∧ name ≠ "group")
    (hetc : name = "etc" → owner = rootName ∧ permissions = directoryPermissions) :
    NewNode.Fits { name, kind := .directory, owner, group, permissions } := by
  refine fun s => ⟨fun he => ?_, fun he => ?_⟩
  · obtain ⟨ho, hp⟩ := hetc (Json.str.inj he)
    exact ⟨Node.barred_of_text ho hp (List.mem_cons_self ..), rfl⟩
  · exact (he.elim (fun he => hfile.1 (Json.str.inj he)) fun he => hfile.2 (Json.str.inj he)).elim

/-- A file of the system may have any name but that of the directory. -/
theorem fits_file {name : String} {content : Json} {permissions : String} (hetc : name ≠ "etc")
    (hp : permissions ∈ [directoryPermissions, filePermissions, Executable.permissions]) :
    NewNode.Fits { name, kind := .file, content, permissions } := fun _ =>
  ⟨fun he => absurd (Json.str.inj he) hetc, fun _ => ⟨Node.barred_of_text rfl rfl hp, rfl⟩⟩

/-! ## A new system -/

theorem fit_systemDirectory {path permissions : String} (hp : (path, permissions) ∈ systemDirectories) :
    Keeps Fit (ensureDirectory path { permissions := .str permissions }) := by
  have hall : ∀ p ∈ systemDirectories, ∀ name ∈ Path.nonEmptyComponents p.1,
      (name ≠ "passwd" ∧ name ≠ "group") ∧ (name = "etc" → p.2 = directoryPermissions) := by decide +kernel
  refine fit_ensureDirectory fun name hname => ?_
  obtain ⟨hfile, hetc⟩ := hall _ hp name hname
  exact fits_directory hfile fun he => ⟨rfl, congrArg Json.str (hetc he)⟩

/-- The directories of files of the system are made on the way where they are missing. -/
theorem fit_ownFile {dir name content permissions : String} (hdir : dir ∈ [programsPath, appsPath, "/etc"]) (hetc : name ≠ "etc")
    (hp : permissions ∈ [directoryPermissions, filePermissions, Executable.permissions]) :
    Keeps Fit (putSystemFile dir name content permissions) := by
  have hall : ∀ dir ∈ [programsPath, appsPath, "/etc"], ∀ part ∈ Path.nonEmptyComponents dir, part ≠ "passwd" ∧ part ≠ "group" := by
    decide +kernel
  exact fit_putSystemFile (fun part hpart => fits_directory (hall dir hdir part hpart) fun _ => ⟨rfl, rfl⟩) (fits_file hetc hp)

/-- The home of the first user. -/
theorem fit_createHome {u : User} (hu : u.home = .str (homeFor factoryUser)) : Keeps Fit (createHome u) := by
  have hsplit : Path.split (homeFor factoryUser) = ("/home", factoryUser) := by decide +kernel
  have hparent : ∀ part ∈ Path.nonEmptyComponents (parentOrRoot "/home"), part ≠ "passwd" ∧ part ≠ "group" := by decide +kernel
  have hfolders : ∀ name ∈ homeFolders, (name ≠ "passwd" ∧ name ≠ "group") ∧ name ≠ "etc" := by decide +kernel
  have hplain : ∀ {name : String} {owner group permissions : Json},
      NewNode.Plain { name, kind := .directory, owner, group, permissions } := ⟨⟨_, rfl⟩, ⟨_, rfl⟩⟩
  refine keeps_read fun s => ?_
  rw [hu]
  dsimp only [Json.asOwnText, Act.ofExcept]
  rw [pure_bind, hsplit]
  refine keeps_bind (fit_ensureDirectory fun part hpart => fits_directory (hparent part hpart) fun _ => ⟨rfl, rfl⟩) fun id => ?_
  refine keeps_bind (fit_childOrNew hplain (fits_directory (by decide) fun he => absurd he (by decide))) fun home => ?_
  refine keeps_bind (keeps_for fun name hname => keeps_discard (fit_childOrNew hplain ?_)) fun _ => keeps_pure _
  obtain ⟨hfile, hetc⟩ := hfolders name hname
  exact fits_directory hfile fun he => absurd he hetc

theorem steady_fit : Steady Fit :=
  ⟨fun h => h.1.linked, fun h ht hs => ⟨h.1.same ht hs, ht ▸ h.2⟩, fun h ha => ⟨h.1.aside ha, ha.tree ▸ h.2⟩⟩

theorem fit_syncFiles : Keeps Fit syncFiles :=
  keeps_bind (keeps_ask _) fun _ => keeps_bind (keeps_discard (fit_ownFile (by simp) (by decide) (by simp))) fun _ =>
    keeps_bind (keeps_ask _) fun _ => keeps_discard (fit_ownFile (by simp) (by decide) (by simp))

/-- Writing the files publishes the tables where all nodes may go by their names. -/
theorem gives_syncFiles : Gives Fit Published syncFiles := by
  intro s s' _ hfit hrun
  obtain ⟨h', hfit'⟩ := fit_syncFiles hfit hrun
  have hsame : s' = { s with tree := s'.tree } := onlyTree_syncFiles (.refl s) hrun
  obtain ⟨-, U, G, hU, hG, root, etc, users, groups, hroot, hetc, husers, hgroups, hcU, hcG⟩ := found_syncFiles hfit.1 hrun
  have hrget := h'.linked.root_self hroot
  obtain ⟨heget, -, hename⟩ := (h'.linked.childNamed_iff hrget).1 hetc
  obtain ⟨huget, -, huname⟩ := (h'.linked.childNamed_iff heget).1 husers
  obtain ⟨hgget, -, hgname⟩ := (h'.linked.childNamed_iff heget).1 hgroups
  obtain ⟨hebarred, hedir⟩ := (hfit'.node _ _ heget).directory hename
  obtain ⟨hubarred, hufile⟩ := (hfit'.node _ _ huget).file (.inl huname)
  obtain ⟨hgbarred, hgfile⟩ := (hfit'.node _ _ hgget).file (.inr hgname)
  have hbarred : ∀ n ∈ [root, etc, users, groups], n.Barred := by
    simp only [List.forall_mem_cons]
    exact ⟨hfit'.root _ (node_ok.1 hroot), hebarred, hubarred, hgbarred, fun _ hn => absurd hn List.not_mem_nil⟩
  rw [hsame]
  exact ⟨U, G, hU, hG, root, etc, users, groups, ⟨hroot, hetc, husers, hgroups, hedir, hufile, hgfile, hbarred⟩, hcU, hcG⟩

/-- The files of users and groups are published on a new system. -/
theorem published_seed (h : s.Sound) (hrun : seed.run s = (.ok ⟨⟩, s')) : s'.Published := by
  have hgives : Gives Fit Published furnish := by
    have hprograms : ∀ c ∈ Command.programs, c.name ≠ "etc" := by decide +kernel
    have happs : ∀ id ∈ coreApps, id ≠ "etc" := by decide +kernel
    refine gives_bind (gives_keeps (keeps_forPairs (f := fun path permissions => discard (ensureDirectory path
      { permissions := .str permissions })) fun _ _ hin => keeps_discard (fit_systemDirectory hin))) fun _ => ?_
    refine gives_bind (gives_keeps (keeps_for (f := fun c : Command => discard (putSystemFile programsPath c.name
      (Executable.programContent c) Executable.permissions)) fun c hc =>
        keeps_discard (fit_ownFile (by simp) (hprograms c hc) (by simp)))) fun _ => ?_
    refine gives_bind (gives_keeps (keeps_for (f := putAppFile) fun id hid =>
      keeps_discard (fit_ownFile (by simp) (happs id hid) (by simp)))) fun _ => ?_
    refine gives_read fun s => gives_bind (gives_keeps (keeps_discard (fit_ownFile (by simp) (by decide) (by simp)))) fun _ => ?_
    refine gives_bind (gives_keeps steady_fit.noteBoot) fun _ => gives_bind (gives_keeps steady_fit.setRootPassword) fun _ => ?_
    refine gives_bind_of (gives_keeps steady_fit.seedUser) home_seedUser fun u hu => ?_
    refine gives_bind (gives_keeps (keeps_discard (fit_createHome hu))) fun _ => gives_bind gives_syncFiles fun _ => ?_
    refine gives_keeps (keeps_bind (keeps_modify fun _ h => h) fun _ => keeps_log fun h ha => ?_)
    rw [ha.same]
    exact h
  rw [seed_eq, run_bind, run_modify] at hrun
  exact hgives (show s.blank.Fit from ⟨h.blank, fitted_empty⟩) hrun

end Machine

end SimUnix
