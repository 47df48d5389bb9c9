/-
Room for applications on a new system. What is laid out there has names of its own, so that nothing is in the way of an
application of another name, and no program is found in its stead.
-/
import SimUnix.Proofs.Machine.Launcher
import SimUnix.Proofs.Machine.Session
import SimUnix.Proofs.Tree.Duplicate

namespace SimUnix

/-! ## Nodes that leave room -/

/-- A node that leaves room for an application: it does not have its name, and it is a directory if it goes by a name on the way
to the launchers. -/
structure Node.LeavesRoom (id : String) (n : Node) : Prop where
  other : n.name ≠ .str id
  directory : ∀ part ∈ Machine.appsNames, n.name = .str part → n.isDir = true

theorem Node.LeavesRoom.congr {id : String} {n n' : Node} (h : n.LeavesRoom id) (hname : n'.name = n.name) (hdir : n'.isDir = n.isDir) :
    n'.LeavesRoom id :=
  ⟨fun he => h.other (hname ▸ he), fun part hpart he => hdir.trans (h.directory part hpart (hname ▸ he))⟩

theorem Node.LeavesRoom.of_standing {id : String} {n n' : Node} (h : n.LeavesRoom id) (hs : n'.standing = n.standing) :
    n'.LeavesRoom id :=
  have hname : n'.standing.name = n.standing.name := congrArg Node.name hs
  h.congr hname (Tree.standing_isDir hs)

namespace Tree

variable {t : Tree} {n d m : Node} {id name : String} {names : List String}

/-- A tree in which every node leaves room for an application. -/
def Roomy (id : String) (t : Tree) : Prop := ∀ a n, t.get? a = some n → n.LeavesRoom id

theorem welcomes_roomy : Welcomes (fun _ n => n.LeavesRoom id) (Roomy id) := by
  intro t n dir p now h _ hroom hn hd hfit a m hm
  rcases get?_add_cases h hn hd hm with ⟨-, rfl⟩ | ⟨k, hk, hs⟩
  · exact hfit.congr rfl rfl
  · exact (hroom a k hk).of_standing hs

theorem overlooks_roomy : Overlooks (Roomy id) := by
  intro t a f _ _ hf hroom b m hm
  rw [get?_update] at hm
  split at hm
  · obtain ⟨k, hk, rfl⟩ := Option.map_eq_some_iff.1 hm
    exact (hroom b k hk).of_standing (hf k)
  · exact hroom b m hm

/-- A node sits in one place only. -/
theorem Sits.names_unique {names' : List String} (h : Linked t) (hn : t.Sits names n) (hn' : t.Sits names' n) : names = names' := by
  have hpath : Path.ofComponents names = Path.ofComponents names' := Except.ok.inj ((hn.pathOf h).symm.trans (hn'.pathOf h))
  rw [← Path.components_ofComponents hn.valid, hpath, Path.components_ofComponents hn'.valid]

theorem Roomy.sits_directory (hroom : t.Roomy id) (h : Linked t) (hname : name ∈ Machine.appsNames) (hn : t.Sits (names ++ [name]) n) :
    n.isDir = true := by
  obtain ⟨-, -, -, -, -, hown⟩ := hn.inside h
  exact (hroom n.id n (hn.present h)).directory name hname hown

theorem Roomy.not_sits (hroom : t.Roomy id) (h : Linked t) : ¬ t.Sits (names ++ [id]) n := by
  intro hn
  obtain ⟨-, -, -, -, -, hown⟩ := hn.inside h
  exact (hroom n.id n (hn.present h)).other hown

theorem Roomy.lookup_none (hroom : t.Roomy id) (h : Linked t) (hvalid : Path.Valid (names ++ [id])) :
    t.lookup (Path.ofComponents (names ++ [id])) = .ok none := by
  obtain ⟨found?, hfound⟩ := h.lookup_ok (Path.ofComponents (names ++ [id]))
  cases found? with
  | none => exact hfound
  | some n => exact absurd ⟨hvalid, hfound⟩ (hroom.not_sits h)

end Tree

namespace Machine

open Tree Act

variable {s s' s₁ : Machine} {id : String} {d n : Node} {user? : Option Json} {fits : Node → Node → Prop} {J : Tree → Prop}

/-! ## The layout of a new system -/

/-- The names of the directories of a new system. -/
def factoryDirectories : List String :=
  (systemDirectories.flatMap fun p => Path.nonEmptyComponents p.1) ++ factoryUser :: homeFolders

/-- The names of the files of a new system. -/
def factoryFiles : List String := Command.programs.map Command.name ++ coreApps ++ ["hostname", "passwd", "group"]

/-- A property of trees that goes on when a directory or a file of a new system is added, whoever may use it. -/
structure BearsLayout (fits : Node → Node → Prop) (J : Tree → Prop) : Prop where
  welcomes : Welcomes fits J
  overlooks : Overlooks J
  empty : ∀ ids now, J (Tree.empty ids now)
  directory : ∀ name ∈ factoryDirectories, ∀ owner group permissions : Json,
    NewNode.Suits fits { name, kind := .directory, owner, group, permissions }
  file : ∀ name ∈ factoryFiles, ∀ content permissions : Json, NewNode.Suits fits { name, kind := .file, content, permissions }

theorem BearsLayout.systemDirectory (hJ : BearsLayout fits J) {path permissions : String} (hp : (path, permissions) ∈ systemDirectories) :
    Keeps (Grounded J) (ensureDirectory path { permissions := .str permissions }) :=
  grounded_ensureDirectory hJ.welcomes fun part hpart =>
    hJ.directory part (List.mem_append_left _ (List.mem_flatMap.2 ⟨_, hp, hpart⟩)) _ _ _

theorem BearsLayout.ownFile (hJ : BearsLayout fits J) {dir name content permissions : String}
    (hdir : dir ∈ [programsPath, appsPath, "/etc"]) (hname : name ∈ factoryFiles) :
    Keeps (Grounded J) (putSystemFile dir name content permissions) := by
  have hways : ∀ dir ∈ [programsPath, appsPath, "/etc"], ∀ part ∈ Path.nonEmptyComponents dir, part ∈ factoryDirectories := by
    decide +kernel
  exact grounded_putSystemFile hJ.welcomes hJ.overlooks (fun part hpart => hJ.directory part (hways dir hdir part hpart) _ _ _)
    (hJ.file name hname _ _)

/-- The home of the first user. -/
theorem BearsLayout.home (hJ : BearsLayout fits J) {u : User} (hu : u.home = .str (homeFor factoryUser)) :
    Keeps (Grounded J) (createHome u) := by
  have hsplit : Path.split (homeFor factoryUser) = ("/home", factoryUser) := by decide +kernel
  have hparent : ∀ part ∈ Path.nonEmptyComponents (parentOrRoot "/home"), part ∈ factoryDirectories := by decide +kernel
  have hfolder : ∀ {parent : NodeId} {folder : String} {owner group permissions : Json}, folder ∈ factoryUser :: homeFolders →
      Keeps (Grounded J) (childOrNew parent { name := folder, kind := .directory, owner, group, permissions }) :=
    fun hf _ _ _ h hrun => grounded_childOrNew hJ.welcomes ⟨⟨_, rfl⟩, ⟨_, rfl⟩⟩ h
      (fun dir _ => hJ.directory _ (List.mem_append_right _ hf) _ _ _ dir _) hrun
  refine keeps_read fun s => ?_
  rw [hu]
  dsimp only [Json.asOwnText, Act.ofExcept]
  rw [pure_bind, hsplit]
  refine keeps_bind (grounded_ensureDirectory hJ.welcomes fun part hpart => hJ.directory part (hparent part hpart) _ _ _) fun parent => ?_
  refine keeps_bind (hfolder (List.mem_cons_self ..)) fun home => ?_
  exact keeps_bind (keeps_for fun folder hf => keeps_discard (hfolder (List.mem_cons_of_mem _ hf))) fun _ => keeps_pure _

theorem steady_grounded : Steady (Grounded J) :=
  ⟨fun h => h.1.linked, fun h ht hs => ⟨h.1.same ht hs, ht ▸ h.2⟩, fun h ha => ⟨h.1.aside ha, ha.tree ▸ h.2⟩⟩

/-- It holds once a new system has been laid out. -/
theorem BearsLayout.seed (hJ : BearsLayout fits J) (h : s.Sound) (hrun : seed.run s = (.ok ⟨⟩, s')) : s'.Grounded J := by
  have hgives : Gives (Grounded J) (Grounded J) furnish := by
    have hprograms : ∀ c ∈ Command.programs, c.name ∈ factoryFiles := fun c hc =>
      List.mem_append_left _ (List.mem_append_left _ (List.mem_map_of_mem hc))
    have happs : ∀ id ∈ coreApps, id ∈ factoryFiles := fun id hid => List.mem_append_left _ (List.mem_append_right _ hid)
    have hothers : ∀ name ∈ ["hostname", "passwd", "group"], name ∈ factoryFiles := fun _ => List.mem_append_right _
    refine gives_bind (gives_keeps (keeps_forPairs (f := fun path permissions => discard (ensureDirectory path
      { permissions := .str permissions })) fun _ _ hin => keeps_discard (hJ.systemDirectory hin))) fun _ => ?_
    refine gives_bind (gives_keeps (keeps_for (f := fun c : Command => discard (putSystemFile programsPath c.name
      (Executable.programContent c) Executable.permissions)) fun c hc =>
        keeps_discard (hJ.ownFile (by simp) (hprograms c hc)))) fun _ => ?_
    refine gives_bind (gives_keeps (keeps_for (f := putAppFile) fun id hid =>
      keeps_discard (hJ.ownFile (by simp) (happs id hid)))) fun _ => ?_
    refine gives_read fun s => gives_bind (gives_keeps (keeps_discard (hJ.ownFile (by simp) (hothers _ (by simp))))) fun _ => ?_
    refine gives_bind (gives_keeps steady_grounded.noteBoot) fun _ => gives_bind (gives_keeps steady_grounded.setRootPassword) fun _ => ?_
    refine gives_bind_of (gives_keeps steady_grounded.seedUser) home_seedUser fun u hu => ?_
    refine gives_keeps (keeps_bind (keeps_discard (hJ.home hu)) fun _ => keeps_bind ?_ fun _ =>
      keeps_bind steady_grounded.noteBoot fun _ => steady_grounded.log)
    exact keeps_bind (keeps_ask _) fun _ => keeps_bind (keeps_discard (hJ.ownFile (by simp) (hothers _ (by simp)))) fun _ =>
      keeps_bind (keeps_ask _) fun _ => keeps_discard (hJ.ownFile (by simp) (hothers _ (by simp)))
  rw [seed_eq, run_bind, run_modify] at hrun
  exact hgives (show s.blank.Grounded J from ⟨h.blank, hJ.empty _ _⟩) hrun

/-! ## Room on a new system -/

/-- A name that nothing on a new system has. -/
def Unused (id : String) : Prop := id ≠ "/" ∧ id ∉ factoryDirectories ∧ id ∉ factoryFiles

instance (id : String) : Decidable (Unused id) := inferInstanceAs (Decidable (_ ∧ _ ∧ _))

theorem suits_directory {name : String} {owner group permissions : Json} (hname : name ≠ id) :
    NewNode.Suits (fun _ n => n.LeavesRoom id) { name, kind := .directory, owner, group, permissions } :=
  fun _ _ => ⟨fun he => hname (Json.str.inj he), fun _ _ _ => rfl⟩

theorem suits_file {name : String} {content permissions : Json} (hname : name ≠ id) (hpart : name ∉ appsNames) :
    NewNode.Suits (fun _ n => n.LeavesRoom id) { name, kind := .file, content, permissions } :=
  fun _ _ => ⟨fun he => hname (Json.str.inj he), fun _ hin he => absurd (Json.str.inj he ▸ hin) hpart⟩

theorem roomy_empty (hid : id ≠ "/") {ids : IdSupply} {now : Time.Stamp} : Roomy id (Tree.empty ids now) := by
  intro a n hn
  rw [get?_empty] at hn
  split at hn <;> cases hn
  exact ⟨fun he => hid (Json.str.inj he).symm, fun _ _ _ => rfl⟩

theorem bears_roomy (hid : Unused id) : BearsLayout (fun _ n => n.LeavesRoom id) (Roomy id) where
  welcomes := welcomes_roomy
  overlooks := overlooks_roomy
  empty _ _ := roomy_empty hid.1
  directory _ hname _ _ _ := suits_directory fun he => hid.2.1 (he ▸ hname)
  file _ hname _ _ := by
    have hparts : ∀ name ∈ factoryFiles, name ∉ appsNames := by decide +kernel
    exact suits_file (fun he => hid.2.2 (he ▸ hname)) (hparts _ hname)

/-- Writing the launcher of another application leaves room. -/
theorem roomy_putAppFile {other : String} (hother : other ≠ id) (hid : id ∉ appsNames) (hpart : other ∉ appsNames) :
    Keeps (Grounded (Roomy id)) (putAppFile other) := by
  have hways : ∀ part ∈ Path.nonEmptyComponents appsPath, part ∈ appsNames := by decide +kernel
  exact keeps_discard (grounded_putSystemFile welcomes_roomy overlooks_roomy
    (fun part hin => suits_directory fun he => hid (he ▸ hways part hin)) (suits_file hother hpart))

/-- Where all nodes leave room, nothing is in the way of the application, and no launcher is there. -/
theorem clearFor_of_roomy (h : s.Sound) (hroom : s.tree.Roomy id) (hvalid : Path.validName id = true) :
    s.ClearFor id ∧ s.tree.lookup (launcherPath id) = .ok none := by
  have hfree : s.tree.lookup (launcherPath id) = .ok none := by
    rw [launcherPath_eq]
    exact hroom.lookup_none h.linked (Path.valid_snoc.2 ⟨valid_appsNames, hvalid⟩)
  refine ⟨⟨?_, fun n hn => by cases hfree.symm.trans hn⟩, hfree⟩
  simp only [List.forall_mem_cons]
  refine ⟨fun n hn => ?_, fun n hn => ?_, fun _ hno => absurd hno List.not_mem_nil⟩
  · have hboth : Path.Valid (["usr"] ++ ["bin"]) := valid_appsNames
    have husr : Path.Valid ([] ++ ["usr"]) := (Path.valid_snoc.1 hboth).1
    exact hroom.sits_directory h.linked (by simp [appsNames]) ⟨husr, hn⟩
  · have hbin : s.tree.Sits (["usr"] ++ ["bin"]) n := sits_apps.2 hn
    exact hroom.sits_directory h.linked (by simp [appsNames]) hbin

/-! ## What root can do -/

/-- Root may change the applications of a system that is not in safe mode. -/
theorem run_mayManageApps_root (h : s.accounts.InOrder) (hfree : s.Free) {action : String} :
    (mayManageApps action (some (.str rootName))).run s = (.ok true, s) := by
  obtain ⟨u, hu⟩ := Keyed.has_iff.1 h.root
  have hname : u.name = .str rootName := (h.filedUsers.get? hu).1
  have hadmin : u.isAdmin = true := by
    unfold User.isAdmin User.isRoot
    rw [hname]
    rfl
  have hfind : s.accounts.find (.str rootName) = .ok (some u) := congrArg Except.ok hu
  have hmay : (s.safeMode || !(some u).any User.isAdmin) = false := by
    rw [show s.safeMode = false from hfree, Option.any_some, hadmin]
    rfl
  unfold mayManageApps
  rw [run_bind, run_get]
  dsimp only
  rw [run_bind, show s.actor (some (.str rootName)) = .str rootName from rfl, hfind, run_ofExcept]
  dsimp only
  rw [if_neg (Bool.eq_false_iff.1 hmay)]
  rfl

theorem run_noted (h : s.Regular) {message : String} : ∃ s', (do
    Act.log .info "system" message ((← get).actor user?)
    Act.flush
    pure true : Act Bool).run s = (.ok true, s') := by
  have hlogged : Regular (s.logged .info "system" message (s.actor user?)) := (tidy_log h.tidyWith run_log).regular
  obtain ⟨s', hflush⟩ := hlogged.run_flush
  exact ⟨s', next (run_get ..) (next run_log (next hflush rfl))⟩

/-- Root can install whatever is no application yet. -/
theorem run_installApp (h : s.Sound) (hr : s.Regular) (hfree : s.Free) (hne : id ≠ "") (hslash : '/' ∉ id.toList)
    (hnew : .str id ∉ s.apps) : ∃ s', (installApp id (some (.str rootName))).run s = (.ok true, s') := by
  have hgood : Good { s with apps := s.apps ++ [.str id] } := by
    refine ⟨h.same rfl rfl, hr.tidyWith.withApps (fun core hcore => List.mem_append_left _ (hr.core core hcore)) fun a ha => ?_⟩
    rcases List.mem_append.1 ha with ha | ha
    · exact hr.apps a ha
    · exact ⟨id, List.mem_singleton.1 ha⟩
  have hput : Works Good (putAppFile id) := works_discard (works_putSystemFile ⟨_, rfl⟩)
  obtain ⟨_, s₁, hrun, h₁⟩ := hput hgood
  obtain ⟨s', hnoted⟩ := run_noted h₁.2.regular
  refine ⟨s', ?_⟩
  unfold installApp
  rw [run_bind, run_get]
  dsimp only
  rw [if_neg (by simp [hne, hslash, hnew])]
  exact next (run_mayManageApps_root hr.accounts hfree) (next_modify (next hrun hnoted))

/-- Root can uninstall an application that not every system has, if nothing lies in its launcher. -/
theorem run_uninstallApp (h : s.Sound) (hr : s.Regular) (hfree : s.Free) (hne : id ≠ "") (hslash : '/' ∉ id.toList) (hcore : id ∉ coreApps)
    (hin : .str id ∈ s.apps) (hfound : s.tree.lookup (launcherPath id) = .ok (some n)) (hbare : n.children = []) :
    ∃ s', (uninstallApp id (some (.str rootName))).run s = (.ok true, s') := by
  obtain ⟨d, hd, -, hchild⟩ := (lookup_launcher_iff h.linked hne hslash).1 hfound
  have hdget := hd.present h.linked
  obtain ⟨hmem, -⟩ := h.linked.childNamed_some hdget hchild
  have hget : s.tree.get? n.id = some n := (h.linked.lookup_found hfound).1
  have hbelow := (h.linked.parentOf_iff hget).2 ⟨hdget, (h.linked.above_iff hdget).2 hmem⟩
  have hother : ∀ core ∈ coreApps, Json.str core ≠ .str id := fun core hid he => hcore (Json.str.inj he ▸ hid)
  have hleft : TidyWith Accounts.Indexed { s with apps := s.apps.erase (.str id) } :=
    hr.tidyWith.withApps (fun core hid => (List.mem_erase_of_ne (hother core hid)).2 (hr.core core hid))
      fun a ha => hr.apps a (List.mem_of_mem_erase ha)
  rcases hremove : (Tree.remove n s.now).run s.tree with ⟨x, t⟩
  obtain ⟨nodes, -, rfl, -⟩ := (h.linked.run_remove hget hbelow hremove).resolve_left fun ⟨e, hwalk, _⟩ => by
    cases (walk_leaf hbare).symm.trans hwalk
  have hedit : (Act.edit (Tree.remove n s.now)).run { s with apps := s.apps.erase (.str id) } =
      (.ok nodes.length, { s with apps := s.apps.erase (.str id), tree := t }) := by
    rw [run_edit, hremove]
  have hdiscard : (discard (Act.edit (Tree.remove n s.now))).run { s with apps := s.apps.erase (.str id) } =
      (.ok ⟨⟩, { s with apps := s.apps.erase (.str id), tree := t }) := by
    rw [run_discard, hedit]
  have hlook : (Act.ofExcept (s.tree.lookup (launcherPath id))).run { s with apps := s.apps.erase (.str id) } =
      (.ok (some n), { s with apps := s.apps.erase (.str id) }) := by
    rw [run_ofExcept, hfound]
  obtain ⟨s', hnoted⟩ := run_noted (tidy_remove hr.clock hleft hedit).regular
  refine ⟨s', ?_⟩
  unfold uninstallApp
  rw [run_bind, run_get]
  dsimp only
  rw [if_neg (by simp [hcore, hin])]
  exact next (run_mayManageApps_root hr.accounts hfree) (next_modify (next (run_get ..) (next hlook (next hdiscard hnoted))))

/-- The launcher that has been made where all nodes left room is the only node that has its name, so no program is found in its stead. -/
theorem not_shadowed_of_roomy (h : s.Sound) (hroom : s.tree.Roomy id) (hvalid : Path.validName id = true)
    (hd : s.tree.lookup appsPath = .ok (some d)) (hdir : d.isDir = true) (hrun : (installApp id user?).run s = (.ok true, s₁))
    {user : String} : ¬ s₁.Shadowed id user := by
  rintro ⟨n, hn, -⟩
  have h₁ : s₁.Sound := sound_installApp h hrun
  obtain ⟨htree, hlook⟩ := installApp_added h hd hdir (clearFor_of_roomy h hroom hvalid).2 hrun
  have hprogram : s₁.tree.Sits (["bin"] ++ [id]) n := by
    refine ⟨Path.valid_snoc.2 ⟨fun part hpart => ?_, hvalid⟩, by rwa [Path.ofComponents_snoc (by decide)]⟩
    exact valid_appsNames part (List.mem_of_mem_tail hpart)
  have hlauncher : s₁.tree.Sits (appsNames ++ [id]) { (newLauncher id).build s with parent := d.id } :=
    ⟨Path.valid_snoc.2 ⟨valid_appsNames, hvalid⟩, launcherPath_eq ▸ hlook⟩
  have hget := hprogram.present h₁.linked
  rw [htree] at hget
  obtain ⟨-, -, -, -, -, hown⟩ := hprogram.inside h₁.linked
  have hdget : s.tree.get? d.id = some d := (h.linked.lookup_found hd).1
  rcases get?_add_cases h.linked plain_newLauncher.isNew hdget hget with ⟨-, rfl⟩ | ⟨k, hk, hs⟩
  · -- it would lie in two places
    have hnames := hprogram.names_unique h₁.linked hlauncher
    simp [appsNames] at hnames
  · exact ((hroom n.id k hk).of_standing hs).other hown

/-- Installing another application leaves room. -/
theorem roomy_installApp {other : String} (h : s.Sound) (hroom : s.tree.Roomy id) (hother : other ≠ id) (hid : id ∉ appsNames)
    (hpart : other ∉ appsNames) (hrun : (installApp other user?).run s = (.ok true, s₁)) : s₁.tree.Roomy id := by
  obtain ⟨-, -, -, t, hput, ha⟩ := installApp_accepted hrun
  have hs : Grounded (Roomy id) { s with apps := s.apps ++ [.str other] } := ⟨h.same rfl rfl, hroom⟩
  exact ha.tree.symm ▸ (roomy_putAppFile hother hid hpart hs hput).2

/-- Everything that a new system has leaves room for an application whose name nothing on it has. -/
theorem roomy_boot {store : Store} {hostname : String} {log : Log} {ids : IdSupply} {now : Time.Stamp} (empty : store.Empty)
    (clock : now.Proper) (hid : Unused id) : (Operation.boot.after (create store hostname log ids now)).tree.Roomy id := by
  obtain ⟨s₀, s₁, log₁, store₁, hs, hseed, hboot⟩ := boot_seeded empty clock
  have hroom : s₁.tree.Roomy id := ((bears_roomy hid).seed hs hseed).2
  rw [hboot]
  exact hroom

/-- The applications of a new system are those that every system has. -/
theorem apps_boot {store : Store} {hostname : String} {log : Log} {ids : IdSupply} {now : Time.Stamp} (empty : store.Empty)
    (clock : now.Proper) : (Operation.boot.after (create store hostname log ids now)).apps = coreApps.map .str := by
  obtain ⟨s₀, s₁, log₁, store₁, -, hseed, hboot⟩ := boot_seeded empty clock
  have happs : s₁.apps = coreApps.map .str := by rw [show s₁ = _ from laidOut_seed hseed]; rfl
  rw [hboot]
  exact happs

/-- On a new system root can install whatever it does not have. -/
theorem run_installApp_fresh (hne : id ≠ "") (hslash : '/' ∉ id.toList) (hcore : id ∉ coreApps) :
    ∃ s', (installApp id (some (.str rootName))).run fresh = (.ok true, s') := by
  have happs : fresh.apps = coreApps.map .str := apps_boot Store.empty_memory ⟨rfl, by decide, by decide⟩
  refine run_installApp ready_fresh.sound ready_fresh.regular ready_fresh.free hne hslash fun hin => hcore ?_
  rw [happs] at hin
  obtain ⟨core, hmem, he⟩ := List.mem_map.1 hin
  exact Json.str.inj he ▸ hmem

end Machine

end SimUnix
