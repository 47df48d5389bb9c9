/-
Files by their paths. Every call on files keeps the tree well-formed. Where it says yes, what it does to the
map of files is one change by paths: it puts a file at a path, or it removes, moves or copies a path with all
paths below it. Where it says no, the map stays as it is.
-/
import SimUnix.Proofs.Machine.Contents
import SimUnix.Proofs.Machine.Outcome
import SimUnix.Proofs.Tree.Mirror
import SimUnix.Proofs.Tree.Path

namespace SimUnix.Machine

open Tree Skeleton Act

variable {keepers : NodeId → Prop} {s s₁ s' : Machine} {user? source? leaver? : Option Json} {t : Tree} {n dir : Node}
  {path name : String} {names place way : List String}

/-! ## Names of copies -/

/-- The own name of a node below another one may be given, with the mark of a copy, too. -/
theorem OwnName.valid (hs : s.tree.skeleton.Shaped) (hn : s.tree.get? n.id = some n) (hp : n.parent ≠ .null)
    (ho : OwnName n name) : Path.validName name = true := by
  obtain ⟨own, hown, hname⟩ := ho
  obtain ⟨own', hown', hvalid⟩ := hs.named (skeleton_some.2 ⟨n, hn, rfl⟩) hp
  cases hown.symm.trans hown'
  rcases hname with rfl | ⟨k, rfl⟩
  · exact hvalid
  · exact candidate_valid (Path.validName_append hvalid (by decide) (by decide)) k

/-! ## Well-formed trees stay so -/

/-- A relink keeps a tree well-formed if nodes without a parent are copied under a given name only. -/
theorem Relink.wellFormed (h : WellFormed s.tree)
    (hkeep : ∀ {n}, s.tree.get? n.id = some n → keepers n.id → n.parent ≠ .null)
    (hr : Relink keepers s user? leaver? t) : WellFormed t := by
  cases hr with
  | create there isDir named valid written free _ =>
    exact h.add (build_isNew named written) there isDir named valid (h.childNamed_none there free)
  | move node below there isDir valid apart free _ _ unlinked =>
    exact h.move node below unlinked there isDir apart (h.childNamed_none there free) valid
  | remove node below _ run =>
    obtain ⟨-, hab⟩ := (h.parentOf_iff node).1 below
    rcases h.run_remove node below run with ⟨e, -, he, -⟩ | ⟨nodes, -, -, hrem⟩
    · cases he
    · exact h.removed hab hrem
  | copy node there isDir named free _ _ run =>
    have hvalid := named.elim id fun ⟨hkeeper, hown⟩ => hown.valid h.shaped node (hkeep node hkeeper)
    exact h.copy node run there isDir (h.childNamed_none there free) hvalid
  | strand node _ run =>
    obtain ⟨hg, -, -⟩ := run_clone h.toLinked node run
    exact ⟨hg.linked, hg.shaped h.shaped⟩

theorem Revision.wellFormed (h : WellFormed s.tree) (hr : Revision s user? t) : WellFormed t := by
  refine ⟨(hr.sequel h.toLinked).linked, ?_⟩
  have hσ : t.skeleton = s.tree.skeleton := by cases hr <;> exact skeleton_update_same fun _ => rfl
  exact hσ ▸ h.shaped

theorem Relinks.wellFormed (h : WellFormed s.tree) (hkeep : ∀ a, ¬ keepers a)
    (hr : Relinks keepers user? leaver? s s') : WellFormed s'.tree := by
  induction hr with
  | refl => exact h
  | aside _ ha ih => exact ha.tree ▸ ih
  | relink _ hrel ih => exact hrel.wellFormed ih fun _ hk => absurd hk (hkeep _)

theorem Trail.wellFormed (h : WellFormed s.tree) (hkeep : ∀ a, ¬ keepers a) (hr : Trail keepers user? leaver? s s') :
    WellFormed s'.tree := by
  rcases hr with hr | ⟨t, hrev, ha⟩
  · exact hr.wellFormed h hkeep
  · exact ha.tree ▸ hrev.wellFormed h

theorem wellFormed_copyById (h : WellFormed s.tree) {id : NodeId} {name? : Option String} {r : Except Fault Bool}
    (hroot : name? = none → ∀ n, s.tree.get? id = some n → n.parent ≠ .null)
    (hrun : (copyById id path user? source? name?).run s = (r, s')) : WellFormed s'.tree := by
  rcases relink_copyById h.toLinked hrun with ha | ⟨t, hr, ha⟩
  · exact ha.tree ▸ h
  · rw [ha.tree]
    refine hr.wellFormed h fun {n} hn hk => ?_
    obtain ⟨hnone, hid⟩ := hk
    exact hroot hnone n (hid ▸ hn)

/-- Every call keeps a tree well-formed, whatever comes of it, but a copy of a node without a parent, such as
the root, under its own name. -/
theorem FileCall.wellFormed (h : WellFormed s.tree) (c : FileCall) {r : Except Fault Answer}
    (hroot : ∀ {id dir}, c = .copyById id dir none → ∀ n, s.tree.get? id = some n → n.parent ≠ .null)
    (hrun : (c.run user? source?).run s = (r, s')) : WellFormed s'.tree := by
  have htrail := c.trail h.toLinked hrun
  cases c
  case copyById id dir name? =>
    obtain ⟨x, hx⟩ := run_map_of hrun
    exact wellFormed_copyById h (fun hnone => hroot (by rw [hnone])) hx
  all_goals exact htrail.wellFormed h fun _ => id

/-! ## Changes of the map -/

/-- A new file or directory of the actor's under a name that was free in a directory. -/
def Creates (s : Machine) (user? : Option Json) (m m' : FileMap) (way : List String) (name : String) (kind : NodeKind) (content : String) :
    Prop :=
  (m way).any (·.kind = .directory) ∧ Path.validName name = true ∧ m (way ++ [name]) = none ∧ ∃ f : Face, f.kind = kind ∧
    f.owner = s.actor user? ∧ f.group = s.primaryGroup (s.actor user?) ∧ f.content = .str content ∧ m' = m.put (way ++ [name]) f

/-- A file with a new content. Where there was none, it has been created. -/
def Writes (s : Machine) (user? : Option Json) (m m' : FileMap) (place : List String) (text : String) : Prop :=
  (∃ old, m place = some old ∧ old.kind = .file ∧ m' = m.put place { old with content := .str text }) ∨
    ∃ way name, place = way ++ [name] ∧ s.Creates user? m m' way name .file text

/-- A file that is handed over to the actor, with the group that the actor's files get. -/
def handed (s : Machine) (user? : Option Json) (f : Face) : Face :=
  { f with owner := s.actor user?, group := replaced (some (s.primaryGroup (s.actor user?))) f.group }

/-- What a call that says yes makes of the map of files. What is moved or copied by its id has a place in the map, unless it is left over
from a copy that could not be finished. -/
def FileCall.Remaps (s : Machine) (user? : Option Json) (m m' : FileMap) : FileCall → Prop
  | .createFile path name content _ => ∃ way, s.Resolves path user? way ∧ s.Creates user? m m' way name .file content
  | .createDirectory path name => ∃ way, s.Resolves path user? way ∧ s.Creates user? m m' way name .directory ""
  | .writeFile path content => ∃ place, s.Resolves path user? place ∧ s.Writes user? m m' place content
  | .appendFile path content => ∃ place text, s.Resolves path user? place ∧ s.Writes user? m m' place text ∧
      (m place = none ∧ text = content ∨ ∃ old, m place = some old ∧ appended old.content (.str content) = .ok (.str text))
  | .deleteNode path => ∃ place, s.Resolves path user? place ∧ (m place).isSome ∧ m' = m.remove place
  | .moveNode path target => ∃ place goal, s.Resolves path user? place ∧ s.Resolves target user? goal ∧ (m place).isSome ∧
      m' = m.move place (m.goal place goal)
  | .moveById id path => ∃ way, s.Resolves path user? way ∧ (m way).any (·.kind = .directory) ∧
      ∀ place, s.tree.skeleton.Lies s.tree.rootId place id → m' = m.move place (way ++ place.getLast?.toList)
  | .copyById id path name? => ∃ way name, s.Resolves path user? way ∧ (m way).any (·.kind = .directory) ∧ name?.getD name = name ∧
      m (way ++ [name]) = none ∧ ∀ place, s.tree.skeleton.Lies s.tree.rootId place id →
        m' = m.copy place (way ++ [name]) (s.handed user?)
  | .chmod path mode => ∃ place old permissions, s.Resolves path user? place ∧ m place = some old ∧
      changeMode mode old.permissions = .ok permissions ∧ m' = m.put place { old with permissions := .str permissions }
  | .chown path owner group? => ∃ place old, s.Resolves path user? place ∧ m place = some old ∧
      m' = m.put place { old with owner := .str owner, group := (group?.map Json.str).getD old.group }
  | .moveToTrash path => ∃ place home name m₁, s.Resolves path user? place ∧ (m₁ = m ∨ s.Creates user? m m₁ home trashName .directory "") ∧
      m₁ (home ++ [trashName, name]) = none ∧ m' = m₁.move place (home ++ [trashName, name])
  | .emptyTrash => False

/-- Where names lead to a node, the map shows it. -/
theorem files_of_lies (h : WellFormed s.tree) (hn : s.tree.get? n.id = some n) (hlies : s.tree.skeleton.Lies s.tree.rootId names n.id) :
    s.tree.files names = some n.face :=
  h.files_iff.2 ⟨n.id, hlies, by simp [faceOf, hn]⟩

theorem directory_face (hdir : n.isDir = true) : (some n.face).any (·.kind = .directory) = true :=
  decide_eq_true (isDir_iff.1 hdir)

theorem lies_of_sits (h : WellFormed s.tree) (hsits : s.tree.Sits names n) : s.tree.skeleton.Lies s.tree.rootId names n.id := by
  have hlies := (h.lookup_lies hsits.found).2
  rwa [Path.components_ofComponents hsits.valid] at hlies

theorem files_of_sits (h : WellFormed s.tree) (hsits : s.tree.Sits names n) : s.tree.files names = some n.face :=
  files_of_lies h (hsits.present h.toLinked) (lies_of_sits h hsits)

/-- What the map shows at names that may be given is found there. -/
theorem sits_of_files (h : WellFormed s.tree) (hvalid : Path.Valid names) {f : Face} (hf : s.tree.files names = some f) :
    ∃ n, s.tree.Sits names n ∧ n.face = f := by
  obtain ⟨root, hroot, hget, hid, -⟩ := h.root_ok
  obtain ⟨b, hlies, hface⟩ := h.files_iff.1 hf
  obtain ⟨n, hn, rfl⟩ := Option.map_eq_some_iff.1 hface
  have hself : s.tree.get? n.id = some n := h.get_self hn
  refine ⟨n, ⟨hvalid, ?_⟩, rfl⟩
  rw [lookup_ofComponents hroot hvalid]
  exact (h.descend_iff hget).2 ⟨hself, hid.symm ▸ h.id_eq hn ▸ hlies⟩

/-- Nothing is shown at a name that no child of a directory has. -/
theorem files_free (h : WellFormed s.tree) (hdir : s.tree.get? dir.id = some dir) (hlies : s.tree.skeleton.Lies s.tree.rootId way dir.id)
    (hfree : s.tree.skeleton.NoneNamed dir.children (.str name)) : s.tree.files (way ++ [name]) = none := by
  refine Option.eq_none_iff_forall_ne_some.2 fun f hf => ?_
  obtain ⟨b, hb, -⟩ := h.files_iff.1 hf
  exact h.free_below hdir hfree hlies ((List.append_nil (way ++ [name])).symm ▸ hb)

/-! ## Files that are made and written -/

/-- A node that is added is one more path. -/
theorem creates_add (h : WellFormed s.tree) {new : NewNode} {content : String} (hdir : s.tree.get? dir.id = some dir) (hisDir : dir.isDir = true)
    (hlies : s.tree.skeleton.Lies s.tree.rootId way dir.id) (hname : new.name = .str name) (hvalid : Path.validName name = true)
    (hfree : s.tree.childNamed dir name = .ok none) (howner : new.owner = s.actor user?)
    (hgroup : new.group = s.primaryGroup (s.actor user?)) (hcontent : new.content = .str content) :
    s.Creates user? s.tree.files (s.tree.takeId.2.add (new.build s) dir.id s.now).files way name new.kind content := by
  have hnew : IsNew s.tree (new.build s) := build_isNew hname hcontent
  have hnone : s.tree.skeleton.NoneNamed dir.children (new.build s).name := by
    rw [show (new.build s).name = .str name from hname]
    exact h.childNamed_none hdir hfree
  obtain ⟨habsent, hfiles⟩ := h.files_add hnew hdir hisDir hname hvalid hnone hlies
  refine ⟨?_, hvalid, habsent, (new.build s).face, rfl, howner, hgroup, hcontent, hfiles⟩
  rw [files_of_lies h hdir hlies]
  exact directory_face hisDir

theorem creates_createNode (h : WellFormed s.tree) {kind : NodeKind} {content : String} {permissions? : Option Json}
    (hrun : (createNode path name kind (.str content) user? permissions?).run s = (.ok true, s')) :
    ∃ way, s.Resolves path user? way ∧ s.Creates user? s.tree.files s'.tree.files way name kind content := by
  rcases decide_accepted hrun with ⟨hunchanged, -⟩ | ⟨dir, message, s₁, hverdict, hchange, hchanged⟩
  · exact absurd hunchanged createVerdict_changes
  obtain ⟨hat, hisDir, hvalid, hfree, -⟩ := createVerdict_granted hverdict
  obtain ⟨way, hway, hlook⟩ := resolves_of_nodeAt hat
  have hsits : s.tree.Sits way dir := ⟨hway.1, hlook⟩
  simp only [run_bind, run_get, run_addNew, run_pathOfId] at hchange
  generalize placeOf _ _ = told at hchange
  rcases told with e | told
  · cases hchange
  cases hchange
  rw [(aside_changed hchanged).tree]
  exact ⟨way, hway, creates_add h (hsits.present h.toLinked) hisDir (lies_of_sits h hsits) rfl hvalid hfree rfl rfl rfl⟩

/-- What is put at a path where a file is. -/
theorem put_face (h : WellFormed s.tree) (hsits : s.tree.Sits names n) (change : Node → Node) (hjoint : ∀ n, (change n).joint = n.joint)
    (hcontent : ∀ n, (∃ t, n.content = .str t) → ∃ t, (change n).content = .str t)
    (ha : Aside { s with tree := s.tree.update n.id change } s') : s'.tree.files = s.tree.files.put names (change n).face := by
  rw [ha.tree]
  exact (h.files_update hjoint hcontent (hsits.present h.toLinked) (lies_of_sits h hsits)).2

/-- A path leads where its names lead, whoever asks. -/
theorem Resolves.names_eq (hpath : s.Resolves (Path.ofComponents names) user? way) (hvalid : Path.Valid names) : way = names := by
  have hsame : Path.ofComponents names = Path.ofComponents way := Except.ok.inj ((resolve_ofComponents hvalid).symm.trans hpath.2)
  rw [← Path.components_ofComponents hpath.1, ← hsame, Path.components_ofComponents hvalid]

theorem writes_overwriteFile (h : WellFormed s.tree) {text : String}
    (hrun : (overwriteFile path (.str text) user?).run s = (.ok true, s')) :
    ∃ place, s.Resolves path user? place ∧ s.Writes user? s.tree.files s'.tree.files place text := by
  unfold overwriteFile at hrun
  rcases Act.asked (Act.got hrun) with ⟨e, -, he, -⟩ | ⟨resolved, hres, hrun⟩
  · cases he
  obtain ⟨place, hvalid, rfl⟩ := resolve_normal hres
  rcases Act.asked hrun with ⟨e, -, he, -⟩ | ⟨n?, hlook, hrun⟩
  · cases he
  refine ⟨place, ⟨hvalid, hres⟩, ?_⟩
  rcases n? with _ | n
  · rcases List.eq_nil_or_concat place with rfl | ⟨way, name, rfl⟩
    · -- the root is always there
      obtain ⟨root, hroot, -⟩ := h.root_ok
      cases hlook.symm.trans (sits_nil.2 hroot).found
    · rw [List.concat_eq_append] at hvalid hrun
      dsimp only at hrun
      rw [Path.split_ofComponents hvalid] at hrun
      dsimp only at hrun
      rw [parentOrRoot_ofComponents] at hrun
      obtain ⟨way', hway, hcreates⟩ := creates_createNode h hrun
      obtain rfl := hway.names_eq (Path.valid_snoc.1 hvalid).1
      exact .inr ⟨way', name, List.concat_eq_append, hcreates⟩
  · rcases decide_accepted hrun with ⟨hunchanged, -⟩ | ⟨id, message, s₁, hverdict, hchange, hchanged⟩
    · exact absurd hunchanged writeVerdict_changes
    obtain ⟨rfl, hfile, -⟩ := writeVerdict_granted hverdict
    cases hchange
    have hsits : s.tree.Sits place n := ⟨hvalid, hlook⟩
    have hkind : n.kind = .file := by
      cases hkind : n.kind with
      | file => rfl
      | directory => simp [isDir_iff.2 hkind] at hfile
    have hput : s'.tree.files = s.tree.files.put place { n.face with content := .str text } :=
      put_face h hsits (fun n => { n with content := .str text, modified := s.now }) (fun _ => rfl) (fun _ _ => ⟨text, rfl⟩)
        (aside_changed hchanged)
    exact .inl ⟨n.face, files_of_sits h hsits, hkind, hput⟩

theorem writes_appendFile (h : WellFormed s.tree) {content : String}
    (hrun : (appendFile path (.str content) user?).run s = (.ok true, s')) :
    ∃ place text, s.Resolves path user? place ∧ s.Writes user? s.tree.files s'.tree.files place text ∧
      (s.tree.files place = none ∧ text = content ∨
        ∃ old, s.tree.files place = some old ∧ appended old.content (.str content) = .ok (.str text)) := by
  unfold appendFile at hrun
  rcases Act.askedOf hrun with ⟨e, -, he, -⟩ | ⟨n?, hat, hrun⟩
  · cases he
  obtain ⟨names, hnames, hlook⟩ := resolves_of_nodeAt hat
  have hsame : ∀ {place}, s.Resolves path user? place → place = names := fun hplace => by
    have hpaths : Path.ofComponents _ = Path.ofComponents names := Except.ok.inj (hplace.2.symm.trans hnames.2)
    rw [← Path.components_ofComponents hplace.1, hpaths, Path.components_ofComponents hnames.1]
  rcases n? with _ | n
  · obtain ⟨place, hplace, hwrites⟩ := writes_overwriteFile h hrun
    obtain rfl := hsame hplace
    refine ⟨place, content, hplace, hwrites, .inl ⟨?_, rfl⟩⟩
    by_contra hsome
    obtain ⟨f, hf⟩ := Option.ne_none_iff_exists'.1 hsome
    obtain ⟨n, hn, -⟩ := sits_of_files h hnames.1 hf
    cases hlook.symm.trans hn.found
  · dsimp only at hrun
    split at hrun
    · cases hrun
    rcases Act.asked hrun with ⟨e, -, he, -⟩ | ⟨joined, happended, hrun⟩
    · cases he
    obtain ⟨text, rfl⟩ := appended_text happended
    obtain ⟨place, hplace, hwrites⟩ := writes_overwriteFile h hrun
    obtain rfl := hsame hplace
    exact ⟨place, text, hplace, hwrites, .inr ⟨n.face, files_of_sits h ⟨hnames.1, hlook⟩, happended⟩⟩

/-! ## Files whose rights change -/

theorem chmodVerdict_changes {mode : String} : chmodVerdict path mode user? s ≠ .ok .unchanged := by
  intro hv
  unfold chmodVerdict at hv
  obtain ⟨found?, -, hv⟩ := bind_ok.1 hv
  split at hv
  · cases hv
  dsimp only at hv
  split at hv
  · obtain ⟨_, -, hv⟩ := bind_ok.1 hv
    cases hv
  · split at hv <;> cases hv

theorem chmodVerdict_mode {mode permissions : String} (hv : chmodVerdict path mode user? s = .ok (.granted (n, permissions))) :
    s.nodeAt path user? = .ok (some n) ∧ changeMode mode n.permissions = .ok permissions := by
  unfold chmodVerdict at hv
  obtain ⟨found?, hfound, hv⟩ := bind_ok.1 hv
  split at hv
  · cases hv
  dsimp only at hv
  split at hv
  · obtain ⟨_, -, hv⟩ := bind_ok.1 hv
    cases hv
  · split at hv <;> cases hv
    exact ⟨hfound, ‹_›⟩

theorem chownVerdict_changes {owner : String} {group? : Option String} : chownVerdict path owner group? user? s ≠ .ok .unchanged := by
  intro hv
  unfold chownVerdict at hv
  obtain ⟨found?, -, hv⟩ := bind_ok.1 hv
  split at hv
  · cases hv
  split at hv
  · obtain ⟨_, -, hv⟩ := bind_ok.1 hv
    cases hv
  split at hv
  · cases hv
  · split at hv <;> cases hv

theorem chmod_maps (h : WellFormed s.tree) {mode : String} (hrun : (chmod path mode user?).run s = (.ok true, s')) :
    ∃ place old permissions, s.Resolves path user? place ∧ s.tree.files place = some old ∧
      changeMode mode old.permissions = .ok permissions ∧
      s'.tree.files = s.tree.files.put place { old with permissions := .str permissions } := by
  rcases decide_accepted hrun with ⟨hunchanged, -⟩ | ⟨⟨n, permissions⟩, message, s₁, hverdict, hchange, hchanged⟩
  · exact absurd hunchanged chmodVerdict_changes
  obtain ⟨hat, hmode⟩ := chmodVerdict_mode hverdict
  obtain ⟨place, hplace, hlook⟩ := resolves_of_nodeAt hat
  have hsits : s.tree.Sits place n := ⟨hplace.1, hlook⟩
  simp only [run_bind, run_get, run_editTree, run_pathOfId] at hchange
  generalize placeOf _ _ = told at hchange
  rcases told with e | told
  · cases hchange
  cases hchange
  have hput : s'.tree.files = s.tree.files.put place { n.face with permissions := .str permissions } :=
    put_face h hsits (fun n => { n with permissions := .str permissions, modified := s.now }) (fun _ => rfl) (fun _ => id)
      (aside_changed hchanged)
  exact ⟨place, n.face, permissions, hplace, files_of_sits h hsits, hmode, hput⟩

theorem chown_maps (h : WellFormed s.tree) {owner : String} {group? : Option String}
    (hrun : (chown path owner group? user?).run s = (.ok true, s')) :
    ∃ place old, s.Resolves path user? place ∧ s.tree.files place = some old ∧
      s'.tree.files = s.tree.files.put place { old with owner := .str owner, group := (group?.map Json.str).getD old.group } := by
  rcases decide_accepted hrun with ⟨hunchanged, -⟩ | ⟨n, message, s₁, hverdict, hchange, hchanged⟩
  · exact absurd hunchanged chownVerdict_changes
  obtain ⟨place, hplace, hlook⟩ := resolves_of_nodeAt (chownVerdict_granted hverdict).1
  have hsits : s.tree.Sits place n := ⟨hplace.1, hlook⟩
  simp only [run_bind, run_get, run_editTree, run_pathOfId] at hchange
  generalize placeOf _ _ = told at hchange
  rcases told with e | told
  · cases hchange
  cases hchange
  have hput : s'.tree.files = s.tree.files.put place
      { n.face with owner := .str owner, group := (group?.map Json.str).getD n.face.group } :=
    put_face h hsits (fun n => { n with owner := .str owner, group := (group?.map Json.str).getD n.group, modified := s.now })
      (fun _ => rfl) (fun _ => id) (aside_changed hchanged)
  exact ⟨place, n.face, hplace, files_of_sits h hsits, hput⟩

/-! ## Files that go, move and are copied -/

theorem deleteNode_maps (h : WellFormed s.tree) (hrun : (deleteNode path user?).run s = (.ok true, s')) :
    ∃ place, s.Resolves path user? place ∧ (s.tree.files place).isSome ∧ s'.tree.files = s.tree.files.remove place := by
  rcases decide_accepted hrun with ⟨hunchanged, -⟩ | ⟨n, message, s₁, hverdict, hchange, hchanged⟩
  · exact absurd hunchanged removeVerdict_changes
  obtain ⟨hat, parent, hp, -⟩ := removeVerdict_granted hverdict
  obtain ⟨place, hplace, hlook⟩ := resolves_of_nodeAt hat
  have hsits : s.tree.Sits place n := ⟨hplace.1, hlook⟩
  have hn := hsits.present h.toLinked
  refine ⟨place, hplace, by rw [files_of_sits h hsits]; rfl, ?_⟩
  simp only [run_bind, run_get, Act.run_ofExcept, run_edit, run_pure] at hchange
  rw [hsits.pathOf h.toLinked] at hchange
  rcases hrem : (Tree.remove n s.now).run s.tree with ⟨x, t⟩
  simp only [hrem] at hchange
  rcases h.run_remove hn hp hrem with ⟨e, -, rfl, -⟩ | ⟨nodes, -, rfl, hremoved⟩
  · cases hchange
  cases hchange
  rw [(aside_changed hchanged).tree]
  exact h.files_removed ((h.parentOf_iff hn).1 hp).2 hremoved (lies_of_sits h hsits)

/-- Where a node goes that is moved, its path and all paths below it go. -/
theorem relocate_maps (h : WellFormed s.tree) (hn : s.tree.get? n.id = some n) (hdir : s.tree.get? dir.id = some dir)
    (hi : s.tree.skeleton.InDirectories dir.id) (hway : s.tree.skeleton.Lies s.tree.rootId way dir.id)
    (hrun : (relocate n dir (.str name) user? source?).run s = (.ok true, s')) :
    dir.isDir = true ∧ ∀ place, s.tree.skeleton.Lies s.tree.rootId place n.id → s'.tree.files = s.tree.files.move place (way ++ [name]) := by
  rcases decide_accepted hrun with ⟨hunchanged, rfl⟩ | ⟨dest, message, s₁, hverdict, hchange, hchanged⟩
  · -- the node is where it is to go
    obtain ⟨hisDir, -, c, hc, hcn⟩ := relocateVerdict_unchanged hunchanged
    refine ⟨hisDir, fun place hplace => ?_⟩
    obtain ⟨hmem, hget, hname⟩ := h.childNamed_some hdir hc
    have hlies : s'.tree.skeleton.Lies s'.tree.rootId (way ++ [name]) n.id :=
      hcn ▸ lies_snoc.2 ⟨dir.id, hway, (h.above_iff hdir).2 hmem, c.joint, skeleton_some.2 ⟨c, hget, rfl⟩, hname⟩
    rw [hplace.unique h.loose_root hlies, FileMap.move_self]
  · obtain ⟨rfl, hisDir, hvalid, hanc, hfree, -, parent, hp, -⟩ := relocateVerdict_granted hverdict
    have hapart : ¬ s.tree.skeleton.Under n.id dest.id := apart_of_inDirectories h.toLinked hn hdir hi hisDir hanc
    refine ⟨hisDir, fun place hplace => ?_⟩
    obtain ⟨t, ht⟩ : ∃ t, s.tree.detach n s.now = .ok t := h.detach_ok hn hp
    obtain ⟨origin, horigin⟩ := h.pathOf_ok hn
    simp only [run_bind, run_get, Act.run_ofExcept, run_editTree, run_pathOfId, horigin, ht] at hchange
    generalize placeOf _ _ = told at hchange
    rcases told with e | told
    · cases hchange
    cases hchange
    rw [(aside_changed hchanged).tree]
    exact h.files_move hn hp ht hdir hisDir hapart (h.childNamed_none hdir hfree) (validName_str hvalid) hplace hway

theorem moveNode_maps (h : WellFormed s.tree) {target : String} (hrun : (moveNode path target user?).run s = (.ok true, s')) :
    ∃ place goal, s.Resolves path user? place ∧ s.Resolves target user? goal ∧ (s.tree.files place).isSome ∧
      s'.tree.files = s.tree.files.move place (s.tree.files.goal place goal) := by
  obtain ⟨n, dir, name, place, own, way, goal, -, hplace, hn, hway, hgoal, hcases, hmove⟩ := moveNode_goes h.toLinked hrun
  obtain ⟨hget, hi⟩ := h.lookup_found hway.found
  obtain ⟨-, hmaps⟩ := relocate_maps h (hn.present h.toLinked) hget hi (lies_of_sits h hway) hmove
  have hsame : ∀ {names x}, s.tree.Sits names x → x.id = n.id → names = place ++ [own] := fun hx hid =>
    (hid ▸ lies_of_sits h hx).unique h.loose_root (lies_of_sits h hn)
  refine ⟨place ++ [own], goal, hplace, hgoal, by rw [files_of_sits h hn]; rfl, ?_⟩
  rw [hmaps _ (lies_of_sits h hn)]
  congr 1
  rcases hcases with ⟨rfl, rfl, hisDir, hother⟩ | ⟨rfl, honly⟩
  · -- into another directory
    have hne : goal ≠ place ++ [name] := fun he => by
      subst he
      exact hother ((lies_of_sits h hway).node h.forest (lies_of_sits h hn))
    unfold FileMap.goal
    rw [if_pos ⟨by rw [files_of_sits h hway]; exact directory_face hisDir, hne⟩]
    simp
  · -- to the place itself
    unfold FileMap.goal
    rw [if_neg]
    rintro ⟨hany, hne⟩
    obtain ⟨f, hf, hkind⟩ := (Option.any_eq_true _ _).1 hany
    obtain ⟨x, hx, rfl⟩ := sits_of_files h hgoal.1 hf
    exact hne (hsame hx (honly x hx (isDir_iff.2 (of_decide_eq_true hkind))))

theorem moveById_maps (h : WellFormed s.tree) {id : NodeId} (hrun : (moveById id path user? source?).run s = (.ok true, s')) :
    ∃ way, s.Resolves path user? way ∧ (s.tree.files way).any (·.kind = .directory) ∧
      ∀ place, s.tree.skeleton.Lies s.tree.rootId place id → s'.tree.files = s.tree.files.move place (way ++ place.getLast?.toList) := by
  unfold moveById at hrun
  rcases Act.asked (Act.got hrun) with ⟨e, -, he, -⟩ | ⟨dir?, hat, hrun⟩
  · cases he
  split at hrun
  · rename_i n dir hid
    have hn := h.get_self hid
    obtain ⟨own, hown⟩ := text_name h.toLinked hn
    obtain ⟨way, hway, hlook⟩ := resolves_of_nodeAt hat
    have hsits : s.tree.Sits way dir := ⟨hway.1, hlook⟩
    obtain ⟨hget, hi⟩ := h.lookup_found hlook
    rcases Act.asked hrun with ⟨e, -, he, -⟩ | ⟨root, hroot, hrun⟩
    · cases he
    split at hrun
    · cases hrun
    rename_i hne
    obtain ⟨hisDir, hmaps⟩ := relocate_maps h hn hget hi (lies_of_sits h hsits) (hown ▸ hrun)
    refine ⟨way, hway, by rw [files_of_sits h hsits]; exact directory_face hisDir, fun place hplace => ?_⟩
    rw [hmaps place (h.id_eq hid ▸ hplace)]
    congr 2
    rcases List.eq_nil_or_concat place with rfl | ⟨front, last, rfl⟩
    · have hroot : root.id = s.tree.rootId := h.id_eq (node_ok.1 hroot)
      exact absurd ((h.id_eq hid).trans (Eq.trans hplace hroot.symm)) (by simpa using hne)
    · rw [List.concat_eq_append] at hplace ⊢
      obtain ⟨d, -, -, x, hx, hlast⟩ := lies_snoc.1 hplace
      cases hx.symm.trans (skeleton_some.2 ⟨n, hid, rfl⟩)
      have hsame : last = own := Json.str.inj (hlast.symm.trans hown)
      simp [hsame]
  · cases hrun

/-- A copy goes by the name that is asked for. -/
theorem copyName_given {copy : Json} {given : String} (hc : copyName n dir (some given) s = .ok (some copy)) : copy = .str given := by
  unfold copyName at hc
  dsimp only at hc
  split at hc
  · cases hc
  obtain ⟨existing?, -, hc⟩ := bind_ok.1 hc
  split at hc <;> cases hc
  rfl

theorem handed_face :
    Tree.NewOwner.face { owner? := some (s.actor user?), group? := some (s.primaryGroup (s.actor user?)) } = s.handed user? := by
  funext f
  have howner : replaced (some (s.actor user?)) f.owner = s.actor user? := by
    unfold replaced
    rw [Option.filter_some, if_pos actor_truthy, Option.getD_some]
  unfold NewOwner.face handed
  rw [howner]

theorem copyById_maps (h : WellFormed s.tree) {id : NodeId} {name? : Option String}
    (hroot : name? = none → ∀ n, s.tree.get? id = some n → n.parent ≠ .null)
    (hrun : (copyById id path user? source? name?).run s = (.ok true, s')) :
    ∃ way name, s.Resolves path user? way ∧ (s.tree.files way).any (·.kind = .directory) ∧ name?.getD name = name ∧
      s.tree.files (way ++ [name]) = none ∧ ∀ place, s.tree.skeleton.Lies s.tree.rootId place id →
        s'.tree.files = s.tree.files.copy place (way ++ [name]) (s.handed user?) := by
  obtain ⟨n, dir, copyName, copy, t, hverdict, hclone, htree⟩ := copyById_accepted hrun
  obtain ⟨hid, hat, hisDir, -, -, name, rfl, hnamed, hfree⟩ := copyVerdict_granted h.toLinked hverdict
  obtain ⟨way, hway, hlook⟩ := resolves_of_nodeAt hat
  have hsits : s.tree.Sits way dir := ⟨hway.1, hlook⟩
  have hn := h.get_self hid
  have hdir := hsits.present h.toLinked
  have hlies := lies_of_sits h hsits
  have hnone : s.tree.skeleton.NoneNamed dir.children (.str name) := h.childNamed_none hdir hfree
  have hvalid : Path.validName name = true := by
    rcases hnamed with hvalid | ⟨hown, hname⟩
    · exact hvalid
    · exact hname.valid h.shaped hn (hroot hown n hid)
  have habsent : s.tree.files (way ++ [name]) = none := files_free h hdir hlies hnone
  have hgiven : name?.getD name = name := by
    rcases name? with _ | given
    · rfl
    · exact Json.str.inj (copyName_given (copyVerdict_checks hverdict).2.2.2.2.2).symm
  refine ⟨way, name, hway, by rw [files_of_sits h hsits]; exact directory_face hisDir, hgiven, habsent, fun place hplace => ?_⟩
  rw [htree, ← handed_face]
  exact h.files_copy hn hclone hdir hisDir hnone hvalid (h.id_eq hid ▸ hplace) hlies

/-! ## Files that go to the trash -/

/-- The trash that is found or made lies in some home. Where it is new, it is one more path. -/
theorem ensureTrash_maps (h : WellFormed s.tree) {trash : Node} (hrun : (ensureTrash user?).run s = (.ok (some trash), s₁)) :
    WellFormed s₁.tree ∧ ∃ home, s₁.tree.skeleton.Lies s₁.tree.rootId (home ++ [trashName]) trash.id ∧
      (s₁.tree.files = s.tree.files ∨ s.Creates user? s.tree.files s₁.tree.files home trashName .directory "") ∧
        ∀ {names a}, s.tree.skeleton.Lies s.tree.rootId names a → s₁.tree.skeleton.Lies s₁.tree.rootId names a := by
  rcases ensureTrash_cases hrun with ⟨-, hold⟩ | ⟨path, home, -, hlook, hisDir, hfree, -, ha, hget⟩
  · obtain ⟨rfl, path, home, -, hlook, -, hchild⟩ := hold trash rfl
    obtain ⟨hhome, hlies⟩ := h.lookup_lies hlook
    obtain ⟨hmem, hget, hname⟩ := h.childNamed_some hhome hchild
    refine ⟨h, Path.components path, lies_snoc.2 ⟨home.id, hlies, ?_⟩, .inl rfl, fun hl => hl⟩
    exact ⟨(h.above_iff hhome).2 hmem, trash.joint, skeleton_some.2 ⟨trash, hget, rfl⟩, hname⟩
  · obtain ⟨hhome, hlies⟩ := h.lookup_lies hlook
    let t : Tree := s.tree.takeId.2.add ((s.newTrash user?).build s) home.id s.now
    have hadded : ∀ {names a}, t.skeleton.Lies s.tree.rootId names a ↔ s.tree.skeleton.Lies s.tree.rootId names a ∨
        names = Path.components path ++ [trashName] ∧ a = s.tree.ids.id :=
      h.lies_add newTrash_isNew hhome rfl hlies
    have hwf : WellFormed t := h.add newTrash_isNew hhome hisDir rfl (by decide) (h.childNamed_none hhome hfree)
    have hid : trash.id = s.tree.ids.id := hwf.toLinked.id_eq ((congrArg (·.get? s.tree.ids.id) ha.tree).symm.trans (hget trash rfl))
    rw [ha.tree]
    refine ⟨hwf, Path.components path, hadded.2 (.inr ⟨rfl, hid⟩), .inr ?_, fun hl => hadded.2 (.inl hl)⟩
    exact creates_add h hhome hisDir hlies rfl (by decide) hfree rfl rfl rfl

theorem moveToTrash_maps (h : WellFormed s.tree) (hrun : (moveToTrash path user?).run s = (.ok true, s')) :
    ∃ place home name m, s.Resolves path user? place ∧
      (m = s.tree.files ∨ s.Creates user? s.tree.files m home trashName .directory "") ∧
        m (home ++ [trashName, name]) = none ∧ s'.tree.files = m.move place (home ++ [trashName, name]) := by
  rcases moveToTrash_cases hrun with ⟨-, hno⟩ | ⟨n, x, s₁, hat, hens, ⟨-, hno⟩ | ⟨trash, name, rfl, hanc, -, hname, hmove⟩⟩
  · exact absurd rfl hno
  · exact absurd rfl hno
  obtain ⟨place, hplace, hlook⟩ := resolves_of_nodeAt hat
  have hsits : s.tree.Sits place n := ⟨hplace.1, hlook⟩
  obtain ⟨h₁, home, htrash, hmade, hkept⟩ := ensureTrash_maps h hens
  have htrail : Relinks (fun _ => False) user? none s s₁ ∧ _ := trail_ensureTrash h.toLinked hens
  obtain ⟨ht, hi, hn⟩ := (htrail.2 trash rfl).of_apart h₁.toLinked (hsits.present h.toLinked) hanc
  have hnone : s₁.tree.skeleton.NoneNamed trash.children (.str name) := h₁.childNamed_none ht (uniqueName_free h₁.toLinked ht hname).1
  have hmaps := (relocate_maps h₁ hn ht hi htrash hmove).2 place (hkept (lies_of_sits h hsits))
  have habsent : s₁.tree.files (home ++ [trashName] ++ [name]) = none := files_free h₁ ht htrash hnone
  rw [List.append_assoc] at hmaps habsent
  exact ⟨place, home, name, _, hplace, hmade, habsent, hmaps⟩

/-- A trash that is asked for may have been made, and nothing else. -/
theorem files_ensureTrash (h : WellFormed s.tree) {r : Except Fault (Option Node)} (hrun : (ensureTrash user?).run s = (r, s')) :
    s'.tree.files = s.tree.files ∨ ∃ home, s.Creates user? s.tree.files s'.tree.files home trashName .directory "" := by
  rcases ensureTrash_cases hrun with ⟨hlog, -⟩ | ⟨path, home, -, hlook, hisDir, hfree, -, ha, -⟩
  · exact .inl (by rw [hlog])
  · obtain ⟨hhome, hlies⟩ := h.lookup_lies hlook
    rw [ha.tree]
    exact .inr ⟨_, creates_add h hhome hisDir hlies rfl (by decide) hfree rfl rfl rfl⟩

/-! ## All calls -/

/-- A call that says no leaves the map of files as it was. Only a trash that something was to be moved into may be new. -/
theorem FileCall.files_refused (h : WellFormed s.tree) (c : FileCall) (hrun : (c.run user? source?).run s = (.ok (.truth false), s')) :
    s'.tree.files = s.tree.files ∨ ∃ path home, c = .moveToTrash path ∧
      s.Creates user? s.tree.files s'.tree.files home trashName .directory "" := by
  have hsame : ∀ {s₁}, Settled Answer.Refusal s₁ (.ok (.truth false)) s' → s'.tree = s₁.tree := fun hsettled => by
    rcases hsettled with hnoted | ⟨-, hno⟩
    · rw [hnoted]
    · exact absurd rfl (hno _ rfl)
  rcases c.settled hrun with hsettled | ⟨path, x, s₁, rfl, hens, hsettled⟩
  · exact .inl (by rw [hsame hsettled])
  · rw [hsame hsettled]
    rcases files_ensureTrash h hens with hkept | ⟨home, hmade⟩
    · exact .inl hkept
    · exact .inr ⟨path, home, rfl, hmade⟩

/-- A call that says yes changes the map of files by paths. -/
theorem FileCall.files_accepted (h : WellFormed s.tree) (c : FileCall)
    (hroot : ∀ {id dir}, c = .copyById id dir none → ∀ n, s.tree.get? id = some n → n.parent ≠ .null)
    (hrun : (c.run user? source?).run s = (.ok (.truth true), s')) : c.Remaps s user? s.tree.files s'.tree.files := by
  have hyes : ∀ {m : Act Bool}, (Answer.truth <$> m).run s = (.ok (.truth true), s') → m.run s = (.ok true, s') := fun hrun => by
    obtain ⟨x, hx, hanswer⟩ := run_answer hrun
    obtain ⟨a, rfl, ha⟩ := hanswer _ rfl
    cases ha
    exact hx
  cases c with
  | createFile path name content permissions? => exact creates_createNode h (hyes hrun)
  | createDirectory path name => exact creates_createNode h (hyes hrun)
  | writeFile path content => exact writes_overwriteFile h (hyes hrun)
  | appendFile path content => exact writes_appendFile h (hyes hrun)
  | deleteNode path => exact deleteNode_maps h (hyes hrun)
  | moveToTrash path => exact moveToTrash_maps h (hyes hrun)
  | emptyTrash =>
    obtain ⟨x, -, hanswer⟩ := run_answer hrun
    obtain ⟨a, -, ha⟩ := hanswer _ rfl
    cases ha
  | moveNode path target => exact moveNode_maps h (hyes hrun)
  | moveById id path => exact moveById_maps h (hyes hrun)
  | copyById id path name? => exact copyById_maps h (fun hnone => hroot (by rw [hnone])) (hyes hrun)
  | chmod path mode => exact chmod_maps h (hyes hrun)
  | chown path owner group? => exact chown_maps h (hyes hrun)

/-- Every call keeps a tree well-formed. One that says yes changes the map of files by paths, and one that says no leaves it as it was, but
for a new trash. Only a copy of the root under its own name is no such call. -/
theorem FileCall.remaps (h : WellFormed s.tree) (c : FileCall) {r : Except Fault Answer}
    (hroot : ∀ {id dir}, c = .copyById id dir none → ∀ n, s.tree.get? id = some n → n.parent ≠ .null)
    (hrun : (c.run user? source?).run s = (r, s')) :
    WellFormed s'.tree ∧ (r = .ok (.truth true) → c.Remaps s user? s.tree.files s'.tree.files) ∧
      (r = .ok (.truth false) → s'.tree.files = s.tree.files ∨ ∃ path home, c = .moveToTrash path ∧
        s.Creates user? s.tree.files s'.tree.files home trashName .directory "") := by
  refine ⟨c.wellFormed h hroot hrun, ?_, ?_⟩
  · rintro rfl
    exact c.files_accepted h hroot hrun
  · rintro rfl
    exact c.files_refused h hrun

/-- A system that has not been started, with nothing but a root. -/
def bare : Machine := create (.memory []) "aurora" {} { stem := "n" } { seconds := 0 }

theorem wellFormed_bare : WellFormed bare.tree := by
  refine ⟨linked_empty.1, fun hx hne => ?_, fun hx hne => ?_⟩
  all_goals
    obtain ⟨n, hn, rfl⟩ := skeleton_some.1 hx
    rw [bare, create, get?_empty] at hn
    split at hn <;> cases hn
    exact absurd rfl hne

theorem wellFormed_housed : WellFormed housed.tree := by
  rcases hrun : ((FileCall.createDirectory "/" "root").run (some (.str rootName)) none).run bare with ⟨r, s'⟩
  have hsame : housed = s' := by
    show ((discard ((FileCall.createDirectory "/" "root").run (some (.str rootName)) none)).run bare).2 = s'
    rw [run_discard, hrun]
    cases r <;> rfl
  rw [hsame]
  exact FileCall.wellFormed wellFormed_bare _ (fun he => by cases he) hrun

theorem remaps_housed : ∃ s', WellFormed housed.tree ∧
    ((FileCall.moveNode "/root" "/home").run (some (.str rootName)) none).run housed = (.ok (.truth true), s') ∧
    WellFormed s'.tree ∧ ∃ place goal, housed.Resolves "/root" (some (.str rootName)) place ∧
      housed.Resolves "/home" (some (.str rootName)) goal ∧ (housed.tree.files place).isSome ∧
      s'.tree.files = housed.tree.files.move place (housed.tree.files.goal place goal) := by
  have hyes : ((FileCall.moveNode "/root" "/home").run (some (.str rootName)) none housed).1 = .ok (.truth true) := by
    decide +kernel
  rcases hrun : ((FileCall.moveNode "/root" "/home").run (some (.str rootName)) none).run housed with ⟨r, s'⟩
  obtain rfl : r = .ok (.truth true) := (congrArg Prod.fst hrun).symm.trans hyes
  obtain ⟨hwf, haccepted, -⟩ := FileCall.remaps wellFormed_housed (.moveNode "/root" "/home") (fun he => by cases he) hrun
  exact ⟨s', wellFormed_housed, rfl, hwf, haccepted rfl⟩

/-- Root may copy the root into itself, and the copy goes by a name that nothing may be given. -/
theorem root_copied : ¬ ∀ (s s' : Machine) (c : FileCall) (user? source? : Option Json) (r : Except Fault Answer), WellFormed s.tree →
    (c.run user? source?).run s = (r, s') → WellFormed s'.tree := by
  intro hall
  let c : FileCall := .copyById bare.tree.rootId "/" none
  have hwf : WellFormed ((c.run (some (.str rootName)) none).run bare).2.tree :=
    hall bare _ c _ _ _ wellFormed_bare (Prod.mk.eta (p := (c.run (some (.str rootName)) none).run bare)).symm
  have hcopy : (((c.run (some (.str rootName)) none).run bare).2.tree.skeleton bare.tree.ids.id).any
      (fun x => x.parent != .null && x.name == .str "/") = true := by decide +kernel
  obtain ⟨x, hx, hlinked⟩ := (Option.any_eq_true _ _).1 hcopy
  simp only [Bool.and_eq_true, bne_iff_ne, beq_iff_eq] at hlinked
  obtain ⟨name, hname, hvalid⟩ := hwf.shaped.named hx hlinked.1
  cases hlinked.2.symm.trans hname
  exact absurd hvalid (by decide)

end SimUnix.Machine
