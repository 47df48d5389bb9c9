/-
Applications and their launchers. Where nothing is in the way, an application that has been installed has its launcher in the directory of
applications: a new one that everybody may execute, or a file that was there and says something else now. The name of the application is
then a word that runs it. Uninstalling the application right away gives back the applications, and the nodes of before if only the launcher
was missing.
-/
import SimUnix.Proofs.Machine.Contents
import SimUnix.Proofs.Machine.Spared
import SimUnix.Proofs.Machine.Telling
import SimUnix.Proofs.Tree.Files
import SimUnix.Shell.Resolution

namespace SimUnix

/-! ## Files that name applications -/

namespace Text

/-- What is trimmed already does not end in what is to be dropped. -/
theorem last_of_trimBy {drop : Char → Bool} {cs : List Char} (htrim : trimBy drop cs = cs) (hne : cs ≠ []) :
    drop (cs.getLast hne) = false := by
  have hcut : (cs.dropWhile drop).rdropWhile drop = cs := htrim
  have hlast := List.rdropWhile_last_not drop (cs.dropWhile drop) (by rw [hcut]; exact hne)
  simpa only [hcut, Bool.not_eq_true] using hlast

/-- A text is cut where the character stands first. -/
theorem cutAt_of {sep : Char} {s front rest : String} (hs : s.toList = front.toList ++ sep :: rest.toList) (hfront : sep ∉ front.toList) :
    cutAt sep s = (front, rest) := by
  have hother : ∀ c ∈ front.toList, decide (c ≠ sep) = true := fun c hc => decide_eq_true fun he => hfront (he ▸ hc)
  unfold cutAt
  dsimp only
  rw [hs, List.takeWhile_append_of_pos hother, List.dropWhile_append_of_pos hother, List.takeWhile_cons_of_neg (by simp),
    List.dropWhile_cons_of_neg (by simp), List.append_nil, List.drop_one, List.tail_cons, String.ofList_toList, String.ofList_toList]

end Text

namespace Executable

/-- The file of an application names it, unless its id begins or ends with a blank. -/
theorem ofContent?_appContent {id : String} (hne : id ≠ "") (htrim : Text.trim id = id) :
    ofContent? (appContent id) = some (.app id) := by
  have hlist : (appContent id).toList = appMark.toList ++ ' ' :: id.toList := by
    unfold appContent
    rw [String.toList_append, String.toList_append, List.append_assoc]
    rfl
  have hchars : id.toList ≠ [] := fun he => hne (String.toList_eq_nil_iff.1 he)
  have hown : Text.trimBy Text.isBlank id.toList = id.toList := by
    have h := congrArg String.toList htrim
    rwa [Text.trim, String.toList_ofList] at h
  have hwhole : Text.trim (appContent id) = appContent id := by
    have hnil : (appContent id).toList ≠ [] := by simp [hlist]
    have hlast : (appContent id).toList.getLast hnil = id.toList.getLast hchars := by
      simp only [hlist]
      rw [List.getLast_append_of_ne_nil _ (List.cons_ne_nil _ _), List.getLast_cons hchars]
    have hfirst : (appContent id).toList.head hnil = '#' := by
      simp only [hlist]
      rfl
    unfold Text.trim Text.trimChars
    rw [Text.trimBy_of_ends hnil (hfirst ▸ by decide) (hlast ▸ Text.last_of_trimBy hown hchars), String.ofList_toList]
  have hcut : Text.cutAt ' ' (appContent id) = (appMark, id) := Text.cutAt_of hlist (by decide)
  have hread : markAndRest (appContent id) = (appMark, id) := by
    unfold markAndRest
    rw [hwhole, hcut]
    dsimp only
    rw [htrim]
  unfold ofContent? appOf?
  rw [hread]
  dsimp only
  rw [if_neg (by decide), if_pos ⟨rfl, hne⟩]
  rfl

end Executable

namespace Tree

open Skeleton

variable {t t' : Tree} {n d c k : Node} {names rest : List String} {name : String} {now : Time.Stamp}

/-! ## Ways down the tree -/

theorem Sits.same (hn : t.Sits names n) (hk : t.Sits names k) : k = n := by
  cases hn.found.symm.trans hk.found
  rfl

/-- Nothing lies in a directory without children. -/
theorem Sits.alone (h : Linked t) (hc : t.Sits names c) (hempty : c.children = []) (hk : t.Sits (names ++ rest) k) : k = c := by
  induction rest using List.reverseRecOn generalizing k with
  | nil => exact hc.same (by rwa [List.append_nil] at hk)
  | append_singleton front last ih =>
    rw [← List.append_assoc] at hk
    obtain ⟨-, d, hd, -, hchild⟩ := (sits_snoc h).1 hk
    cases ih hd
    obtain ⟨hmem, -⟩ := h.childNamed_some (hc.present h) hchild
    rw [hempty] at hmem
    cases hmem

/-- Whatever lies further down lies below what the first names lead to. -/
theorem Sits.front (h : Linked t) (hk : t.Sits (names ++ rest) k) : ∃ c, t.Sits names c := by
  induction rest using List.reverseRecOn generalizing k with
  | nil => exact ⟨k, by rwa [List.append_nil] at hk⟩
  | append_singleton front last ih =>
    rw [← List.append_assoc] at hk
    obtain ⟨-, d, hd, -⟩ := (sits_snoc h).1 hk
    exact ih hd

end Tree

namespace Machine

open Tree Act

variable {s s' s₁ s₂ : Machine} {t : Tree} {n d m : Node} {id name user cwd : String} {child : NodeId} {user? : Option Json}
  {names : List String} {style : DirectoryStyle}

/-! ## Where launchers lie -/

/-- The names that lead to the directory of applications. -/
def appsNames : List String := ["usr", "bin"]

/-- The path of the launcher of an application. -/
def launcherPath (id : String) : String := appsPath ++ "/" ++ id

/-- What is shown of a launcher that is new. -/
def launcherFace (id : String) : Face where
  kind := .file
  owner := rootName
  group := rootName
  permissions := Executable.permissions
  content := Executable.appContent id

theorem valid_appsNames : Path.Valid appsNames := by
  unfold Path.Valid
  decide +kernel

theorem launcherPath_eq : launcherPath id = Path.ofComponents (appsNames ++ [id]) := by
  rw [Path.ofComponents_snoc (by decide)]
  rfl

theorem sits_apps : t.Sits appsNames d ↔ t.lookup appsPath = .ok (some d) := ⟨Sits.found, fun h => ⟨valid_appsNames, h⟩⟩

/-- A launcher is the child of the directory of applications that has the name of its application, whatever that is. -/
theorem lookup_launcher_iff (hl : Linked t) (hne : id ≠ "") (hslash : '/' ∉ id.toList) :
    t.lookup (launcherPath id) = .ok (some m) ↔ ∃ d, t.Sits appsNames d ∧ d.isDir = true ∧ t.childNamed d id = .ok (some m) := by
  obtain ⟨root, hroot, -⟩ := hl.root_ok
  have hpieces : ∀ p ∈ (appsNames ++ [id]).map String.toList, '/' ∉ p ∧ p ≠ [] := by
    intro p hp
    rw [List.map_append, List.mem_append] at hp
    rcases hp with hp | hp
    · exact valid_appsNames.pieces p hp
    · cases List.mem_singleton.1 hp
      exact ⟨hslash, fun he => hne (String.toList_eq_nil_iff.1 he)⟩
  have hdescend : t.lookup (launcherPath id) = t.descend root (appsNames ++ [id]) := by
    unfold Tree.lookup
    rw [hroot, launcherPath_eq, Path.components_of_pieces hpieces]
  rw [hdescend, descend_snoc]
  refine exists_congr fun d => and_congr_left fun _ => ?_
  rw [sits_apps, show appsPath = Path.ofComponents appsNames from rfl, lookup_ofComponents hroot valid_appsNames]

theorem no_launcher (hl : Linked t) (hne : id ≠ "") (hslash : '/' ∉ id.toList) (hfree : t.lookup (launcherPath id) = .ok none)
    (hd : t.Sits appsNames d) (hdir : d.isDir = true) : t.childNamed d id = .ok none := by
  rcases hl.childNamed_cases (hd.present hl) id with ⟨hnone, -⟩ | ⟨m, hsome, -⟩
  · exact hnone
  · cases hfree.symm.trans ((lookup_launcher_iff hl hne hslash).2 ⟨d, hd, hdir, hsome⟩)

/-! ## What the name of an application runs -/

/-- The name of an application is free for it: no command has it, it can be a name on a path, and it neither begins nor ends
with a blank. -/
structure FreeName (id : String) : Prop where
  unnamed : Command.named? id = none
  valid : Path.validName id = true
  trimmed : Text.trim id = id

/-- A file of a name lies among the programs that a user may execute. -/
def Shadowed (s : Machine) (id user : String) : Prop :=
  ∃ n, s.tree.lookup (programsPath ++ "/" ++ id) = .ok (some n) ∧ Shell.isExecutable s user n = .ok true

theorem FreeName.ne_empty (h : FreeName id) : id ≠ "" := (Path.validName_iff.1 h.valid).1

theorem FreeName.no_slash (h : FreeName id) : '/' ∉ id.toList := (Path.validName_iff.1 h.valid).2.1

/-- Everybody may execute a launcher that is new, also in safe mode. -/
theorem allows_launcher (ht : s.Tidy) (hface : m.face = launcherFace id) : s.Allows m .execute (some (.str user)) := by
  have howner : m.owner = .str rootName := congrArg Face.owner hface
  have hgroup : m.group = .str rootName := congrArg Face.group hface
  have hpermissions : m.permissions = .str Executable.permissions := congrArg Face.permissions hface
  have hgrants : ∀ c, Permission.grants (Executable.permissions.toList.map fun c => .str c.toString) c .execute = true := by
    intro c
    cases c <;> decide +kernel
  have hsubject : s.accounts.subject (s.actor (some (.str user))) = .ok {
      name := s.actor (some (.str user))
      groups := ((s.accounts.user? (s.actor (some (.str user)))).map User.groups).getD [] } := by
    unfold Accounts.subject
    rw [find_text (ht.actor (userArg_some user))]
    rfl
  have hother : (s.safeMode && Access.execute == .write) = false := Bool.and_false _
  unfold Allows can Permission.allows Permission.classOf
  simp only [hsubject, howner, hgroup, hpermissions, hother, Json.isKey, Permission.flagsOf, bind, Except.bind, hgrants, Bool.not_true,
    Bool.false_eq_true, if_false]
  split_ifs <;> rfl

theorem searchIn_launcher (ht : s.Tidy) (hl : Linked s.tree) (hvalid : Path.validName id = true) (hfree : ¬ s.Shadowed id user)
    (hfound : s.tree.lookup (launcherPath id) = .ok (some m)) (hfile : m.isDir = false) (hmay : s.Allows m .execute (some (.str user))) :
    Shell.searchIn s user id Shell.searchPath = .ok (some m) := by
  have hprogram : s.nodeAt (Path.join "/bin" id) (some (.str user)) = s.tree.lookup (programsPath ++ "/" ++ id) := by
    have hbin : Path.Valid ["bin"] := by
      unfold Path.Valid
      decide +kernel
    rw [show Path.join "/bin" id = Path.ofComponents ["bin"] ++ "/" ++ id from rfl, ← Path.ofComponents_snoc (List.cons_ne_nil _ _),
      nodeAt_ofComponents (Path.valid_snoc.2 ⟨hbin, hvalid⟩), Path.ofComponents_snoc (List.cons_ne_nil _ _)]
    rfl
  have happ : s.nodeAt (Path.join "/usr/bin" id) (some (.str user)) = .ok (some m) := by
    rw [show Path.join "/usr/bin" id = launcherPath id from rfl, launcherPath_eq,
      nodeAt_ofComponents (Path.valid_snoc.2 ⟨valid_appsNames, hvalid⟩), ← launcherPath_eq, hfound]
  have hlast : Shell.searchIn s user id ["/usr/bin"] = .ok (some m) := by
    refine bind_ok.2 ⟨some m, happ, bind_ok.2 ⟨true, ?_, rfl⟩⟩
    unfold Shell.isExecutable
    rw [hfile, if_neg Bool.false_ne_true]
    exact hmay
  obtain ⟨found?, hlook⟩ := hl.lookup_ok (programsPath ++ "/" ++ id)
  refine bind_ok.2 ⟨found?, hprogram.trans hlook, ?_⟩
  cases found? with
  | none => exact hlast
  | some n =>
    obtain ⟨may, hmay⟩ : ∃ may, Shell.isExecutable s user n = .ok may := by
      unfold Shell.isExecutable
      split
      · exact ⟨false, rfl⟩
      · exact ht.can_ok (hl.lookup_found hlook).1 (userArg_some user) .execute
    cases may with
    | true => exact absurd ⟨n, hlook, hmay⟩ hfree
    | false => exact bind_ok.2 ⟨false, hmay, hlast⟩

/-- The name of a command runs the command, whatever files there are. -/
theorem resolve_named {c : Command} (hname : Command.named? id = some c) (hslash : '/' ∉ id.toList) :
    Shell.resolve s id user cwd = .ok (.ok (.program c)) := by
  have hplain : id.toList.contains '/' = false := by simpa using hslash
  unfold Shell.resolve
  rcases hbuiltin : Command.builtin? id with _ | b
  · rw [show Command.program? id = some c by rwa [Command.named?, hbuiltin] at hname, hplain]
    rfl
  · rw [show b = c by rw [Command.named?, hbuiltin] at hname; exact Option.some.inj hname]

/-- The name of an application runs it, for whoever may execute its launcher and wherever. -/
theorem resolve_app (ht : s.Tidy) (hl : Linked s.tree) (hname : FreeName id) (hfree : ¬ s.Shadowed id user)
    (hfound : s.tree.lookup (launcherPath id) = .ok (some m)) (hfile : m.isDir = false)
    (hcontent : m.content = .str (Executable.appContent id)) (hmay : s.Allows m .execute (some (.str user))) :
    Shell.resolve s id user cwd = .ok (.ok (.app id)) := by
  obtain ⟨hbuiltin, hprogram⟩ := Option.or_eq_none_iff.1 hname.unnamed
  have hplain : id.toList.contains '/' = false := by simpa using hname.no_slash
  unfold Shell.resolve
  rw [hbuiltin, hplain, hprogram]
  refine bind_ok.2 ⟨some m, searchIn_launcher ht hl hname.valid hfree hfound hfile hmay, ?_⟩
  show Shell.ofNode m = _
  unfold Shell.ofNode
  rw [hcontent]
  refine bind_ok.2 ⟨Executable.appContent id, rfl, ?_⟩
  rw [Executable.ofContent?_appContent hname.ne_empty hname.trimmed]

/-! ## Directories -/

/-- A directory that is wanted in another one is there in the end: it was there before, unless something else had its name, or it
is new and has no children. -/
theorem sits_childOrNew (h : s.Sound) (hd : s.tree.Sits names d) (hdir : d.isDir = true) (hname : Path.validName name = true)
    (hway : ∀ c, s.tree.Sits (names ++ [name]) c → c.isDir = true)
    (hrun : (childOrNew d.id { name, kind := .directory, owner := style.owner, group := style.group
                               permissions := style.permissions }).run s = (.ok child, s')) :
    ∃ c, s'.tree.Sits (names ++ [name]) c ∧ c.isDir = true ∧ c.id = child ∧
      (s' = s ∨ c.children = [] ∧ ∀ k, ¬ s.tree.Sits (names ++ [name]) k) := by
  have hthere := hd.present h.linked
  have hrun := got hrun
  rcases asked hrun with ⟨e, -, he, -⟩ | ⟨dir, hget, hrun⟩
  · cases he
  cases hthere.symm.trans (node_ok.1 hget)
  rcases asked hrun with ⟨e, -, he, -⟩ | ⟨child?, hchild, hrun⟩
  · cases he
  cases child? with
  | some c =>
    cases hrun
    have hc := (sits_snoc h.linked).2 ⟨hname, d, hd, hdir, hchild⟩
    exact ⟨c, hc, hway c hc, rfl, .inl rfl⟩
  | none =>
    rw [run_addNew] at hrun
    cases hrun
    have hplain : NewNode.Plain { name, kind := .directory, owner := style.owner, group := style.group, permissions := style.permissions } :=
      ⟨⟨_, rfl⟩, ⟨_, rfl⟩⟩
    refine ⟨_, hd.add h.linked hplain.isNew hdir hname rfl hchild, rfl, rfl, .inr ⟨rfl, fun k hk => ?_⟩⟩
    obtain ⟨-, d', hd', -, hk⟩ := (sits_snoc h.linked).1 hk
    cases hd.same hd'
    cases hchild.symm.trans hk

theorem sits_ensureBelow : ∀ {rest names : List String} {d : Node} {s : Machine}, s.Sound → s.tree.Sits names d → d.isDir = true →
    Path.Valid rest → (∀ front c, front <+: rest → s.tree.Sits (names ++ front) c → c.isDir = true) →
      (ensureBelow style d.id rest).run s = (.ok child, s') →
        ∃ c, s'.tree.Sits (names ++ rest) c ∧ c.isDir = true ∧ c.id = child ∧
          (s' = s ∨ c.children = [] ∧ ∀ k, ¬ s.tree.Sits (names ++ rest) k)
  | [], names, d, s, _, hd, hdir, _, _, hrun => by
    cases hrun
    exact ⟨d, by rwa [List.append_nil], hdir, rfl, .inl rfl⟩
  | name :: rest, names, d, s, h, hd, hdir, hvalid, hway, hrun => by
    obtain ⟨hname, hvalid⟩ := List.forall_mem_cons.1 hvalid
    rcases of_run_bind hrun with ⟨e, -, he⟩ | ⟨first, s₁, hfirst, hrun⟩
    · cases he
    have h₁ : s₁.Sound := sound_childOrNew ⟨⟨_, rfl⟩, ⟨_, rfl⟩⟩ h hfirst
    obtain ⟨c, hc, hcdir, rfl, hold⟩ := sits_childOrNew h hd hdir hname (fun c => hway [name] c ⟨rest, rfl⟩) hfirst
    have hway₁ : ∀ front k, front <+: rest → s₁.tree.Sits (names ++ [name] ++ front) k → k.isDir = true := by
      intro front k hfront hk
      rcases hold with rfl | ⟨hempty, -⟩
      · rw [List.append_assoc] at hk
        exact hway (name :: front) k (List.cons_prefix_cons.2 ⟨rfl, hfront⟩) hk
      · cases hc.alone h₁.linked hempty hk
        exact hcdir
    obtain ⟨m, hm, hmdir, hid, hlast⟩ := sits_ensureBelow h₁ hc hcdir hvalid hway₁ hrun
    have hsplit : names ++ name :: rest = names ++ [name] ++ rest := by simp
    rw [hsplit]
    refine ⟨m, hm, hmdir, hid, ?_⟩
    rcases hold with rfl | ⟨hempty, hnone⟩
    · exact hlast
    · refine .inr ⟨?_, fun k hk => ?_⟩
      · rcases hlast with rfl | ⟨hbare, -⟩
        · cases hc.alone h₁.linked hempty hm
          exact hempty
        · exact hbare
      · obtain ⟨c', hc'⟩ := hk.front h.linked
        exact hnone c' hc'

/-! ## Launchers that are written -/

/-- Nothing is in the way of an application: as far as they are there, the directories that lead to its launcher are directories, and the
launcher is a file. -/
structure ClearFor (s : Machine) (id : String) : Prop where
  directory : ∀ path ∈ ["/usr", appsPath], ∀ n, s.tree.lookup path = .ok (some n) → n.isDir = true
  file : ∀ n, s.tree.lookup (launcherPath id) = .ok (some n) → n.isDir = false

/-- The launcher that is made for an application. -/
def newLauncher (id : String) : NewNode where
  name := id
  kind := .file
  content := Executable.appContent id
  permissions := Executable.permissions

theorem plain_newLauncher : (newLauncher id).Plain := ⟨⟨_, rfl⟩, ⟨_, rfl⟩⟩

/-- The launcher with its content written anew. -/
def rewritten (id : String) (now : Time.Stamp) (n : Node) : Node := { n with content := .str (Executable.appContent id), modified := now }

/-- The directory of applications is found, or made without anything in it. -/
theorem appsDirectory_made (h : s.Sound) (hway : ∀ path ∈ ["/usr", appsPath], ∀ n, s.tree.lookup path = .ok (some n) → n.isDir = true)
    (hrun : (ensureDirectory appsPath {}).run s = (.ok child, s')) :
    ∃ d, s'.tree.Sits appsNames d ∧ d.isDir = true ∧ d.id = child ∧ (s' = s ∨ d.children = [] ∧ ∀ k, ¬ s.tree.Sits appsNames k) := by
  obtain ⟨root, hroot, -, -, hdir⟩ := h.linked.root_ok
  have hstart : s.tree.Sits [] root := sits_nil.2 hroot
  have hdirs : ∀ front c, front <+: appsNames → s.tree.Sits ([] ++ front) c → c.isDir = true := by
    intro front c hfront hc
    rw [List.nil_append] at hc
    obtain rfl | rfl | rfl : front = [] ∨ front = ["usr"] ∨ front = appsNames := by
      rcases hfront with ⟨rest, hsplit⟩
      rcases front with _ | ⟨a, _ | ⟨b, _ | ⟨c, front⟩⟩⟩ <;> simp_all [appsNames]
    · cases hstart.same hc
      exact hdir
    · exact hway "/usr" (by simp) c hc.found
    · exact hway appsPath (by simp) c hc.found
  rcases askedOf hrun with ⟨e, -, he, -⟩ | ⟨root', hroot', hbelow⟩
  · cases he
  cases hroot.symm.trans hroot'
  have hnames : Path.nonEmptyComponents appsPath = appsNames := by decide +kernel
  rw [hnames] at hbelow
  exact sits_ensureBelow h hstart hdir valid_appsNames hdirs hbelow

/-- The directory of applications is found or made; in it a launcher is made, or what has its name is written, unless it says the
right thing. -/
theorem putAppFile_cases (h : s.Sound) (hway : ∀ path ∈ ["/usr", appsPath], ∀ n, s.tree.lookup path = .ok (some n) → n.isDir = true)
    (hrun : (putAppFile id).run s = (.ok ⟨⟩, s')) :
    ∃ s₁ d, s₁.Sound ∧ s₁.tree.Sits appsNames d ∧ d.isDir = true ∧ (s₁ = s ∨ d.children = [] ∧ ∀ k, ¬ s.tree.Sits appsNames k) ∧
      (s₁.tree.childNamed d id = .ok none ∧
          s' = { s₁ with tree := s₁.tree.takeId.2.add ((newLauncher id).build s₁) d.id s₁.now } ∨
        ∃ n, s₁.tree.childNamed d id = .ok (some n) ∧
          (s' = s₁ ∧ n.content = .str (Executable.appContent id) ∨
            s' = { s₁ with tree := s₁.tree.update n.id (rewritten id s₁.now) })) := by
  obtain ⟨put, hput⟩ := of_run_discard_ok hrun
  rcases of_run_bind hput with ⟨e, -, he⟩ | ⟨dirId, s₁, hdirectory, hput⟩
  · cases he
  have h₁ : s₁.Sound := sound_ensureDirectory h hdirectory
  obtain ⟨d, hd, hdir, rfl, hold⟩ := appsDirectory_made h hway hdirectory
  refine ⟨s₁, d, h₁, hd, hdir, hold, ?_⟩
  have hput := got hput
  rcases asked hput with ⟨e, -, he, -⟩ | ⟨d', hget', hput⟩
  · cases he
  cases (hd.present h₁.linked).symm.trans (node_ok.1 hget')
  rcases asked hput with ⟨e, -, he, -⟩ | ⟨child?, hchild, hput⟩
  · cases he
  cases child? with
  | none =>
    dsimp only at hput
    rw [run_addNew] at hput
    cases hput
    exact .inl ⟨hchild, rfl⟩
  | some n =>
    refine .inr ⟨n, hchild, ?_⟩
    dsimp only at hput
    split at hput
    · rw [run_bind, run_editTree] at hput
      cases hput
      exact .inr rfl
    · rename_i hsame
      cases hput
      exact .inl ⟨rfl, by simpa using hsame⟩

/-- Where nothing is in the way, the launcher is found once it has been written. If it is new, everybody may execute it. -/
theorem launcher_written (h : s.Sound) (hne : id ≠ "") (hslash : '/' ∉ id.toList) (hclear : s.ClearFor id)
    (hrun : (putAppFile id).run s = (.ok ⟨⟩, s')) :
    ∃ m, s'.tree.lookup (launcherPath id) = .ok (some m) ∧ m.isDir = false ∧ m.content = .str (Executable.appContent id) ∧
      (s.tree.lookup (launcherPath id) = .ok none → m.face = launcherFace id) := by
  have hput : Keeps Sound (putAppFile id) := keeps_discard sound_putSystemFile
  have h' : s'.Sound := hput h hrun
  have hfound : ∀ {d m}, s'.tree.Sits appsNames d → d.isDir = true → s'.tree.childNamed d id = .ok (some m) →
      s'.tree.lookup (launcherPath id) = .ok (some m) := fun hd hdir hm =>
    (lookup_launcher_iff h'.linked hne hslash).2 ⟨_, hd, hdir, hm⟩
  obtain ⟨s₁, d, h₁, hd, hdir, hold, ⟨hfree, rfl⟩ | ⟨n, hchild, hwritten⟩⟩ := putAppFile_cases h hclear.directory hrun
  · obtain ⟨d', hd', hkind, hm⟩ := hd.adds h₁.linked plain_newLauncher.isNew rfl hfree
    exact ⟨_, hfound hd' (hkind.trans hdir) hm, rfl, rfl, fun _ => rfl⟩
  · -- What has children is not new.
    obtain ⟨hmem, hn, -⟩ := h₁.linked.childNamed_some (hd.present h₁.linked) hchild
    obtain rfl := hold.resolve_right fun ⟨hempty, _⟩ => by
      rw [hempty] at hmem
      cases hmem
    have hlook := (lookup_launcher_iff h.linked hne hslash).2 ⟨d, hd, hdir, hchild⟩
    have hfile : n.isDir = false := hclear.file n hlook
    rcases hwritten with ⟨rfl, hcontent⟩ | rfl
    · exact ⟨n, hlook, hfile, hcontent, fun hfree => by cases hfree.symm.trans hlook⟩
    · have hspares : Spares (· = n.id) s₁.tree (s₁.tree.update n.id (rewritten id s₁.now)) := spares_edit fun _ => rfl
      obtain ⟨d', hd', hget⟩ := hspares.sits h.linked h'.linked hd
      obtain ⟨k, hk, hstand, -⟩ := hspares.node (hd.present h.linked)
      cases hget.symm.trans hk
      have hself : (s₁.tree.update n.id (rewritten id s₁.now)).get? n.id = some (rewritten id s₁.now n) := by
        rw [get?_update, if_pos rfl, hn]
        rfl
      have hm := childNamed_stands h.linked h'.linked (hd.present h.linked) hchild hget hself rfl
      exact ⟨_, hfound hd' ((standing_isDir hstand).trans hdir) hm, hfile, rfl, fun hfree => by cases hfree.symm.trans hlook⟩

/-- Where only the launcher is missing, making it is all that happens. -/
theorem launcher_added (h : s.Sound) (hne : id ≠ "") (hslash : '/' ∉ id.toList) (hd : s.tree.lookup appsPath = .ok (some d))
    (hdir : d.isDir = true) (hfree : s.tree.lookup (launcherPath id) = .ok none) (hrun : (putAppFile id).run s = (.ok ⟨⟩, s')) :
    s' = { s with tree := s.tree.takeId.2.add ((newLauncher id).build s) d.id s.now } ∧
      s'.tree.lookup (launcherPath id) = .ok (some { (newLauncher id).build s with parent := d.id }) := by
  have hsits := sits_apps.2 hd
  have hway : ∀ path ∈ ["/usr", appsPath], ∀ n, s.tree.lookup path = .ok (some n) → n.isDir = true := by
    have hbelow : s.tree.Sits (["usr"] ++ ["bin"]) d := hsits
    obtain ⟨usr, husr, husrDir, -⟩ := hbelow.inside h.linked
    simp only [List.forall_mem_cons]
    refine ⟨fun n hn => ?_, fun n hn => ?_, fun _ hno => absurd hno List.not_mem_nil⟩
    · cases husr.found.symm.trans hn
      exact husrDir
    · cases hd.symm.trans hn
      exact hdir
  have hput : Keeps Sound (putAppFile id) := keeps_discard sound_putSystemFile
  have h' : s'.Sound := hput h hrun
  obtain ⟨s₁, d', h₁, hd', hdir', hold, hwritten⟩ := putAppFile_cases h hway hrun
  obtain rfl := hold.resolve_right fun ⟨_, hnone⟩ => hnone d hsits
  cases hsits.same hd'
  have hnone := no_launcher h.linked hne hslash hfree hsits hdir
  rcases hwritten with ⟨-, rfl⟩ | ⟨n, hsome, -⟩
  · obtain ⟨k, hk, hkind, hm⟩ := hsits.adds h.linked plain_newLauncher.isNew rfl hnone
    exact ⟨rfl, (lookup_launcher_iff h'.linked hne hslash).2 ⟨k, hk, hkind.trans hdir, hm⟩⟩
  · cases hnone.symm.trans hsome

/-! ## Installing and uninstalling -/

theorem mayManageApps_granted {action : String} (hrun : (mayManageApps action user?).run s = (.ok true, s')) : s' = s := by
  rcases asked (got hrun) with ⟨e, -, he, -⟩ | ⟨found?, -, hrun⟩
  · cases he
  split at hrun
  · cases hrun
  · cases hrun
    rfl

/-- Whatever has been done is written down in the end. -/
theorem aside_noted {message : String} {r : Except Fault Bool} (hrun : (do
    Act.log .info "system" message ((← get).actor user?)
    Act.flush
    pure true : Act Bool).run s = (r, s')) : s.Aside s' := by
  have hrun := got hrun
  rw [run_bind, run_log] at hrun
  dsimp only at hrun
  rcases of_run_bind hrun with ⟨e, hflush, -⟩ | ⟨_, s₁, hflush, hrun⟩
  · exact aside_logged.trans (aside_flush hflush)
  · cases hrun
    exact aside_logged.trans (aside_flush hflush)

/-- An application that is installed was none before. It is one now, and its launcher is written. -/
theorem installApp_accepted (hrun : (installApp id user?).run s = (.ok true, s')) : id ≠ "" ∧ '/' ∉ id.toList ∧ .str id ∉ s.apps ∧
    ∃ t, (putAppFile id).run { s with apps := s.apps ++ [.str id] } = (.ok ⟨⟩, { s with apps := s.apps ++ [.str id], tree := t }) ∧
      Aside { s with apps := s.apps ++ [.str id], tree := t } s' := by
  have hrun := got hrun
  split at hrun
  · cases hrun
  rename_i hid
  simp only [Bool.or_eq_true, decide_eq_true_eq, List.contains_iff_mem, not_or] at hid
  rcases of_run_bind hrun with ⟨e, -, he⟩ | ⟨may, s₀, hmay, hrun⟩
  · cases he
  cases may with
  | false => cases hrun
  | true =>
  cases mayManageApps_granted hmay
  refine ⟨hid.1.1, hid.1.2, hid.2, ?_⟩
  rw [if_neg (by decide), run_bind, run_modify] at hrun
  dsimp only at hrun
  rcases of_run_bind hrun with ⟨e, -, he⟩ | ⟨_, s₁, hput, hrun⟩
  · cases he
  obtain ⟨_, hfile⟩ := of_run_discard_ok hput
  have hsame : s₁ = { s with apps := s.apps ++ [.str id], tree := s₁.tree } := onlyTree_putSystemFile (.refl _) hfile
  rw [hsame] at hput hrun
  exact ⟨s₁.tree, hput, aside_noted hrun⟩

/-- What is found in the place of the launcher is removed when an application is uninstalled. -/
theorem uninstallApp_accepted (hrun : (uninstallApp id user?).run s = (.ok true, s')) :
    ∃ found? t, s.tree.lookup (launcherPath id) = .ok found? ∧ Aside { s with apps := s.apps.erase (.str id), tree := t } s' ∧
      match found? with
      | none => t = s.tree
      | some n => ∃ count, (Tree.remove n s.now).run s.tree = (.ok count, t) := by
  have hrun := got hrun
  split at hrun
  · cases hrun
  rcases of_run_bind hrun with ⟨e, -, he⟩ | ⟨may, s₀, hmay, hrun⟩
  · cases he
  cases may with
  | false => cases hrun
  | true =>
  cases mayManageApps_granted hmay
  rw [if_neg (by decide), run_bind, run_modify] at hrun
  dsimp only at hrun
  rcases asked (got hrun) with ⟨e, -, he, -⟩ | ⟨found?, hfound, hrun⟩
  · cases he
  cases found? with
  | none => exact ⟨none, s.tree, hfound, aside_noted hrun, rfl⟩
  | some n =>
    rcases of_run_bind hrun with ⟨e, -, he⟩ | ⟨_, s₁, hremove, hrun⟩
    · cases he
    obtain ⟨count, hremove⟩ := of_run_discard_ok hremove
    rcases hrem : (Tree.remove n s.now).run s.tree with ⟨x, t⟩
    rw [run_edit, hrem] at hremove
    cases hremove
    exact ⟨some n, t, hfound, aside_noted hrun, count, hrem⟩

/-- Where only the launcher is missing, making it is all that happens to the nodes when an application is installed. -/
theorem installApp_added (h : s.Sound) (hd : s.tree.lookup appsPath = .ok (some d)) (hdir : d.isDir = true)
    (hfree : s.tree.lookup (launcherPath id) = .ok none) (hrun : (installApp id user?).run s = (.ok true, s')) :
    s'.tree = s.tree.takeId.2.add ((newLauncher id).build s) d.id s.now ∧
      s'.tree.lookup (launcherPath id) = .ok (some { (newLauncher id).build s with parent := d.id }) := by
  obtain ⟨hne, hslash, -, t, hput, ha⟩ := installApp_accepted hrun
  have hs : Sound { s with apps := s.apps ++ [.str id] } := h.same rfl rfl
  obtain ⟨hadded, hlook⟩ := launcher_added hs hne hslash hd hdir hfree hput
  have htree : s'.tree = t := ha.tree
  exact ⟨htree.trans (congrArg Machine.tree hadded), htree.symm ▸ hlook⟩

/-- Uninstalling an application that has just been installed leaves the applications of before. If nothing but its launcher was
missing, it leaves the nodes of before, too, but for the times. -/
theorem uninstall_undoes {user₂? : Option Json} (h : s.Sound) (hinstall : (installApp id user?).run s = (.ok true, s₁))
    (huninstall : (uninstallApp id user₂?).run s₁ = (.ok true, s₂)) :
    s₂.apps = s.apps ∧ (∀ d, s.tree.lookup appsPath = .ok (some d) → d.isDir = true →
      s.tree.lookup (launcherPath id) = .ok none → Unaged s.tree s₂.tree) := by
  obtain ⟨hne, hslash, hnew, _, -, ha⟩ := installApp_accepted hinstall
  obtain ⟨found?, t, hfound, hb, hremove⟩ := uninstallApp_accepted huninstall
  refine ⟨?_, fun d hd hdir hfree => ?_⟩
  · have happs : s₁.apps = s.apps ++ [.str id] := by rw [ha.same]
    rw [hb.same, happs]
    show (s.apps ++ [Json.str id]).erase (Json.str id) = s.apps
    rw [List.erase_append_right _ hnew, List.erase_cons_head, List.append_nil]
  · obtain ⟨htree, hlook⟩ := installApp_added h hd hdir hfree hinstall
    have hl := h.linked
    have hsits : s.tree.Sits appsNames d := sits_apps.2 hd
    have hdget := hsits.present hl
    have hisNew : IsNew s.tree ((newLauncher id).build s) := plain_newLauncher.isNew
    rw [htree] at hlook hfound hremove
    cases hfound.symm.trans hlook
    obtain ⟨count, hremove⟩ := hremove
    have hl₁ : Linked (s.tree.takeId.2.add ((newLauncher id).build s) d.id s.now) :=
      hl.add hisNew hdget (hl.childNamed_none hdget (no_launcher hl hne hslash hfree hsits hdir))
    obtain ⟨d', hd', -, hchild⟩ := (lookup_launcher_iff hl₁ hne hslash).1 hlook
    have hdget' := hd'.present hl₁
    obtain ⟨hget, hparent, -⟩ := (hl₁.childNamed_iff hdget').1 hchild
    obtain ⟨hmem, -⟩ := hl₁.childNamed_some hdget' hchild
    have hbelow := (hl₁.parentOf_iff hget).2 ⟨hdget', (hl₁.above_iff hdget').2 hmem⟩
    rw [hb.tree]
    rcases hl₁.run_remove hget hbelow hremove with ⟨e, -, he, -⟩ | ⟨-, -, -, hgone⟩
    · cases he
    · have hplace : d.id = d'.id := hparent
      rw [← hplace] at hgone
      exact hl.unaged hisNew hdget hl₁ hgone

end Machine

end SimUnix
