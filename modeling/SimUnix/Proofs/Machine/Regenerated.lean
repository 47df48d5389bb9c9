/-
Regeneration of the files of users and groups. A change of the tables that is made writes both files, whatever has
become of them. Afterwards they are found and say what the tables say, unless a file was in the place of their
directory before, or a directory in one of theirs: what is found under a name is never replaced.
-/
import SimUnix.Proofs.Machine.Secure
import SimUnix.Proofs.Machine.Story
import SimUnix.Proofs.Machine.Written
import SimUnix.Proofs.Tree.Path

namespace SimUnix

namespace Tree

variable {t t' : Tree} {root etc users groups : Node} {edited : NodeId → Prop}

/-- The names of the files of users and groups. -/
def tableFiles : List String := ["passwd", "group"]

/-- Nothing is in the way of the files of users and groups: what has the name of their directory is a directory, and what has one
of theirs is a file. -/
structure Clear (t : Tree) : Prop where
  directory : ∀ {root n}, t.root = .ok root → t.Reaches root ["etc"] n → n.isDir = true
  file : ∀ {root n name}, name ∈ tableFiles → t.root = .ok root → t.Reaches root ["etc", name] n → n.isDir = false

/-- Whether the way is clear can be seen from what lies on it. -/
theorem clear_iff (hroot : t.root = .ok root) (hetc : t.childNamed root "etc" = .ok (some etc))
    (husers : t.childNamed etc "passwd" = .ok (some users)) (hgroups : t.childNamed etc "group" = .ok (some groups)) :
    t.Clear ↔ etc.isDir = true ∧ users.isDir = false ∧ groups.isDir = false := by
  constructor
  · intro h
    have hu : "passwd" ∈ tableFiles := by simp [tableFiles]
    have hg : "group" ∈ tableFiles := by simp [tableFiles]
    exact ⟨h.directory hroot ⟨etc, hetc, rfl⟩, h.file hu hroot ⟨etc, hetc, users, husers, rfl⟩, h.file hg hroot ⟨etc, hetc, groups, hgroups, rfl⟩⟩
  · rintro ⟨hdir, hu, hg⟩
    constructor
    · intro root' n hroot' hr
      cases hroot.symm.trans hroot'
      cases hr.unique ⟨etc, hetc, rfl⟩
      exact hdir
    · intro root' n name hname hroot' hr
      cases hroot.symm.trans hroot'
      simp only [tableFiles, List.mem_cons, List.not_mem_nil, or_false] at hname
      rcases hname with rfl | rfl
      · cases hr.unique ⟨etc, hetc, users, husers, rfl⟩
        exact hu
      · cases hr.unique ⟨etc, hetc, groups, hgroups, rfl⟩
        exact hg

/-- If the way is clear where all nodes still stand, it was clear before. -/
theorem Clear.earlier (hc : t'.Clear) (h : Linked t) (h' : Linked t') (hs : Spares edited t t') : t.Clear := by
  have hback : ∀ {root : Node} {names : List String} {n : Node}, t.root = .ok root → t.Reaches root names n →
      ∃ root' n', t'.root = .ok root' ∧ t'.Reaches root' names n' ∧ n'.isDir = n.isDir := by
    intro root names n hroot hr
    have hself := h.root_self hroot
    obtain ⟨root', hroot', -⟩ := hs.node (node_ok.1 hroot)
    have hself' : t'.get? root.id = some root' := by rw [h.id_eq (node_ok.1 hroot), hroot']
    obtain ⟨n', hn', hr'⟩ := hs.reaches h h' hself hself' hr
    obtain ⟨x, hx, hstand, -⟩ := hs.node (h.reaches_found hself hr).1
    cases hn'.symm.trans hx
    exact ⟨root', n', node_ok.2 (hs.rootId.symm ▸ hroot'), hr', standing_isDir hstand⟩
  constructor
  · intro root n hroot hr
    obtain ⟨root', n', hroot', hr', hkind⟩ := hback hroot hr
    exact hkind.symm.trans (hc.directory hroot' hr')
  · intro root n name hname hroot hr
    obtain ⟨root', n', hroot', hr', hkind⟩ := hback hroot hr
    exact hkind.symm.trans (hc.file hname hroot' hr')

/-- A new node that is not in the way of the files. -/
structure KeepsClear (dir n : Node) : Prop where
  directory : n.name = .str "etc" → n.isDir = true
  file : ∀ name ∈ tableFiles, n.name = .str name → dir.name = .str "etc" → n.isDir = false

theorem welcomes_clear : Welcomes KeepsClear Clear := by
  intro t n dir p now h h' hc hn hd hfit
  obtain ⟨root, hroot, hself, hid, -⟩ := h.root_ok
  have hold : ∀ {names : List String} {root' k' : Node}, Tree.root (t.takeId.2.add n p now) = .ok root' →
      (t.takeId.2.add n p now).Reaches root' names k' → (∃ k, k'.standing = k.standing ∧ t.Reaches root names k) ∨
        ∃ front last, names = front ++ [last] ∧ k' = { n with parent := p } ∧ n.name = .str last ∧ t.Reaches root front dir :=
    fun hroot' hr => reaches_add h h' hn hd hself (hid ▸ node_ok.1 hroot') hr
  constructor
  · intro root' k' hroot' hr
    rcases hold hroot' hr with ⟨k, hs, hk⟩ | ⟨front, last, hnames, rfl, hname, -⟩
    · exact (standing_isDir hs).trans (hc.directory hroot hk)
    · have hsplit : [] ++ ["etc"] = front ++ [last] := hnames
      obtain ⟨-, hlast⟩ := List.append_inj' hsplit rfl
      cases hlast
      exact hfit.directory hname
  · intro root' k' name hfile hroot' hr
    rcases hold hroot' hr with ⟨k, hs, hk⟩ | ⟨front, last, hnames, rfl, hname, hdir⟩
    · exact (standing_isDir hs).trans (hc.file hfile hroot hk)
    · have hsplit : ["etc"] ++ [name] = front ++ [last] := hnames
      obtain ⟨rfl, hlast⟩ := List.append_inj' hsplit rfl
      cases hlast
      obtain ⟨c, hchild, rfl⟩ := hdir
      exact hfit.file name hfile hname ((h.childNamed_iff hself).1 hchild).2.2

theorem overlooks_clear : Overlooks Clear := by
  intro t id f h h' hf hc
  have hback : Spares (· = id) (t.update id f) t := by
    refine ⟨rfl, fun {a n} hn => ?_⟩
    rw [get?_update] at hn
    split at hn
    · rename_i he
      obtain ⟨m, hm, rfl⟩ := Option.map_eq_some_iff.1 hn
      exact ⟨m, hm, (hf m).symm, fun hne => absurd he hne⟩
    · exact ⟨n, hn, rfl, fun _ => rfl⟩
  exact hc.earlier h' h hback

end Tree

namespace Machine

open Tree Act

variable {s s' : Machine} {user? : Option Json} {u : User}

/-! ## The work of the system -/

/-- A directory is in the way only under the name of a file. -/
theorem keepsClear_directory {name : String} {owner group permissions : Json} (hname : name ∉ tableFiles) :
    NewNode.Suits KeepsClear { name, kind := .directory, owner, group, permissions } :=
  fun _ _ => ⟨fun _ => rfl, fun _ hfile he => absurd (Json.str.inj he ▸ hfile) hname⟩

theorem clear_putTable {name content : String} (hname : name ∈ tableFiles) :
    Keeps (Grounded Clear) (putSystemFile "/etc" name content filePermissions) := by
  have hetc : ∀ part ∈ Path.nonEmptyComponents "/etc", part ∉ tableFiles := by decide +kernel
  have hother : "etc" ∉ tableFiles := by decide
  refine grounded_putSystemFile welcomes_clear overlooks_clear (fun part hpart => keepsClear_directory (hetc part hpart)) fun _ _ => ?_
  exact ⟨fun he => absurd (Json.str.inj he ▸ hname) hother, fun _ _ _ _ => rfl⟩

theorem clear_syncFiles : Keeps (Grounded Clear) syncFiles :=
  keeps_bind (keeps_ask _) fun _ => keeps_bind (keeps_discard (clear_putTable (by simp [tableFiles]))) fun _ =>
    keeps_bind (keeps_ask _) fun _ => keeps_discard (clear_putTable (by simp [tableFiles]))

/-- The home of a user lies in a directory of homes, except for that of root. -/
theorem split_homeFor {name : String} (hname : Path.validName name = true) :
    ∃ parent, Path.split (homeFor name) = (parent, name) ∧
      (Path.nonEmptyComponents (parentOrRoot parent) = ["home"] ∨ name = rootName ∧ Path.nonEmptyComponents (parentOrRoot parent) = []) := by
  by_cases hroot : name = rootName
  · subst hroot
    exact ⟨"/", by decide +kernel, .inr ⟨rfl, by decide +kernel⟩⟩
  · have hvalid : Path.Valid (["home"] ++ [name]) := by
      rintro part hpart
      simp only [List.mem_append, List.mem_singleton] at hpart
      rcases hpart with rfl | rfl
      · decide +kernel
      · exact hname
    have hhome : homeFor name = Path.ofComponents (["home"] ++ [name]) := by
      unfold homeFor
      rw [if_neg hroot, Path.ofComponents_snoc (List.cons_ne_nil _ _)]
      rfl
    refine ⟨"/home", ?_, .inl (by decide +kernel)⟩
    rw [hhome, Path.split_ofComponents hvalid]
    rfl

/-- The home of a new user, who may well be called as one of the files, is not where they are. -/
theorem clear_createHome (hu : u.Homely) : Keeps (Grounded Clear) (createHome u) := by
  obtain ⟨name, hname, hhome⟩ := hu
  obtain ⟨parent, hsplit, hparent⟩ := split_homeFor hname
  have hparts : ∀ part ∈ Path.nonEmptyComponents (parentOrRoot parent), part ∉ tableFiles := by
    rcases hparent with hp | ⟨-, hp⟩ <;> rw [hp] <;> decide
  have hfolders : ∀ name ∈ homeFolders, name ∉ tableFiles := by decide +kernel
  have hplain : ∀ {name : String} {owner group permissions : Json},
      NewNode.Plain { name, kind := .directory, owner, group, permissions } := ⟨⟨_, rfl⟩, ⟨_, rfl⟩⟩
  refine keeps_read fun s => ?_
  rw [hhome]
  dsimp only [Json.asOwnText, Act.ofExcept]
  rw [pure_bind, hsplit]
  have hparents : Keeps (Grounded Clear) (ensureDirectory (parentOrRoot parent) {}) :=
    grounded_ensureDirectory welcomes_clear fun part hpart => keepsClear_directory (hparts part hpart)
  intro s₀ s' r h hrun
  rcases of_run_bind hrun with ⟨e, hfirst, -⟩ | ⟨id, s₁, hfirst, hrun⟩
  · exact hparents h hfirst
  have h₁ : s₁.Grounded Clear := hparents h hfirst
  have hfit : ∀ {owner group permissions : Json} dir, s₁.tree.get? id = some dir →
      KeepsClear dir (NewNode.build { name, kind := .directory, owner, group, permissions } s₁) := by
    refine fun dir hdir => ⟨fun _ => rfl, fun file hfile he hetc => ?_⟩
    cases Json.str.inj he
    rcases hparent with hp | ⟨rfl, -⟩
    · obtain ⟨root, dir', hroot, hdir', hreach⟩ := found_ensureDirectory h.1 hfirst
      cases hdir.symm.trans hdir'
      rw [hp] at hreach
      obtain ⟨c, hc, rfl⟩ := hreach
      obtain ⟨-, -, hname⟩ := (h₁.1.linked.childNamed_iff (h₁.1.linked.root_self hroot)).1 hc
      exact absurd (hname.symm.trans hetc) (by decide)
    · exact absurd hfile (by decide)
  rcases of_run_bind hrun with ⟨e, hsecond, -⟩ | ⟨home, s₂, hsecond, hrun⟩
  · exact grounded_childOrNew welcomes_clear hplain h₁ hfit hsecond
  have h₂ := grounded_childOrNew welcomes_clear hplain h₁ hfit hsecond
  have hfolder : ∀ {folder : String} {owner group permissions : Json}, folder ∈ homeFolders → Keeps (Grounded Clear)
      (childOrNew home { name := .str folder, kind := .directory, owner, group, permissions }) := fun hf _ _ _ h hrun =>
    grounded_childOrNew welcomes_clear hplain h (fun dir _ => keepsClear_directory (hfolders _ hf) dir _) hrun
  exact keeps_bind (keeps_for fun folder hf => keeps_discard (hfolder hf)) (fun _ => keeps_pure _) h₂ hrun

/-! ## Changes of the tables -/

/-- Making the home of a new user and writing the files does not clear the way, nor block it. -/
theorem TableCall.clear_sync {c : TableCall} {accounts : Accounts} {t : Tree} {message : String} {s₁ : Machine} (hs : s.Sound)
    (hchange : c.change s.accounts = .ok (some accounts))
    (hfinish : c.finish.run { s with accounts } = (.ok message, { s with accounts, tree := t }))
    (hsync : syncFiles.run { s with accounts := accounts.reindexed, tree := t } = (.ok ⟨⟩, s₁)) :
    s₁.Sound ∧ (s.tree.Clear ↔ s₁.tree.Clear) := by
  have hset : Sound { s with accounts } := hs.same rfl rfl
  have hmade : Sound { s with accounts := accounts.reindexed, tree := t } := (c.sound_finish hset hfinish).same rfl rfl
  have hdone : s₁.Sound := sound_syncFiles hmade hsync
  refine ⟨hdone, fun hc => ?_, fun hc => ?_⟩
  · have ht : t.Clear := by
      rcases TableCall.finish_cases hfinish with hsame | ⟨new, u, x, rfl, hu, hhome⟩
      · exact (show t = s.tree from congrArg Machine.tree hsame) ▸ hc
      · exact (clear_createHome (TableCall.homely_finish hchange hu) ⟨hset, hc⟩ hhome).2
    exact (clear_syncFiles ⟨hmade, ht⟩ hsync).2
  · obtain ⟨hspares, -⟩ := found_syncFiles hmade hsync
    have hfirst : Spares (fun _ => True) s.tree t :=
      (TableCall.keeps_finish (I := Sparing (fun _ => True) s.tree) (fun _ => sparing_createHome) ⟨hset, .refl⟩ hfinish).2
    exact hc.earlier hs.linked hdone.linked (hfirst.trans hspares)

/-- A path leads to a file with some text. -/
def Tells (s : Machine) (path text : String) : Prop :=
  ∃ n, s.tree.lookup path = .ok (some n) ∧ n.isDir = false ∧ n.content = .str text

theorem tells_inside (h : s.tree.Linked) {root d n : Node} {path dir name text : String}
    (hpath : Path.components path = [dir, name]) (hroot : s.tree.root = .ok root) (hd : s.tree.childNamed root dir = .ok (some d))
    (hn : s.tree.childNamed d name = .ok (some n)) (hcontent : n.content = .str text) :
    s.Tells path text ↔ d.isDir = true ∧ n.isDir = false := by
  unfold Tells
  rw [h.lookup_inside hpath hroot hd hn]
  constructor
  · rintro ⟨m, hm, hfile, -⟩
    split at hm
    · cases hm
      exact ⟨‹_›, hfile⟩
    · cases hm
  · rintro ⟨hdir, hfile⟩
    rw [if_pos hdir]
    exact ⟨n, rfl, hfile, hcontent⟩

/-- A check finds the system valid if both files are intact. -/
theorem validate_of_intact {U G : String} {b c : Bool} (hU : s.accounts.usersText = .ok U) (hG : s.accounts.groupsText = .ok G)
    (husers : s.isIntact usersPath (.ok U) = .ok b) (hgroups : s.isIntact groupsPath (.ok G) = .ok c) :
    ∃ report, s.validate = .ok report ∧ (report.valid = true ↔ b = true ∧ c = true) := by
  unfold Machine.validate protectedFiles
  simp only [hU, hG, List.mapM_cons, List.mapM_nil, husers, hgroups]
  cases b <;> cases c <;> exact ⟨_, rfl, by simp⟩

/-- A change of the tables that has been made has regenerated the files, so that a check finds nothing, if and only if the way to
them was clear. What had become of the files does not matter. -/
theorem TableCall.regenerated {c : TableCall} (hc : c.Proper) (hs : s.Sound) (hr : s.Regular)
    (hrun : (c.request user?).run s = (.ok true, s')) :
    ∃ U G report, s'.accounts.usersText = .ok U ∧ s'.accounts.groupsText = .ok G ∧ s'.validate = .ok report ∧
      (s.tree.Clear ↔ s'.Tells usersPath U ∧ s'.Tells groupsPath G) ∧ (s.tree.Clear ↔ report.valid = true) := by
  rcases c.request_saved hc hs hr hrun with ⟨-, hno⟩ | ⟨-, accounts, t, message, s₁, hchange, hfinish, hsync, hframe, hsaved⟩
  · exact absurd rfl hno
  have hset : Sound { s with accounts } := hs.same rfl rfl
  have hmade : Sound { s with accounts := accounts.reindexed, tree := t } := (c.sound_finish hset hfinish).same rfl rfl
  obtain ⟨h₁, hclear⟩ := TableCall.clear_sync hs hchange hfinish hsync
  obtain ⟨-, U, G, hU, hG, root, etc, users, groups, hroot, hetc, husers, hgroups, hcU, hcG⟩ := found_syncFiles hmade hsync
  have htree : s₁.tree = s'.tree := by rw [hsaved.same]
  have haccounts : s'.accounts = accounts.reindexed := by rw [hsaved.same, hframe]
  rw [htree] at hclear hroot hetc husers hgroups
  have hl : s'.tree.Linked := htree ▸ h₁.linked
  have hU : s'.accounts.usersText = .ok U := haccounts ▸ hU
  have hG : s'.accounts.groupsText = .ok G := haccounts ▸ hG
  have hway := clear_iff hroot hetc husers hgroups
  obtain ⟨report, hvalidate, hvalid⟩ := validate_of_intact hU hG (isIntact_inside hl components_usersPath hroot hetc husers hcU)
    (isIntact_inside hl components_groupsPath hroot hetc hgroups hcG)
  refine ⟨U, G, report, hU, hG, hvalidate, ?_, ?_⟩
  · rw [hclear, hway, tells_inside hl components_usersPath hroot hetc husers hcU,
      tells_inside hl components_groupsPath hroot hetc hgroups hcG]
    tauto
  · rw [hclear, hway, hvalid]
    simp only [Bool.and_eq_true, Bool.not_eq_true']
    tauto

end Machine

end SimUnix
