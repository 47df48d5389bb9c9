/-
No false alarm. Whatever is done without root's authority, and however users and groups are changed, their
files say what the tables say: an integrity check finds nothing, and safe mode is never entered.
-/
import SimUnix.Proofs.Machine.Factory
import SimUnix.Proofs.Machine.Identity
import SimUnix.Proofs.Machine.Uphold

namespace SimUnix

namespace Tree

variable {t t' : Tree} {root etc users groups d : Node} {name : Json} {U G : String}

/-- A path of two names leads to what lies in a directory below the root, but not through a file. -/
theorem Linked.lookup_inside (h : Linked t) {n : Node} {path dir name : String} (hpath : Path.components path = [dir, name])
    (hroot : t.root = .ok root) (hd : t.childNamed root dir = .ok (some d)) (hn : t.childNamed d name = .ok (some n)) :
    t.lookup path = .ok (if d.isDir then some n else none) := by
  obtain ⟨root', hroot', -, -, hdir⟩ := h.root_ok
  cases hroot.symm.trans hroot'
  unfold Tree.lookup
  rw [hroot, hpath]
  cases hkind : d.isDir <;> simp [descend, hdir, hd, hn, hkind]

theorem components_usersPath : Path.components Machine.usersPath = ["etc", "passwd"] := by decide +kernel

theorem components_groupsPath : Path.components Machine.groupsPath = ["etc", "group"] := by decide +kernel

/-- The paths of the files lead to them. -/
theorem Housed.lookup (hh : t.Housed root etc users groups) (h : Linked t) :
    t.lookup Machine.usersPath = .ok (some users) ∧ t.lookup Machine.groupsPath = .ok (some groups) := by
  rw [h.lookup_inside components_usersPath hh.start hh.etcIn hh.usersIn, h.lookup_inside components_groupsPath hh.start hh.etcIn hh.groupsIn,
    if_pos hh.etcDir, if_pos hh.etcDir]
  exact ⟨rfl, rfl⟩

/-- The supply of ids does not matter for what is found. -/
theorem childNamed_ids {ids : IdSupply} : Tree.childNamed { t with ids } d name = t.childNamed d name := by
  have hfirst : ∀ l, Tree.firstNamed { t with ids } name l = t.firstNamed name l := by
    intro l
    induction l with
    | nil => rfl
    | cons a l ih =>
      unfold Tree.firstNamed
      rw [ih]
      rfl
  exact hfirst _

theorem Publishes.ids {ids : IdSupply} (h : t.Publishes U G) : Publishes { t with ids } U G := by
  obtain ⟨root, etc, users, groups, hh, hU, hG⟩ := h
  exact ⟨root, etc, users, groups, ⟨hh.start, childNamed_ids.trans hh.etcIn, childNamed_ids.trans hh.usersIn,
    childNamed_ids.trans hh.groupsIn, hh.etcDir, hh.usersFile, hh.groupsFile, hh.barred⟩, hU, hG⟩

end Tree

namespace Machine

open Tree Act

variable {s s' : Machine} {user? source? : Option Json}

/-! ## The invariant -/

/-- The files of users and groups say what the tables say, and nothing that root has picked waits to be pasted. -/
structure Secure (s : Machine) : Prop where
  numbered : s.accounts.Numbered
  published : s.Published
  picked : ∀ i ∈ s.clipboard.items, i.user ≠ .str rootName

theorem lasting_secure : Lasting Secure where
  same h ht ha hc := by
    obtain ⟨hn, ⟨U, G, hU, hG, hp⟩, hpicked⟩ := h
    exact ⟨ha ▸ hn, ⟨U, G, ha ▸ hU, ha ▸ hG, ht ▸ hp⟩, hc ▸ hpicked⟩
  resumed {s s'} _ hr h hres := by
    obtain ⟨hn, ⟨U, G, hU, hG, hp⟩, hpicked⟩ := h
    obtain ⟨hsame, horder, -⟩ := hres.accounts
    have htree : s'.tree = { s.tree with ids := s'.tree.ids } := by
      have hroot := hres.rootId
      have hnodes := hres.nodes
      cases ht : s'.tree
      rw [ht] at hroot hnodes
      cases hroot
      cases hnodes
      rfl
    refine ⟨hn.same hsame, ⟨U, G, ?_, ?_, htree ▸ hp.ids⟩, hres.clipboard ▸ hpicked⟩
    · exact (hsame.usersText hr.accounts horder hn).trans hU
    · exact (hsame.groupsText hr.accounts horder hn).trans hG
  seeded {s s'} hs _ hrun := by
    refine ⟨(first_seed hrun).numbered, published_seed hs hrun, fun i hi => ?_⟩
    rw [show s' = _ from laidOut_seed hrun] at hi
    cases hi

/-- What has the right text is intact, if it is a file, and is found only in a directory. -/
theorem isIntact_inside (h : s.tree.Linked) {root d n : Node} {path dir name text : String}
    (hpath : Path.components path = [dir, name]) (hroot : s.tree.root = .ok root) (hd : s.tree.childNamed root dir = .ok (some d))
    (hn : s.tree.childNamed d name = .ok (some n)) (hcontent : n.content = .str text) :
    s.isIntact path (.ok text) = .ok (d.isDir && !n.isDir) := by
  unfold isIntact
  rw [h.lookup_inside hpath hroot hd hn]
  cases d.isDir <;> cases hkind : n.isDir <;> simp [bind, Except.bind, hkind, hcontent, Json.asOwnText]

/-- Published files pass the check. -/
theorem Secure.validate (h : s.Secure) (hs : s.Sound) : s.validate = .ok { valid := true } := by
  obtain ⟨-, ⟨U, G, hU, hG, root, etc, users, groups, hh, hcU, hcG⟩, -⟩ := h
  have husers := isIntact_inside hs.linked components_usersPath hh.start hh.etcIn hh.usersIn hcU
  have hgroups := isIntact_inside hs.linked components_groupsPath hh.start hh.etcIn hh.groupsIn hcG
  rw [hh.etcDir, hh.usersFile] at husers
  rw [hh.etcDir, hh.groupsFile] at hgroups
  unfold Machine.validate protectedFiles
  simp only [hU, hG, List.mapM_cons, List.mapM_nil, husers, hgroups]
  rfl

/-- A check finds nothing and changes nothing. -/
theorem Upheld.checkIntegrity (h : s.Upheld Secure) : checkIntegrity.run s = (.ok { valid := true }, s) := by
  unfold Machine.checkIntegrity
  rw [run_bind, run_get]
  dsimp only
  rw [h.quiet]
  simp only [Bool.false_eq_true, if_false]
  rw [run_bind, run_ofExcept, h.holds.validate h.sound]
  rfl

/-! ## The tables -/

/-- A change of the tables ends with writing the files. -/
theorem secure_table {c : TableCall} (hc : c.Proper) : Keeps (Upheld Secure) (c.operation user?).run := by
  refine upheld_table lasting_secure hc fun {s s' accounts t message} h hchange hfinish hsync => ?_
  have hframe : s' = { s with accounts := accounts.reindexed, tree := s'.tree } := onlyTree_syncFiles (.refl _) hsync
  obtain ⟨U, G, -, -, hp⟩ := h.holds.published
  have hset : Sound { s with accounts } := h.sound.same rfl rfl
  obtain ⟨hs, hp⟩ := TableCall.keeps_finish (I := fun s => s.Sound ∧ s.tree.Publishes U G) (fun _ => publishes_createHome) ⟨hset, hp⟩
    hfinish
  have hs₁ : Sound { s with accounts := accounts.reindexed, tree := t } := hs.same rfl rfl
  have hnumbered : accounts.Numbered := c.numbered h.regular.accounts h.holds.numbered hchange
  refine ⟨?_, published_sync hs₁ hp hsync, ?_⟩
  · rw [hframe]
    exact hnumbered.reindexed
  · rw [hframe]
    exact h.holds.picked

/-- The password of root is in no file. -/
theorem secure_setRootPassword {password : String} : Keeps (Upheld Secure) (setRootPassword password) := by
  intro s s' r h hrun
  have hr' : s'.Regular := (regular_setRootPassword h.regular.tidyWith hrun).regular
  have hrun := got hrun
  split at hrun
  · cases hrun
    refine h.changed (h.sound.same rfl rfl) hr' rfl rfl ?_ rfl
    obtain ⟨hn, ⟨U, G, hU, hG, hp⟩, hpicked⟩ := h.holds
    refine ⟨hn.updateUsers fun _ => ⟨rfl, rfl⟩, ⟨U, G, ?_, hG, hp⟩, hpicked⟩
    refine (Accounts.usersText_of_lines h.regular.accounts hr'.accounts hn fun k => ?_).trans hU
    show Option.Rel _ (s.accounts.users.get? k) ((s.accounts.users.update _ _).get? k)
    rw [Keyed.get?_update]
    split
    · exact rel_map (fun _ => ⟨rfl, rfl⟩) _
    · exact rel_refl (fun _ => ⟨rfl, rfl⟩) _
  · cases hrun
    exact h

/-! ## Files and the clipboard -/

/-- Calls that are made for others than root leave the files alone. -/
theorem secure_call {c : FileCall} {r : Except Fault Answer} (hc : (Operation.file c user? source?).Proper)
    (hu : s.actor user? ≠ rootName) (hl : s.actor (c.leaver? user? source?) ≠ rootName) (h : s.Upheld Secure)
    (hrun : (c.run user? source?).run s = (r, s')) : s'.Upheld Secure := by
  refine upheld_call lasting_secure hc hrun h fun {s₁} htrail => ?_
  obtain ⟨hn, ⟨U, G, hU, hG, hp⟩, hpicked⟩ := h.holds
  have hstill : s₁.tree.Publishes U G := publishes_trail h.sound hp hu hl htrail
  exact ⟨hn, ⟨U, G, hU, hG, hstill⟩, hpicked⟩

theorem secure_clearClipboard : Keeps (Upheld Secure) clearClipboard := by
  refine keeps_bind (keeps_modify fun s h => ?_) fun _ => (upheld_flush lasting_secure).keeps
  have hr : Regular { s with clipboard := {} } := (h.regular.tidyWith.withClipboard fun _ hi => by cases hi).regular
  exact h.changed (h.sound.same rfl rfl) hr rfl rfl ⟨h.holds.numbered, h.holds.published, fun _ hi => by cases hi⟩ rfl

/-- What is picked for others than root was not picked for root. -/
theorem secure_pick {nodes : List NodeId} {kind : PasteKind} {r : Except Fault Unit} (hn : ∀ a ∈ nodes, a.IsText)
    (harg : UserArg user?) (hu : s.actor user? ≠ rootName) (h : s.Upheld Secure)
    (hrun : (pick nodes kind user?).run s = (r, s')) : s'.Upheld Secure := by
  have hset : Upheld Secure { s with clipboard := { items := nodes.map fun node => { node, user := s.actor user? }, kind } } := by
    refine h.changed (h.sound.same rfl rfl) ?_ rfl rfl ⟨h.holds.numbered, h.holds.published, fun i hi => ?_⟩ rfl
    · refine (h.regular.tidyWith.withClipboard fun i hi => ?_).regular
      obtain ⟨a, ha, rfl⟩ := List.mem_map.1 hi
      exact ⟨hn a ha, h.regular.toTidy.actor harg⟩
    · obtain ⟨a, -, rfl⟩ := List.mem_map.1 hi
      exact hu
  have hrun := got hrun
  rw [run_bind, run_set] at hrun
  exact (upheld_flush lasting_secure).keeps hset hrun

/-- Whoever is named first acts, or else the one who is named second. -/
theorem actor_first (hsource : ∀ v ∈ source?, v ≠ .str rootName) (hu : s.actor user? ≠ rootName) :
    s.actor (firstName? source? user?) ≠ rootName := by
  unfold actor firstName? at *
  rcases hfirst : source?.filter Json.truthy with _ | v
  · rw [Option.none_or, Option.filter_filter]
    simpa using hu
  · obtain ⟨hv, htruthy⟩ := Option.filter_eq_some_iff.1 hfirst
    rw [Option.some_or, Option.filter_some_pos htruthy]
    exact hsource v hv

/-- Items are pasted one after the other; nobody logs in meanwhile. -/
theorem secure_pasteItems {kind : PasteKind} {dir : String} {who : Json} (harg : UserArg user?)
    (hu : ∀ s : Machine, s.currentUser = who → s.actor user? ≠ rootName) : ∀ {items : List ClipboardItem},
      (∀ i ∈ items, i.user ≠ .str rootName) →
        Keeps (fun s => s.Upheld Secure ∧ s.currentUser = who) (pasteItems kind dir user? items)
  | [], _ => keeps_pure _
  | i :: _, hi => by
    refine keeps_bind (fun s s' r ⟨h, hwho⟩ hrun => ?_) fun _ =>
      keeps_bind (secure_pasteItems harg hu fun i hin => hi i (List.mem_cons_of_mem _ hin)) fun _ => keeps_pure _
    have hsame := (trail_pasteItem h.sound.linked hrun).alike.currentUser
    refine ⟨?_, hsame.trans hwho⟩
    rcases run_pasteItem hrun with rfl | ⟨c, x, hc, hcall⟩
    · exact h
    · have hleaver : s.actor (firstName? (some i.user) user?) ≠ rootName := actor_first (fun v hv => by
        cases hv
        exact hi i (List.mem_cons_self ..)) (hu s hwho)
      rcases hc with rfl | rfl
      · exact secure_call (c := .moveById i.node dir) harg (hu s hwho) hleaver h hcall
      · exact secure_call (c := .copyById i.node dir none) harg (hu s hwho) hleaver h hcall

theorem secure_paste {dir : String} {r : Except Fault Nat} (harg : UserArg user?) (hu : s.actor user? ≠ rootName)
    (h : s.Upheld Secure) (hrun : (paste dir user?).run s = (r, s')) : s'.Upheld Secure := by
  have hwho : ∀ m : Machine, m.currentUser = s.currentUser → m.actor user? ≠ rootName := by
    intro m hm
    unfold actor at hu ⊢
    rw [hm]
    exact hu
  have hkeeps : Keeps (fun m => m.Upheld Secure ∧ m.currentUser = s.currentUser)
      (pasteItems s.clipboard.kind dir user? s.clipboard.items) := secure_pasteItems harg hwho h.holds.picked
  rcases of_run_bind (got hrun) with ⟨e, hitems, -⟩ | ⟨count, s₁, hitems, hrun⟩
  · exact (hkeeps ⟨h, rfl⟩ hitems).1
  · have hend : Keeps (Upheld Secure) (if s.clipboard.kind = .cut && count != 0 then clearClipboard >>= fun _ => pure count
        else pure count) := keeps_cond (fun _ => keeps_bind secure_clearClipboard fun _ => keeps_pure _) fun _ => keeps_pure _
    exact hend (hkeeps ⟨h, rfl⟩ hitems).1 hrun

/-! ## Applications -/

theorem secure_mayManageApps {action : String} : Keeps (Upheld Secure) (mayManageApps action user?) := by
  refine keeps_read fun s => keeps_bind (keeps_ofExcept _) fun found? => ?_
  split
  · exact keeps_bind (upheld_log lasting_secure).keeps fun _ => keeps_pure _
  · exact keeps_pure _

theorem secure_putAppFile {id : String} : Keeps (Upheld Secure) (putAppFile id) := by
  intro s s' r h hrun
  have hr : s'.Regular := (keeps_discard (tidy_putSystemFile ⟨_, rfl⟩) h.regular.tidyWith hrun).regular
  have hframe : s' = { s with tree := s'.tree } := keeps_discard onlyTree_putSystemFile (.refl s) hrun
  obtain ⟨hn, ⟨U, G, hU, hG, hp⟩, hpicked⟩ := h.holds
  obtain ⟨hs, hp⟩ := publishes_putAppFile ⟨h.sound, hp⟩ hrun
  refine h.changed hs hr ?_ ?_ ⟨?_, ⟨U, G, ?_, ?_, hp⟩, ?_⟩ ?_ <;> rw [hframe] <;> first | rfl | assumption

/-- The list of applications is not what the files are about. -/
theorem secure_apps {f : List Json → List Json}
    (hf : ∀ apps, (∀ id ∈ coreApps, Json.str id ∈ apps) → (∀ a ∈ apps, a.IsText) →
      (∀ id ∈ coreApps, Json.str id ∈ f apps) ∧ ∀ a ∈ f apps, a.IsText) :
    Keeps (Upheld Secure) (modify fun s => { s with apps := f s.apps }) := keeps_modify fun s h => by
  obtain ⟨hcore, htext⟩ := hf s.apps h.regular.core h.regular.apps
  exact h.changed (h.sound.same rfl rfl) (h.regular.tidyWith.withApps hcore htext).regular rfl rfl
    (lasting_secure.same h.holds rfl rfl rfl) rfl

theorem secure_installApp {id : String} : Keeps (Upheld Secure) (installApp id user?) := by
  refine keeps_read fun s => ?_
  split
  · exact keeps_pure _
  refine keeps_bind secure_mayManageApps fun may => ?_
  split
  · exact keeps_pure _
  refine keeps_bind (secure_apps fun apps hcore htext => ⟨fun id hid => List.mem_append_left _ (hcore id hid), fun a ha => ?_⟩) fun _ => ?_
  · rcases List.mem_append.1 ha with ha | ha
    · exact htext a ha
    · rw [List.mem_singleton.1 ha]
      exact ⟨_, rfl⟩
  · refine keeps_bind secure_putAppFile fun _ => keeps_read fun _ => keeps_bind (upheld_log lasting_secure).keeps fun _ => ?_
    exact keeps_bind (upheld_flush lasting_secure).keeps fun _ => keeps_pure _

/-- What is removed where applications lie does not matter. -/
theorem secure_removed {id : String} {n : Node} {t : Tree} {x : Except Fault Nat} (h : s.Upheld Secure)
    (hlook : s.tree.lookup (appsPath ++ "/" ++ id) = .ok (some n)) (hrun : (Tree.remove n s.now).run s.tree = (x, t)) :
    Upheld Secure { s with tree := t } := by
  obtain ⟨rest, hpath⟩ := components_app id
  obtain ⟨hn, -⟩ := h.sound.linked.lookup_found hlook
  obtain ⟨dir, hdir⟩ := h.sound.linked.lookup_below (hpath ▸ List.cons_ne_nil _ _) hlook
  rcases h.sound.linked.run_remove hn hdir hrun with ⟨e, -, -, rfl⟩ | ⟨nodes, -, -, hgone⟩
  · exact h
  obtain ⟨hnum, ⟨U, G, hU, hG, hp⟩, hpicked⟩ := h.holds
  have hstill : t.Publishes U G := publishes_removed h.sound hp hlook hdir hgone
  have hr : Regular { s with tree := t } := (h.regular.tidyWith.tree (h.regular.marked.remove h.regular.clock hrun)).regular
  exact h.changed (sound_removed h.sound hn hdir hgone) hr rfl rfl ⟨hnum, ⟨U, G, hU, hG, hstill⟩, hpicked⟩ rfl

theorem secure_uninstallApp {id : String} : Keeps (Upheld Secure) (uninstallApp id user?) := by
  refine keeps_read fun s => ?_
  split
  · exact keeps_pure _
  rename_i hid
  simp only [Bool.or_eq_true, not_or, Bool.not_eq_true, List.contains_eq_mem, decide_eq_false_iff_not] at hid
  refine keeps_bind secure_mayManageApps fun may => ?_
  split
  · exact keeps_pure _
  have hend : Keeps (Upheld Secure) (do
      Act.log .info "system" s!"uninstalled {id}" ((← get).actor user?)
      Act.flush
      pure true) :=
    keeps_read fun _ => keeps_bind (upheld_log lasting_secure).keeps fun _ =>
      keeps_bind (upheld_flush lasting_secure).keeps fun _ => keeps_pure _
  refine keeps_bind (secure_apps fun apps hcore htext => ⟨fun core hin => ?_, fun a ha => htext a (List.mem_of_mem_erase ha)⟩)
    fun _ => keeps_get fun s s' r h hrun => ?_
  · refine (List.mem_erase_of_ne fun he => hid.1 ?_).2 (hcore core hin)
    cases he
    exact hin
  rcases asked hrun with ⟨e, -, -, rfl⟩ | ⟨n?, hlook, hrun⟩
  · exact h
  cases n? with
  | none => exact hend h hrun
  | some n =>
    simp only at hrun
    rw [run_bind, run_discard, run_edit] at hrun
    rcases hrem : (Tree.remove n s.now).run s.tree with ⟨x, t⟩
    have h₁ : Upheld Secure { s with tree := t } := secure_removed h hlook hrem
    rw [hrem] at hrun
    cases x with
    | error e =>
      cases hrun
      exact h₁
    | ok count => exact hend h₁ hrun

/-! ## Runs -/

/-- What is done without root's authority, and what the system is asked for as a whole: whoever acts in an
operation on files is not root, and neither is the one by whose permission a node leaves its place; whoever
picks or pastes is not root. Users and groups may be changed, and applications installed and removed, by
everyone. -/
def Operation.Unprivileged (s : Machine) : Operation → Prop
  | file c user? source? =>
    (file c user? source?).Proper ∧ s.actor user? ≠ rootName ∧ s.actor (c.leaver? user? source?) ≠ rootName
  | pick nodes kind source? => (pick nodes kind source?).Proper ∧ s.actor source? ≠ rootName
  | paste dir user? => (paste dir user?).Proper ∧ s.actor user? ≠ rootName
  | addUser new _ => new.passwordHint.IsText
  | updateUser _ _ _ | deleteUser _ _ | addGroup _ _ _ | addToGroup _ _ _ | removeFromGroup _ _ _ | deleteGroup _ _
  | setRootPassword _ => True
  | clearClipboard | login _ _ | logout | installApp _ _ | uninstallApp _ _ | checkIntegrity => True
  | flush | boot | shutdown | reset => True
  | clock now => now.Proper
  | _ => False

theorem Operation.Unprivileged.secure {op : Operation} {r : Except Fault Unit} (h : s.Upheld Secure) (hop : op.Unprivileged s)
    (hrun : op.run.run s = (r, s')) : s'.Upheld Secure := by
  cases op
  case file c user? source? =>
    obtain ⟨x, hx⟩ := run_map_of hrun
    exact secure_call hop.1 hop.2.1 hop.2.2 h hx
  case pick nodes kind source? => exact secure_pick hop.1.1 hop.1.2 hop.2 h hrun
  case paste dir user? =>
    obtain ⟨x, hx⟩ := run_map_of hrun
    exact secure_paste hop.1 hop.2 h hx
  case clearClipboard => exact secure_clearClipboard h hrun
  case login user password => exact keeps_discard (upheld_login lasting_secure) h hrun
  case logout => exact upheld_logout lasting_secure h hrun
  case addUser new _ => exact secure_table (c := .addUser new) hop h hrun
  case updateUser name c _ => exact secure_table (c := .updateUser name c) trivial h hrun
  case deleteUser name _ => exact secure_table (c := .deleteUser name) trivial h hrun
  case addGroup name members _ => exact secure_table (c := .addGroup name members) trivial h hrun
  case addToGroup user group _ => exact secure_table (c := .addToGroup user group) trivial h hrun
  case removeFromGroup user group _ => exact secure_table (c := .removeFromGroup user group) trivial h hrun
  case deleteGroup name _ => exact secure_table (c := .deleteGroup name) trivial h hrun
  case setRootPassword password => exact secure_setRootPassword h hrun
  case installApp id user? => exact keeps_discard secure_installApp h hrun
  case uninstallApp id user? => exact keeps_discard secure_uninstallApp h hrun
  case checkIntegrity =>
    obtain ⟨x, hx⟩ := run_map_of hrun
    cases h.checkIntegrity.symm.trans hx
    exact h
  case flush => exact (upheld_flush lasting_secure).keeps h hrun
  case boot => exact keeps_boot lasting_secure h hrun
  case shutdown => exact keeps_shutdown lasting_secure h hrun
  case reset => exact keeps_reset lasting_secure h hrun
  case clock now =>
    cases hrun
    exact h.atTime lasting_secure hop
  all_goals exact hop.elim

/-- The files of users and groups are as the tables have them, and a check finds nothing. -/
structure Unalarmed (s : Machine) : Prop where
  users : ∃ text n, s.accounts.usersText = .ok text ∧ s.tree.lookup usersPath = .ok (some n) ∧ n.isDir = false ∧ n.content = .str text
  groups : ∃ text n, s.accounts.groupsText = .ok text ∧ s.tree.lookup groupsPath = .ok (some n) ∧ n.isDir = false ∧ n.content = .str text
  valid : s.validate = .ok { valid := true }
  check : checkIntegrity.run s = (.ok { valid := true }, s)
  calm : s.safeMode = false

theorem Upheld.unalarmed (h : s.Upheld Secure) : s.Unalarmed := by
  obtain ⟨-, ⟨U, G, hU, hG, root, etc, users, groups, hh, hcU, hcG⟩, -⟩ := h.holds
  obtain ⟨husers, hgroups⟩ := hh.lookup h.sound.linked
  exact ⟨⟨U, users, hU, husers, hh.usersFile, hcU⟩, ⟨G, groups, hG, hgroups, hh.groupsFile, hcG⟩, h.holds.validate h.sound,
    h.checkIntegrity, h.free⟩

/-- Nothing that is done without root's authority leads to a false alarm. -/
theorem runs_unalarmed (h : Runs (fun s op => op.Unprivileged s) s) : s.Unalarmed :=
  (h.upheld lasting_secure fun hup hop hrun => hop.secure hup hrun).unalarmed

/-- The first user tries to take the file of users away, a new user is added, and the system is restarted. -/
theorem runs_unalarmed_restarted :
    (Operation.boot.after ((Operation.addUser { name := "alice" } (some "root")).after
      ((Operation.file (.moveNode "/etc/passwd" "/home/user") (some "user") none).after fresh)).anew).Unalarmed := by
  have huser : fresh.actor (some (.str "user")) ≠ .str rootName := by
    rw [actor_named (by decide)]
    decide
  have hleaver : fresh.actor (FileCall.leaver? (some (.str "user")) none (.moveNode "/etc/passwd" "/home/user")) ≠ .str rootName := by
    rw [leaver_named (by decide), actor_named (by decide)]
    decide
  have hmove : Operation.Unprivileged fresh (.file (.moveNode "/etc/passwd" "/home/user") (some "user") none) :=
    ⟨userArg_some _, huser, hleaver⟩
  have hadd : ∀ s, Operation.Unprivileged s (.addUser { name := "alice" } (some "root")) := fun _ => ⟨"", rfl⟩
  exact runs_unalarmed (((Runs.fresh.perform hmove).perform (hadd _)).again)

end Machine

end SimUnix
