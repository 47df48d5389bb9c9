/-
The operations leave a regular state: one that the records can hold. Changes of users and groups bring
everything up to date that depends on them, and a reset begins again with the tables that every system
begins with.
-/
import SimUnix.Proofs.Machine.Tables

namespace SimUnix

namespace Machine

open Tree Act

variable {P : Accounts → Prop} {s s' : Machine} {user? : Option Json}

/-! ## Sessions, clipboards, safe mode -/

theorem TidyWith.withUser (h : s.TidyWith P) {name? : Option String} : TidyWith P { s with currentUser := Json.text? name? } := by
  refine ⟨⟨h.1.marked, h.1.accounts, ?_, h.1.clipboard, h.1.core, h.1.apps, h.1.failures, h.1.diagnostic, h.1.clock⟩, h.2⟩
  cases name? with
  | none => exact .inl rfl
  | some name => exact .inr ⟨name, rfl⟩

theorem tidy_setSessionUser {name? : Option String} : Keeps (TidyWith P) (setSessionUser name?) :=
  keeps_bind (keeps_modify fun _ h => h.withUser) fun _ => tidy_flush

theorem tidy_login {user password : String} : Keeps (TidyWith P) (login user password) := by
  refine keeps_read fun s => ?_
  split
  · exact keeps_bind tidy_setSessionUser fun _ => keeps_bind tidy_log fun _ => keeps_pure _
  · exact keeps_bind tidy_log fun _ => keeps_pure _

theorem tidy_logout : Keeps (TidyWith P) logout := by
  refine keeps_read fun s => keeps_bind tidy_setSessionUser fun _ => ?_
  split
  · exact keeps_pure _
  · exact tidy_log

theorem TidyWith.withClipboard (h : s.TidyWith P) {c : Clipboard} (hc : c.Plain) : TidyWith P { s with clipboard := c } :=
  ⟨⟨h.1.marked, h.1.accounts, h.1.user, hc, h.1.core, h.1.apps, h.1.failures, h.1.diagnostic, h.1.clock⟩, h.2⟩

theorem tidy_clearClipboard : Keeps (TidyWith P) clearClipboard :=
  keeps_bind (keeps_modify fun _ h => h.withClipboard fun _ hi => by cases hi) fun _ => tidy_flush

/-- What is picked are nodes, by their ids, on behalf of a user. -/
theorem tidy_pick {nodes : List NodeId} {kind : PasteKind} (hn : ∀ a ∈ nodes, a.IsText) (hu : UserArg user?) :
    Keeps (TidyWith P) (pick nodes kind user?) := by
  refine keeps_get fun s s' r h hrun => ?_
  rw [run_bind, run_set] at hrun
  refine tidy_flush (h.withClipboard fun i hi => ?_) hrun
  obtain ⟨a, ha, rfl⟩ := List.mem_map.1 hi
  exact ⟨hn a ha, h.1.actor hu⟩

theorem tidy_pasteItem {kind : PasteKind} {dir : String} (hu : UserArg user?) {i : ClipboardItem} :
    Keeps (TidyWith P) (pasteItem kind dir user? i) := by
  unfold pasteItem
  split
  · exact keeps_throw _
  · cases kind with
    | cut => exact tidy_moveById
    | copy => exact tidy_copyById hu

theorem tidy_pasteItems {kind : PasteKind} {dir : String} (hu : UserArg user?) : ∀ {items : List ClipboardItem},
    Keeps (TidyWith P) (pasteItems kind dir user? items)
  | [] => keeps_pure _
  | _ :: _ => keeps_bind (tidy_pasteItem hu) fun _ => keeps_bind (tidy_pasteItems hu) fun _ => keeps_pure _

theorem tidy_paste {dir : String} (hu : UserArg user?) : Keeps (TidyWith P) (paste dir user?) := by
  refine keeps_read fun s => keeps_bind (tidy_pasteItems hu) fun count => ?_
  split
  · exact keeps_bind tidy_clearClipboard fun _ => keeps_pure _
  · exact keeps_pure _

theorem tidy_enterSafeMode {report : IntegrityReport} (hr : ∀ f ∈ report.failures, f.IsText) :
    Keeps (TidyWith P) (enterSafeMode report) := by
  refine keeps_bind (keeps_modify fun s h => ?_) fun _ => tidy_flush
  refine ⟨⟨h.1.marked, h.1.accounts, h.1.user, h.1.clipboard, h.1.core, h.1.apps, hr, fun d hd => ?_, h.1.clock⟩, h.2⟩
  obtain ⟨line, -, rfl⟩ := List.mem_map.1 hd
  exact ⟨line, rfl⟩

theorem validate_texts {report : IntegrityReport} (h : s.validate = .ok report) : ∀ f ∈ report.failures, f.IsText := by
  obtain ⟨checked, -, h⟩ := bind_ok.1 h
  cases h
  intro f hf
  obtain ⟨c, -, rfl⟩ := List.mem_map.1 hf
  exact ⟨_, rfl⟩

theorem tidy_checkIntegrity : Keeps (TidyWith P) checkIntegrity := by
  refine keeps_get fun s s' r h hrun => ?_
  split at hrun
  · cases hrun
    exact h
  rcases asked hrun with ⟨e, -, -, rfl⟩ | ⟨report, hreport, hrun⟩
  · exact h
  split at hrun
  · refine keeps_bind (keeps_modify fun s h => ?_) (fun _ => keeps_bind (tidy_enterSafeMode (validate_texts hreport)) fun _ =>
      keeps_bind (keeps_for fun _ _ => tidy_log) fun _ => keeps_pure _) h hrun
    exact ⟨⟨h.1.marked, h.1.accounts, h.1.user, h.1.clipboard, h.1.core, h.1.apps, h.1.failures, h.1.diagnostic, h.1.clock⟩, h.2⟩
  · cases hrun
    exact h

/-! ## Applications -/

theorem tidy_mayManageApps {action : String} : Keeps (TidyWith P) (mayManageApps action user?) := by
  refine keeps_read fun s => keeps_bind (keeps_ofExcept _) fun found? => ?_
  split
  · exact keeps_bind tidy_log fun _ => keeps_pure _
  · exact keeps_pure _

theorem TidyWith.withApps (h : s.TidyWith P) {apps : List Json} (hcore : ∀ id ∈ coreApps, Json.str id ∈ apps)
    (ha : ∀ a ∈ apps, a.IsText) : TidyWith P { s with apps } :=
  ⟨⟨h.1.marked, h.1.accounts, h.1.user, h.1.clipboard, hcore, ha, h.1.failures, h.1.diagnostic, h.1.clock⟩, h.2⟩

theorem tidy_installApp {id : String} : Keeps (TidyWith P) (installApp id user?) := by
  refine keeps_read fun s => ?_
  split
  · exact keeps_pure _
  refine keeps_bind tidy_mayManageApps fun may => ?_
  split
  · exact keeps_pure _
  refine keeps_bind (keeps_modify fun s h => h.withApps (fun id hid => List.mem_append_left _ (h.1.core id hid)) fun a ha => ?_)
    fun _ => keeps_bind (keeps_discard (tidy_putSystemFile ⟨_, rfl⟩)) fun _ => ?_
  · rcases List.mem_append.1 ha with ha | ha
    · exact h.1.apps a ha
    · rw [List.mem_singleton.1 ha]
      exact ⟨_, rfl⟩
  · exact keeps_read fun _ => keeps_bind tidy_log fun _ => keeps_bind tidy_flush fun _ => keeps_pure _

/-- The applications that every system has are never removed. -/
theorem tidy_uninstallApp {id : String} : Keeps (TidyWith P) (uninstallApp id user?) := by
  refine keeps_read fun s => ?_
  split
  · exact keeps_pure _
  rename_i hid
  simp only [Bool.or_eq_true, not_or, Bool.not_eq_true, List.contains_eq_mem, decide_eq_false_iff_not] at hid
  refine keeps_bind tidy_mayManageApps fun may => ?_
  split
  · exact keeps_pure _
  refine keeps_bind (keeps_modify fun s h => h.withApps (fun core hcore => ?_) fun a ha => h.1.apps a (List.mem_of_mem_erase ha))
    fun _ => keeps_get fun s s' r h hrun => ?_
  · refine (List.mem_erase_of_ne fun he => hid.1 ?_).2 (h.1.core core hcore)
    cases he
    exact hcore
  · have hnow := h.1.clock
    have hend : Keeps (TidyWith P) (do
        Act.log .info "system" s!"uninstalled {id}" ((← get).actor user?)
        Act.flush
        pure true) :=
      keeps_read fun _ => keeps_bind tidy_log fun _ => keeps_bind tidy_flush fun _ => keeps_pure _
    refine keeps_bind (keeps_ofExcept _) (fun n? => ?_) h hrun
    split
    · exact keeps_bind (keeps_discard (tidy_remove hnow)) fun _ => hend
    · exact hend

/-! ## Starting for the first time, and resetting -/

/-- An empty system is tidy, whatever was there before. -/
theorem regular_blank (h : s.now.Proper) : s.blank.Regular where
  marked := marked_empty h
  accounts := Accounts.initial_inOrder
  user := .inl rfl
  clipboard _ hi := by cases hi
  core id hid := List.mem_map_of_mem hid
  apps a ha := by
    obtain ⟨id, -, rfl⟩ := List.mem_map.1 ha
    exact ⟨id, rfl⟩
  failures _ hf := by cases hf
  diagnostic _ hd := by cases hd
  clock := h
  indexed := Accounts.initial_indexed

theorem tidy_noteBoot {line : String} : Keeps (TidyWith P) (noteBoot line) := keeps_modify fun _ h =>
  ⟨⟨h.1.marked, h.1.accounts, h.1.user, h.1.clipboard, h.1.core, h.1.apps, h.1.failures, h.1.diagnostic, h.1.clock⟩, h.2⟩

theorem regular_setRootPassword {password : String} : Keeps (TidyWith Accounts.Indexed) (setRootPassword password) := by
  refine keeps_get fun s s' r h hrun => ?_
  split at hrun
  · cases hrun
    refine ⟨h.1.withAccounts (h.1.accounts.updateUsers fun u hu => ⟨rfl, ?_⟩), h.2.updateUsers (by intro; rfl) (by intros; rfl)⟩
    exact ⟨hu.name, hu.uid, hu.gid, hu.fullName, ⟨_, rfl⟩, hu.passwordHint, hu.home, hu.shell⟩
  · cases hrun
    exact h

/-- A user is added on the system's own behalf under a name that is not a system group's. -/
theorem regular_seedUser {name fullName password : String} {admin : Bool} (hname : Accounts.isSystemGroup name = false) :
    Keeps (TidyWith Accounts.Indexed) (seedUser name fullName password admin) := by
  intro s s' r h hrun
  have hplain : ∀ {uid : Int}, User.Plain {
      name, uid := .int uid, gid := .int uid, fullName, passwordDigest := passwordDigest password } := by
    intro uid
    have hnew : User.Plain (NewUser.build { name, fullName, password } uid) := plain_newUser ⟨_, rfl⟩
    exact ⟨hnew.name, hnew.uid, hnew.gid, ⟨_, rfl⟩, hnew.passwordDigest, hnew.passwordHint, hnew.home, hnew.shell⟩
  have hfree : ∀ g ∈ Accounts.systemGroups, Json.str name ≠ .str g.1 := by
    intro g hg he
    cases he
    have hyes : Accounts.isSystemGroup g.1 = true := List.any_eq_true.2 ⟨g, hg, beq_self_eq_true _⟩
    rw [hname] at hyes
    cases hyes
  have hend : ∀ {a : Accounts}, a.InOrder → TidyWith Accounts.Indexed { s with accounts := a.reindexed } := fun ha =>
    ⟨h.1.withAccounts ha.reindexed, Accounts.reindexed_reindexed⟩
  rcases asked (got hrun) with ⟨e, -, -, rfl⟩ | ⟨uid, -, hrun⟩
  · exact h
  rcases asked hrun with ⟨e, -, -, rfl⟩ | ⟨a, hinsert, hrun⟩
  · exact h
  have ha : a.InOrder := h.1.accounts.insertUser hplain hfree hinsert
  split at hrun
  · rcases asked hrun with ⟨e, -, -, rfl⟩ | ⟨b, hupdate, hrun⟩
    · exact h
    · cases hrun
      exact hend (ha.updateGroup (fun x hx => ⟨Group.name_insert, hx.insert ⟨_, rfl⟩⟩) hupdate)
  · cases hrun
    exact hend ha

/-- The user that has been added goes by its name. -/
theorem name_seedUser {name fullName password : String} {admin : Bool} {u : User}
    (hrun : (seedUser name fullName password admin).run s = (.ok u, s')) : u.name.IsText := by
  have hend : ∀ {a : Accounts} {v : User}, a.user? name = some v → v.name = .str name → (a.reindexed.principal name).name.IsText := by
    intro a v hv hname
    obtain ⟨groups, hfound⟩ := Accounts.user?_reindexed hv
    unfold Accounts.principal
    rw [hfound]
    exact ⟨name, hname⟩
  rcases asked (got hrun) with ⟨e, -, he, -⟩ | ⟨uid, -, hrun⟩
  · cases he
  rcases asked hrun with ⟨e, -, he, -⟩ | ⟨a, hinsert, hrun⟩
  · cases he
  have hfound := Accounts.user?_insertUser hinsert
  split at hrun
  · rcases asked hrun with ⟨e, -, he, -⟩ | ⟨b, hupdate, hrun⟩
    · cases he
    · cases hrun
      exact hend ((Accounts.user?_updateGroup hupdate).trans hfound) rfl
  · cases hrun
    exact hend hfound rfl

/-- However far it gets, laying out a new system leads to a regular state. -/
theorem regular_seed {r : Except Fault Unit} (h : s.now.Proper) (hrun : seed.run s = (r, s')) : s'.Regular := by
  unfold seed at hrun
  rw [run_bind, run_modify] at hrun
  dsimp only at hrun
  refine TidyWith.regular (keeps_bind (keeps_forPairs (f := fun path permissions => discard (ensureDirectory path
    { permissions := .str permissions })) fun _ _ _ => keeps_discard (tidy_ensureDirectory plain_style)) (fun _ => ?_)
    (regular_blank h).tidyWith hrun)
  refine keeps_bind (keeps_for (f := fun c : Command => discard (putSystemFile programsPath c.name
    (Executable.programContent c) Executable.permissions)) fun _ _ => keeps_discard (tidy_putSystemFile ⟨_, rfl⟩)) fun _ => ?_
  refine keeps_bind (keeps_for (f := putAppFile) fun id _ => keeps_discard (tidy_putSystemFile ⟨_, rfl⟩)) fun _ => ?_
  refine keeps_read fun s => keeps_bind (keeps_discard (tidy_putSystemFile ⟨_, rfl⟩)) fun _ => ?_
  refine keeps_bind tidy_noteBoot fun _ => keeps_bind regular_setRootPassword fun _ => ?_
  refine keeps_bind_of (regular_seedUser (by decide)) name_seedUser fun u hu => ?_
  refine keeps_bind (keeps_discard (tidy_createHome hu)) fun _ => keeps_bind tidy_syncFiles fun _ => ?_
  exact keeps_bind tidy_noteBoot fun _ => tidy_log

/-- A change of the phase. -/
theorem TidyWith.inPhase (h : s.TidyWith P) {phase : Phase} : TidyWith P { s with phase } :=
  ⟨⟨h.1.marked, h.1.accounts, h.1.user, h.1.clipboard, h.1.core, h.1.apps, h.1.failures, h.1.diagnostic, h.1.clock⟩, h.2⟩

theorem regular_reset {r : Except Fault Unit} (h : s.now.Proper) (hrun : reset.run s = (r, s')) : s'.Regular := by
  rw [run_reset] at hrun
  have hclock : s.swept.now.Proper := h
  rcases of_run_bind hrun with ⟨e, hseed, -⟩ | ⟨_, s₁, hseed, hrest⟩
  · exact regular_seed hclock hseed
  · exact (keeps_bind (keeps_modify fun _ h => h.inPhase) (fun _ => keeps_bind tidy_flush fun _ => tidy_log)
      (regular_seed hclock hseed).tidyWith hrest).regular

/-- There is nothing to restore where there is no tree. -/
theorem restoreOrNote_none (hget : s.store.get Store.treeKey = .ok none) : restoreOrNote.run s = (.ok false, s) := by
  have hrestore : restore.run s = (.ok false, s) := by
    unfold restore
    rw [run_bind, run_ask, hget]
    rfl
  unfold restoreOrNote
  rw [run_tryCatch, hrestore]

/-- There is nothing to restore from an empty store. -/
theorem restoreOrNote_empty {store : Store} (empty : store.Empty) (hs : s.store = store) :
    restoreOrNote.run s = (.ok false, s) := restoreOrNote_none (hs ▸ empty.get_tree)

/-- A system that starts on an empty store gets into a regular state. -/
theorem regular_first {store : Store} {hostname : String} {log : Log} {ids : IdSupply} {now : Time.Stamp}
    {r : Except Fault Unit} (empty : store.Empty) (h : now.Proper)
    (hrun : boot.run (create store hostname log ids now) = (r, s')) : s'.Regular := by
  have hrun := got hrun
  rw [if_neg (by rw [show (create store hostname log ids now).phase = .shutdown from rfl]; decide)] at hrun
  rw [run_bind, run_set] at hrun
  dsimp only at hrun
  rw [run_bind, restoreOrNote_empty empty rfl] at hrun
  dsimp only at hrun
  simp only [Bool.not_false, if_true] at hrun
  have hregular : ∀ {x s₁}, seed.run { create store hostname log ids now with phase := .booting, bootLog := [] } = (x, s₁) →
      s₁.Regular := fun hseed => regular_seed h hseed
  rcases of_run_bind hrun with ⟨e, hseed, -⟩ | ⟨u, s₁, hseed, hrun⟩
  · exact hregular hseed
  · exact (keeps_bind (keeps_modify fun _ h => h.inPhase) (fun _ => keeps_bind tidy_flush fun _ => tidy_log)
      (hregular hseed).tidyWith hrun).regular

/-! ## Operations -/

/-- The operations whose arguments are what they must be: users are named by texts, if at all, ids of nodes
are texts, and the clock is set to a time that it can show. The tables are not replaced as a whole, and the
system is neither started nor stopped. -/
def Operation.Proper : Operation → Prop
  | file (.createFile _ _ _ permissions?) user? _ => UserArg user? ∧ UserArg permissions?
  | file _ user? _ => UserArg user?
  | ensureDirectory _ style => style.Plain
  | putSystemFile _ _ _ permissions => permissions.IsText
  | createHome u => u.name.IsText
  | pick nodes _ source? => (∀ a ∈ nodes, a.IsText) ∧ UserArg source?
  | paste _ user? => UserArg user?
  | addUser new _ => new.passwordHint.IsText
  | enterSafeMode report => ∀ f ∈ report.failures, f.IsText
  | clock now => now.Proper
  | loadAccounts _ _ | boot | shutdown => False
  | _ => True

theorem tidy_call {c : FileCall} {user? source? : Option Json} (h : (Operation.file c user? source?).Proper) :
    Keeps (TidyWith P) (c.run user? source?) := by
  cases c
  case createFile => exact keeps_map (tidy_createNode h.1 h.2)
  case createDirectory => exact keeps_map (tidy_createNode h userArg_none)
  case writeFile => exact keeps_map (tidy_overwriteFile h)
  case appendFile => exact keeps_map (tidy_appendFile h)
  case deleteNode => exact keeps_map tidy_deleteNode
  case moveToTrash => exact keeps_map (tidy_moveToTrash h)
  case emptyTrash => exact keeps_map tidy_emptyTrash
  case moveNode => exact keeps_map tidy_moveNode
  case moveById => exact keeps_map tidy_moveById
  case copyById => exact keeps_map (tidy_copyById h)
  case chmod => exact keeps_map tidy_chmod
  case chown => exact keeps_map tidy_chown

/-- Operations that have nothing to do with the tables of users and groups. -/
def Operation.SparesTables : Operation → Prop
  | addUser _ _ | updateUser _ _ _ | deleteUser _ _ | addGroup _ _ _ | addToGroup _ _ _ | removeFromGroup _ _ _ | deleteGroup _ _ => False
  | setRootPassword _ | resetAccounts | loadAccounts _ _ | boot | shutdown | reset => False
  | _ => True

/-- They keep whatever holds of the tables. -/
theorem Operation.tidy {op : Operation} (hp : op.Proper) (hspares : op.SparesTables) : Keeps (TidyWith P) op.run := by
  cases op
  case file => exact keeps_discard (tidy_call hp)
  case ensureDirectory => exact keeps_discard (tidy_ensureDirectory hp)
  case putSystemFile => exact keeps_discard (tidy_putSystemFile hp)
  case createHome => exact keeps_discard (tidy_createHome hp)
  case pick => exact tidy_pick hp.1 hp.2
  case clearClipboard => exact tidy_clearClipboard
  case paste => exact keeps_discard (tidy_paste hp)
  case login => exact keeps_discard tidy_login
  case logout => exact tidy_logout
  case syncFiles => exact tidy_syncFiles
  case installApp => exact keeps_discard tidy_installApp
  case uninstallApp => exact keeps_discard tidy_uninstallApp
  case checkIntegrity => exact keeps_discard tidy_checkIntegrity
  case enterSafeMode => exact tidy_enterSafeMode hp
  case flush => exact tidy_flush
  case clock now =>
    refine keeps_modify fun s h => ?_
    exact ⟨⟨h.1.marked, h.1.accounts, h.1.user, h.1.clipboard, h.1.core, h.1.apps, h.1.failures, h.1.diagnostic, hp⟩, h.2⟩
  all_goals exact hspares.elim

/-- Operations with proper arguments lead from regular states to regular states. -/
theorem Operation.regular {op : Operation} {r : Except Fault Unit} (hp : op.Proper) (hs : s.Sound) (h : s.Regular)
    (hrun : op.run.run s = (r, s')) : s'.Regular := by
  cases op
  case addUser new user? => exact regular_table (c := .addUser new) hp hs h hrun
  case updateUser name c user? => exact regular_table (c := .updateUser name c) trivial hs h hrun
  case deleteUser name user? => exact regular_table (c := .deleteUser name) trivial hs h hrun
  case addGroup name members user? => exact regular_table (c := .addGroup name members) trivial hs h hrun
  case addToGroup user group user? => exact regular_table (c := .addToGroup user group) trivial hs h hrun
  case removeFromGroup user group user? => exact regular_table (c := .removeFromGroup user group) trivial hs h hrun
  case deleteGroup name user? => exact regular_table (c := .deleteGroup name) trivial hs h hrun
  case setRootPassword => exact (regular_setRootPassword h.tidyWith hrun).regular
  case resetAccounts =>
    cases hrun
    exact ⟨h.toTidy.withAccounts Accounts.initial_inOrder, Accounts.initial_indexed⟩
  case loadAccounts => exact hp.elim
  case boot => exact hp.elim
  case shutdown => exact hp.elim
  case reset => exact regular_reset h.clock hrun
  all_goals exact (Operation.tidy hp trivial h.tidyWith hrun).regular

end Machine

end SimUnix
