/-
What is done to two systems that differ in a password only is done to both alike: with the same result, and
so that they still differ in nothing else. One lemma for each operation that a terminal performs.
-/
import SimUnix.Machine.Lifecycle
import SimUnix.Proofs.Machine.Twin

namespace SimUnix

variable {target : String} {α : Type}

/-! ## Actions -/

namespace Act

/-- An action that no password makes a difference to. -/
abbrev Blind (target : String) (action : Act α) : Prop := InStep (Machine.Twin target) action action

theorem blind_ofExcept (x : Except Fault α) : Blind target (ofExcept x) := by
  cases x with
  | error e => exact .throw e
  | ok a => exact .pure a

theorem blind_ask {question : Machine → Except Fault α}
    (hq : ∀ {s s' : Machine}, s.Twin target s' → question s' = question s) : Blind target (ask question) :=
  InStep.get fun h => by
    rw [hq h]
    exact blind_ofExcept _

/-- Two questions that are answered, or fail alike. -/
theorem inStep_asked {β : Type} {q q' : Machine → Except Fault β} {f f' : β → Act α}
    (h : ∀ {s s' : Machine}, s.Twin target s' → (∃ e, q s = .error e ∧ q' s' = .error e) ∨
      ∃ a b, q s = .ok a ∧ q' s' = .ok b ∧ InStep (Machine.Twin target) (f a) (f' b)) :
    InStep (Machine.Twin target) (ask q >>= f) (ask q' >>= f') := by
  unfold ask
  rw [bind_assoc, bind_assoc]
  refine InStep.get fun hs => ?_
  rcases h hs with ⟨e, ha, hb⟩ | ⟨a, b, ha, hb, hab⟩
  · rw [ha, hb]
    exact .throw e
  · rw [ha, hb]
    exact hab

theorem blind_log (level : Level) (source message : String) (user : Json) : Blind target (log level source message user) :=
  InStep.change fun h => h.change (·.logged level source message user) fun _ _ _ => rfl

theorem blind_editTree (change : Tree → Tree) : Blind target (editTree change) :=
  InStep.change fun h => h.withTree (congrArg change h.tree)

theorem blind_edit (change : Edit α) : Blind target (edit change) := InStep.get fun h => by
  rw [h.tree]
  exact InStep.bind (.set (h.withTree rfl)) fun _ => blind_ofExcept _

theorem inStep_writeRecord {key : String} {x y : Except Fault Json}
    (hxy : y = x ∨ key = Store.usersKey ∧ ∃ a b : Accounts, a.Twin target b ∧ x = a.usersJson ∧ y = b.usersJson) :
    InStep (Machine.Twin target) (writeRecord key x) (writeRecord key y) := by
  rcases hxy with rfl | ⟨rfl, a, b, hab, rfl, rfl⟩
  · exact (blind_ofExcept y).bind fun _ => .change fun h => h.withStore (h.store.set (.inl rfl))
  · rcases hab.usersJson with ⟨e, ha, hb⟩ | ⟨v, w, ha, hb⟩
    · rw [ha, hb]
      exact .throw e
    · rw [ha, hb]
      exact .change fun h => h.withStore (h.store.set (.inr ⟨rfl, a, b, hab, ha, hb⟩))

theorem blind_flush : Blind target flush := InStep.get fun {s s'} h => by
  rw [h.phase]
  refine InStep.cond (fun _ => ?_) fun _ => .pure _
  have hother : ∀ {key : String} {x y : Except Fault Json}, y = x →
      InStep (Machine.Twin target) (writeRecord key x) (writeRecord key y) := fun hxy => inStep_writeRecord (.inl hxy)
  refine InStep.forM (.cons (hother ?_) (.cons (inStep_writeRecord (.inr ⟨rfl, _, _, h.accounts, rfl, rfl⟩))
    (.cons (hother h.accounts.groupsJson) (.cons (hother ?_) (.cons (hother ?_) (.cons (hother ?_) .nil))))))
  · rw [h.same]
  · rw [h.same]
  · rw [h.same]
  · show Except.ok s'.sessionJson = Except.ok s.sessionJson
    rw [h.same]
    rfl

theorem blind_changed (message : String) (user? : Option Json) : Blind target (changed message user?) := InStep.get fun h => by
  rw [h.actor]
  exact (blind_log ..).bind fun _ => blind_flush

theorem blind_denied (what : String) (user? : Option Json) : Blind target (denied what user?) := InStep.get fun h => by
  rw [h.actor]
  exact blind_log ..

theorem blind_decide {check : Machine → Except Fault (Verdict α)} {user? : Option Json} {change : α → Act String}
    (hcheck : ∀ {s s' : Machine}, s.Twin target s' → check s' = check s) (hchange : ∀ a, Blind target (change a)) :
    Blind target (decide check user? change) := by
  refine (blind_ask hcheck).bind fun verdict => ?_
  cases verdict with
  | refused => exact .pure _
  | unchanged => exact .pure _
  | denied what user? => exact (blind_denied what user?).bind fun _ => .pure _
  | granted plan => exact (hchange plan).bind fun message => (blind_changed message user?).bind fun _ => .pure _

end Act

namespace Machine

open Act

variable {user? source? : Option Json} {path name : String}

/-! ## Files -/

theorem blind_pathOfId (id : NodeId) : Blind target (pathOfId id) := InStep.get fun h => by
  rw [h.tree]
  dsimp only
  split
  · exact blind_ofExcept _
  · exact .pure _

theorem blind_addNew (new : NewNode) (parent : NodeId) : Blind target (addNew new parent) := InStep.get fun {s s'} h => by
  have hbuild : new.build s' = new.build s := by
    unfold NewNode.build
    rw [h.tree, h.now]
  rw [hbuild, h.now]
  exact (blind_editTree _).bind fun _ => .pure _

theorem blind_createNode {kind : NodeKind} {content : Json} {permissions? : Option Json} :
    Blind target (createNode path name kind content user? permissions?) :=
  blind_decide (fun h => h.createVerdict ..) fun parent => InStep.get fun h => by
    simp only [h.actor, h.primaryGroup]
    exact (blind_addNew _ _).bind fun id => (blind_pathOfId id).bind fun _ => .pure _

theorem blind_overwriteFile {content : Json} : Blind target (overwriteFile path content user?) := InStep.get fun h => by
  rw [h.resolve, h.tree]
  refine (blind_ofExcept _).bind fun resolved => (blind_ofExcept _).bind fun n? => ?_
  cases n? with
  | none => exact blind_createNode
  | some n =>
    simp only [h.now]
    refine blind_decide (fun h => h.writeVerdict ..) fun id => ?_
    exact (blind_editTree _).bind fun _ => .pure _

theorem blind_appendFile {content : Json} : Blind target (appendFile path content user?) := by
  refine (blind_ask fun h => h.nodeAt ..).bind fun n? => ?_
  cases n? with
  | none => exact blind_overwriteFile
  | some n => exact .cond (fun _ => .pure _) fun _ => (blind_ofExcept _).bind fun _ => blind_overwriteFile

theorem blind_deleteNode : Blind target (deleteNode path user?) :=
  blind_decide (fun h => h.removeVerdict ..) fun n => InStep.get fun h => by
    rw [h.tree, h.now]
    exact (blind_ofExcept _).bind fun _ => (blind_edit _).bind fun _ => .pure _

theorem blind_chmod {mode : String} : Blind target (chmod path mode user?) :=
  blind_decide (fun h => h.chmodVerdict ..) fun plan => InStep.get fun h => by
    rw [h.now]
    exact (blind_editTree _).bind fun _ => (blind_pathOfId _).bind fun _ => .pure _

theorem blind_chown {owner : String} {group? : Option String} : Blind target (chown path owner group? user?) :=
  blind_decide (fun h => h.chownVerdict ..) fun n => InStep.get fun h => by
    rw [h.now]
    refine (blind_editTree _).bind fun _ => ?_
    dsimp only
    split <;> exact (blind_pathOfId _).bind fun _ => .pure _

/-! ## Moving, copying and the trash -/

theorem blind_relocate {n dest : Node} {name : Json} : Blind target (relocate n dest name user? source?) :=
  blind_decide (fun h => h.relocateVerdict ..) fun dest => InStep.get fun h => by
    rw [h.tree, h.now]
    refine (blind_ofExcept _).bind fun _ => (blind_ofExcept _).bind fun _ => ?_
    exact (blind_editTree _).bind fun _ => (blind_pathOfId _).bind fun _ => .pure _

theorem blind_moveNode {source : String} : Blind target (moveNode source path user?) := InStep.get fun h => by
  rw [h.nodeAt, h.nodeAt, h.tree, h.resolve]
  refine (blind_ofExcept _).bind fun n? => ?_
  cases n? with
  | none => exact .pure _
  | some n =>
    refine (blind_ofExcept _).bind fun _ => .cond (fun _ => .pure _) fun _ => (blind_ofExcept _).bind fun place? => ?_
    split
    · exact blind_relocate
    · refine (blind_ofExcept _).bind fun resolved => (blind_ofExcept _).bind fun dest? => ?_
      cases dest? with
      | none => exact .pure _
      | some dest => exact blind_relocate

theorem blind_copyById {id : NodeId} {name? : Option String} : Blind target (copyById id path user? source? name?) :=
  blind_decide (fun h => h.copyVerdict ..) fun plan => InStep.get fun h => by
    simp only [h.actor, h.primaryGroup, h.now]
    refine (blind_edit _).bind fun _ => (blind_editTree _).bind fun _ => ?_
    exact (blind_pathOfId _).bind fun _ => (blind_pathOfId _).bind fun _ => .pure _

theorem blind_ensureTrash : Blind target (ensureTrash user?) := InStep.get fun h => by
  simp only [h.homePath, h.tree, h.actor, h.primaryGroup, h.can]
  refine (blind_ofExcept _).bind fun _ => (blind_ofExcept _).bind fun home? => ?_
  cases home? with
  | none => exact .pure _
  | some home =>
    refine .cond (fun _ => .pure _) fun _ => (blind_ofExcept _).bind fun trash? => ?_
    cases trash? with
    | some trash => exact .pure _
    | none =>
      refine (blind_ofExcept _).bind fun _ => (blind_ofExcept _).bind fun _ => .cond (fun _ => ?_) fun _ => ?_
      · exact (blind_denied _ _).bind fun _ => .pure _
      · refine (blind_addNew _ _).bind fun _ => (blind_changed _ _).bind fun _ => InStep.get fun h => ?_
        rw [h.tree]
        exact .pure _

theorem blind_moveToTrash : Blind target (moveToTrash path user?) := by
  refine (blind_ask fun h => h.removeVerdict ..).bind fun verdict => ?_
  cases verdict with
  | refused => exact .pure _
  | unchanged => exact .pure _
  | denied what user? => exact (blind_denied what user?).bind fun _ => .pure _
  | granted n =>
    refine blind_ensureTrash.bind fun trash? => ?_
    cases trash? with
    | none => exact .pure _
    | some trash =>
      refine InStep.get fun h => ?_
      rw [h.tree]
      exact .cond (fun _ => .pure _) fun _ => (blind_ofExcept _).bind fun _ => blind_relocate

theorem blind_emptyTrash : Blind target (emptyTrash user?) := InStep.get fun h => by
  rw [h.trashPath, h.tree, h.now]
  simp only [h.can]
  refine (blind_ofExcept _).bind fun trash? => ?_
  cases trash? with
  | none => exact .pure _
  | some trash =>
    refine .cond (fun _ => .pure _) fun _ => (blind_ofExcept _).bind fun _ => .cond (fun _ => ?_) fun _ => ?_
    · exact (blind_ofExcept _).bind fun _ => (blind_denied _ _).bind fun _ => .pure _
    · refine (blind_ofExcept _).bind fun items => ?_
      refine (InStep.loop (fun _ => (blind_edit _).discard) items).bind fun _ => ?_
      exact .cond (fun _ => (blind_changed _ _).bind fun _ => .pure _) fun _ => .pure _

/-! ## The system's own files -/

theorem blind_childOrNew (parent : NodeId) (new : NewNode) : Blind target (childOrNew parent new) := InStep.get fun h => by
  rw [h.tree]
  refine (blind_ofExcept _).bind fun dir => (blind_ofExcept _).bind fun child? => ?_
  cases child? with
  | some child => exact .pure _
  | none => exact blind_addNew _ _

theorem blind_ensureBelow {style : DirectoryStyle} : ∀ {names : List String} {start : NodeId},
    Blind target (ensureBelow style start names)
  | [], _ => .pure _
  | _ :: _, _ => (blind_childOrNew _ _).bind fun _ => blind_ensureBelow

theorem blind_ensureDirectory {style : DirectoryStyle} : Blind target (ensureDirectory path style) :=
  (blind_ask fun h => by rw [h.tree]).bind fun _ => blind_ensureBelow

theorem blind_putSystemFile {content permissions : Json} : Blind target (putSystemFile path name content permissions) := by
  refine blind_ensureDirectory.bind fun dirId => InStep.get fun h => ?_
  rw [h.tree, h.now]
  refine (blind_ofExcept _).bind fun dir => (blind_ofExcept _).bind fun n? => ?_
  cases n? with
  | none => exact blind_addNew _ _
  | some n => exact .cond (fun _ => (blind_editTree _).bind fun _ => .pure _) fun _ => .pure _

theorem blind_syncFiles : Blind target syncFiles := by
  refine (blind_ask fun h => h.accounts.usersText).bind fun _ => blind_putSystemFile.discard.bind fun _ => ?_
  exact (blind_ask fun h => h.accounts.groupsText).bind fun _ => blind_putSystemFile.discard

theorem inStep_createHome {u v : User} (huv : u.Twin v) : InStep (Machine.Twin target) (createHome u) (createHome v) :=
  InStep.get fun h => by
    rw [h.accounts.groupName, huv.same User.gid fun _ => rfl, huv.same User.home fun _ => rfl, huv.same User.name fun _ => rfl]
    refine (blind_ofExcept _).bind fun home => blind_ensureDirectory.bind fun parent => ?_
    refine (blind_childOrNew _ _).bind fun home => ?_
    exact (InStep.loop (fun _ => (blind_childOrNew _ _).discard) homeFolders).bind fun _ => .pure _

/-! ## Session and administration -/

theorem blind_setSessionUser {user? : Option String} : Blind target (setSessionUser user?) :=
  (InStep.change fun h => h.change (fun s => { s with currentUser := Json.text? user? }) fun _ _ _ => rfl).bind fun _ => blind_flush

theorem blind_logout : Blind target logout := InStep.get fun h => by
  rw [h.currentUser]
  refine blind_setSessionUser.bind fun _ => ?_
  split
  · exact .pure _
  · exact blind_log ..

theorem blind_authorize {action : String} : Blind target (authorize action user?) := InStep.get fun h => by
  rw [h.petitioner, h.safeMode]
  refine .cond (fun _ => (blind_log ..).bind fun _ => .pure _) fun _ => ?_
  refine (blind_ask fun h => h.mayAdminister _).bind fun may => .cond (fun _ => .pure _) fun _ => ?_
  exact (blind_log ..).bind fun _ => .pure _

theorem blind_committed {message : String} {actor : Json} : Blind target (committed message actor) := by
  refine (InStep.change fun h => h.withAccounts h.accounts.reindexed).bind fun _ => blind_syncFiles.bind fun _ => ?_
  exact (blind_log ..).bind fun _ => blind_flush

/-- Two changes of the tables that make twins, or fail alike. -/
theorem inStep_administer {action : String} {change change' : Accounts → Except Fault (Option Accounts)} {finish : Act String}
    (hchange : ∀ {a b : Accounts}, a.Twin target b →
      (change' b).map (Option.map (Accounts.veiled target)) = (change a).map (Option.map (Accounts.veiled target)))
    (hfinish : Blind target finish) :
    InStep (Machine.Twin target) (administer action user? change finish) (administer action user? change' finish) := by
  refine blind_authorize.bind fun actor? => ?_
  cases actor? with
  | none => exact .pure _
  | some actor =>
    refine inStep_asked fun h => (results_of_map (hchange h.accounts)).imp_right ?_
    rintro ⟨a?, b?, ha, hb, hab⟩
    refine ⟨a?, b?, ha, hb, ?_⟩
    cases a? with
    | none =>
      cases Option.map_eq_none_iff.1 hab
      exact .pure _
    | some a =>
      obtain ⟨b, rfl, htwin⟩ := Option.map_eq_some_iff.1 hab
      refine (InStep.change fun h => h.withAccounts htwin.symm).bind fun _ => hfinish.bind fun _ => ?_
      exact blind_committed.bind fun _ => .pure _

theorem blind_addUser {new : NewUser} : Blind target (addUser new user?) := by
  refine inStep_administer (fun {a b} h => ?_) (InStep.get fun h => ?_)
  · rw [h.has, h.groups, h.nextUid]
    split
    · rfl
    · cases a.nextUid with
      | error e => rfl
      | ok uid =>
        show Except.map _ (b.insertUser (new.build uid) >>= _) = Except.map _ (a.insertUser (new.build uid) >>= _)
        rcases results_of_map (h.insertUser (new.build uid)) with ⟨e, ha, hb⟩ | ⟨a', b', ha, hb, hab⟩
        · rw [ha, hb]
        · rw [ha, hb]
          exact congrArg (Except.ok ∘ some) hab
  · rcases h.accounts.user? new.name with ⟨ha, hb⟩ | ⟨u, v, ha, hb, huv⟩
    · rw [ha, hb]
      exact .pure _
    · rw [ha, hb]
      dsimp only
      rw [huv.same User.name fun _ => rfl, huv.same User.uid fun _ => rfl]
      exact .cond (fun _ => (inStep_createHome huv).discard.bind fun _ => .pure _) fun _ => .pure _

theorem blind_deleteUser : Blind target (deleteUser name user?) := by
  refine inStep_administer (fun {a b} h => ?_) (.pure _)
  split
  · rfl
  · rcases h.user? name with ⟨ha, hb⟩ | ⟨u, v, ha, hb, huv⟩
    · rw [ha, hb]
      rfl
    · rw [ha, hb]
      exact congrArg (Except.ok ∘ some) (h.eraseUser huv).symm

theorem blind_addGroup {members : List String} : Blind target (addGroup name members user?) := by
  refine inStep_administer (fun {a b} h => ?_) (.pure _)
  simp only [h.has, h.groups, h.nextUid]
  split
  · rfl
  · cases a.nextUid with
    | error e => rfl
    | ok gid => exact congrArg (Except.ok ∘ some) (h.withGroups _).symm

theorem blind_addToGroup {group : String} : Blind target (addToGroup name group user?) := by
  refine inStep_administer (fun {a b} h => congrArg Except.ok ?_) (.pure _)
  rw [h.group?, h.has, h.groups]
  split
  · rfl
  · split
    · rfl
    · exact congrArg some (h.withGroups _).symm

theorem blind_removeFromGroup {group : String} : Blind target (removeFromGroup name group user?) := by
  refine inStep_administer (fun {a b} h => congrArg Except.ok ?_) (.pure _)
  rw [h.group?, h.groups]
  cases a.group? group with
  | none => rfl
  | some g =>
    rcases h.user? name with ⟨ha, hb⟩ | ⟨u, v, ha, hb, huv⟩
    · rw [ha, hb]
    · rw [ha, hb]
      dsimp only
      rw [huv.same User.gid fun _ => rfl]
      split
      · rfl
      · exact congrArg some (h.withGroups _).symm

theorem blind_deleteGroup : Blind target (deleteGroup name user?) := by
  refine inStep_administer (fun {a b} h => congrArg Except.ok ?_) (.pure _)
  rw [h.group?, h.groups]
  cases a.group? name with
  | none => rfl
  | some g =>
    have hown : (b.users.values.any fun u => u.gid.sameKey g.gid) = a.users.values.any fun u => u.gid.sameKey g.gid := by
      rw [← Function.comp_def (fun gid : Json => gid.sameKey g.gid), ← List.any_map, h.values User.gid fun _ => rfl, List.any_map,
        Function.comp_def]
    dsimp only
    rw [hown]
    split
    · rfl
    · exact congrArg some (h.withGroups _).symm

/-- Two passwords that are given to a user leave twins behind. -/
theorem inStep_updateUser (password password' : String) :
    InStep (Machine.Twin target) (updateUser target { password? := some password } user?)
      (updateUser target { password? := some password' } user?) := by
  refine inStep_administer (fun {a b} h => ?_) (.pure _)
  rw [h.has]
  split
  · rfl
  · exact congrArg (Except.ok ∘ some) (h.password (by exact fun _ => rfl) (by exact fun _ => rfl)).symm

theorem blind_toggle : Blind target (modify fun s : Machine => { s with developerMode := !s.developerMode }) :=
  InStep.change fun h => h.change (fun s => { s with developerMode := !s.developerMode }) fun _ _ _ => rfl

end Machine

end SimUnix
