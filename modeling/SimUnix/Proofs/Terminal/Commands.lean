/-
What the commands do to the system. Whatever it is, it is done for the user for whom the command runs: a
call that changes files, or something that only root and administrators may do. Everything else leaves
the tree alone.
-/
import SimUnix.Shell.Execution
import SimUnix.Proofs.Terminal.Beside

namespace SimUnix

open Tree Machine

/-- The user is root, or an administrator of a system that is not in safe mode. -/
def Machine.Rules (s : Machine) (user : String) : Prop :=
  user = rootName ∨ s.mayAdminister (s.petitioner (some user)) = .ok true

theorem Machine.rules_iff {s : Machine} {user : String} (h : user ≠ "") :
    s.Rules user ↔ user = rootName ∨ s.accounts.isAdmin user = true := by
  have hpet : s.petitioner (some user) = .str user := by
    have htruthy : (Json.str user).truthy = true := by simpa [Json.truthy] using h
    unfold Machine.petitioner
    rw [Option.filter_some_pos htruthy]
    rfl
  unfold Machine.Rules Machine.mayAdminister Accounts.find
  rw [hpet]
  simp [Json.isKey, Accounts.isAdmin, bind, Except.bind]

/-- The operations that a command performs for a user, beside calls that change files. -/
def Machine.Operation.Due (user : String) : Operation → Prop
  | logout => True
  | reset => user = rootName
  | addUser new user? => user? = some (.str user) ∧ ∃ hint, new.passwordHint = .str hint
  | updateUser _ _ user? | deleteUser _ user? | addGroup _ _ user? | addToGroup _ _ user? | removeFromGroup _ _ user?
  | deleteGroup _ user? => user? = some (.str user)
  | _ => False

/-- A call that creates files with the usual permissions only. -/
def Machine.FileCall.Default : FileCall → Prop
  | createFile _ _ _ permissions? => permissions? = none
  | _ => True

/-- A course that allows a user everything a command may do. What leaves the tree and the tables of users
and groups alone may be done for anyone, and everything else that is due for those who rule. -/
structure Duty (user : String) (R : Station → Station → Prop) : Prop extends Course R where
  idle : ∀ {s s'}, s.Idle s' → R s s'
  call : ∀ {s : Station} {c : FileCall} {m r}, s.Sound → c.Default → (c.run (some user) none).run s.machine = (r, m) →
    R s { s with machine := m }
  perform : ∀ {s : Station} {op : Operation} {m r}, s.Sound → op.Due user → op.run.run s.machine = (r, m) →
    s.Beside { s with machine := m } ∨ s.machine.Rules user → R s { s with machine := m }

/-- A course that allows a user calls that change files. -/
structure Scribe (user : String) (R : Station → Station → Prop) : Prop extends Course R where
  call : ∀ {s : Station} {c : FileCall} {m r}, s.Sound → c.Default → (c.run (some user) none).run s.machine = (r, m) →
    R s { s with machine := m }

/-- A course that allows a user everything that commands do beside opening and closing sessions. -/
structure Chore (user : String) (R : Station → Station → Prop) : Prop extends Scribe user R where
  quiet : ∀ {s s'}, s.Quiet s' → R s s'
  perform : ∀ {s : Station} {op : Operation} {m r}, s.Sound → op.Due user → op.run.run s.machine = (r, m) →
    s.Beside { s with machine := m } ∨ s.machine.Rules user → R s { s with machine := m }

/-- A course that allows the terminal to be used, too, as long as the same users act. -/
structure Errand (user : String) (R : Station → Station → Prop) : Prop extends Chore user R where
  still : ∀ {s s'}, s.Still s' → R s s'
  quiet h := still h.toStill

/-- A course that allows a user everything that commands do beside acting as someone else. -/
structure Service (user : String) (R : Station → Station → Prop) : Prop extends Errand user R where
  leave : (Station.closeSession none).Leads R

theorem Duty.service {user : String} {R : Station → Station → Prop} (hR : Duty user R) : Service user R where
  toCourse := hR.toCourse
  still h := hR.idle h.toIdle
  leave _ _ _ hs hrun := hR.idle (Station.idle_closeSession hs hrun)
  call := hR.call
  perform := hR.perform

/-- A call on behalf of the user. -/
theorem Scribe.act_call {user : String} {R : Station → Station → Prop} (hR : Scribe user R) (c : FileCall) (hc : c.Default)
    {α : Type} {action : Act α} {f : α → Answer} (h : c.run (some user) none = f <$> action) : Job.Within R (Job.act action) := by
  refine Course.act fun {s m r} hs hrun => ?_
  have hmap : (c.run (some user) none).run s.machine = (r.map f, m) := by
    rw [h, run_map, hrun]
    cases r <;> rfl
  exact hR.call hs hc hmap

namespace Chore

variable {α : Type} {user : String} {R : Station → Station → Prop}

/-! ## Actions -/

theorem act_idle (hR : Chore user R) {action : Act α} (ha : ∀ {s s' r}, action.run s = (r, s') → s.Idle s') :
    Job.Within R (Job.act action) := Course.act fun _ hrun => hR.quiet (Station.quiet_machine (ha hrun))

theorem log (hR : Chore user R) {level : Level} {source message : String} {who : Json} :
    Job.Within R (Job.act (Act.log level source message who)) := hR.act_idle fun hrun => by
  cases hrun
  exact aside_logged.idle

/-- An operation that leaves the tree and the tables alone. -/
theorem act_beside (hR : Chore user R) (op : Operation) (hd : op.Due user)
    (hb : ∀ t a, Act.Keeps (fun s => s.tree = t ∧ s.accounts = a) op.run) : Job.Within R (Job.act op.run) := by
  refine Course.act fun {s m r} hs hrun => hR.perform hs hd hrun (.inl ?_)
  obtain ⟨htree, haccounts⟩ := hb s.machine.tree s.machine.accounts ⟨rfl, rfl⟩ hrun
  exact ⟨htree, haccounts, fun _ => op.sound hs hrun⟩

/-- An operation that does more than logging only for those who rule. -/
theorem act_perform (hR : Chore user R) (op : Operation) (hd : op.Due user)
    (ha : ∀ {s s' r}, op.run.run s = (r, s') → s.Aside s' ∨ s.Rules user) : Job.Within R (Job.act op.run) :=
  Course.act fun hs hrun => hR.perform hs hd hrun ((ha hrun).imp_left fun hb => Station.Idle.beside ⟨hb.idle⟩)

/-- A change of the tables on behalf of the user. -/
theorem act_rule (hR : Chore user R) (op : Operation) (hd : op.Due user) {action : Act α} (h : op.run = Functor.discard action)
    (ha : ∀ {s s' r}, action.run s = (r, s') → s.Aside s' ∨ s.Rules user) : Job.Within R (Job.act action) := by
  refine Course.act fun {s m r} hs hrun => ?_
  obtain ⟨r', hop⟩ : ∃ r', op.run.run s.machine = (r', m) := h ▸ run_discard_of hrun
  exact hR.perform hs hd hop ((ha hrun).imp_left fun hb => Station.Idle.beside ⟨hb.idle⟩)

/-! ## Questions to the host -/

theorem asks (hR : Chore user R) {message : String} {kind : PromptKind} : Job.Within R (Job.request message kind) :=
  hR.request fun _ _ => hR.quiet ⟨Station.still_terminal rfl rfl, rfl, rfl, rfl⟩

theorem askPassword (hR : Chore user R) {message : String} : Job.Within R (Job.askPassword message) :=
  hR.bind hR.asks fun _ => hR.pure _

theorem askText (hR : Chore user R) {message : String} : Job.Within R (Job.askText message) :=
  hR.bind hR.asks fun _ => hR.pure _

end Chore

/-- Changes of the tables are made by those who rule; everyone else is only told so. -/
theorem Machine.run_administer {s s' : Machine} {action user : String} {change : Accounts → Except Fault (Option Accounts)}
    {finish : Act String} {r : Except Fault Bool} (hrun : (administer action (some user) change finish).run s = (r, s')) :
    s.Aside s' ∨ s.Rules user := by
  by_cases hrules : s.mayAdminister (s.petitioner (some user)) = .ok true
  · exact .inr (.inr hrules)
  left
  have hauth : ∀ {r s'}, (authorize action (some user)).run s = (r, s') →
      s.Aside s' ∧ ∀ actor, r ≠ .ok (some actor) := by
    intro r s' hrun
    have hrun := Act.got hrun
    split at hrun
    · cases hrun
      exact ⟨aside_logged, by simp⟩
    · rcases Act.askedOf hrun with ⟨e, -, rfl, rfl⟩ | ⟨may, hmay, hrun⟩
      · exact ⟨.refl _, by simp⟩
      · cases may with
        | true => exact absurd hmay hrules
        | false =>
          cases hrun
          exact ⟨aside_logged, by simp⟩
  unfold administer at hrun
  rcases of_run_bind hrun with ⟨e, hfirst, -⟩ | ⟨actor?, s₁, hfirst, hrun⟩
  · exact (hauth hfirst).1
  obtain ⟨ha, hnone⟩ := hauth hfirst
  cases actor? with
  | none =>
    cases hrun
    exact ha
  | some actor => exact absurd rfl (hnone actor)

namespace Command

variable {ctx : Context} {R : Station → Station → Prop}

/-! ## Questions of commands -/

theorem within_resolve (hR : Course R) {path : String} : Job.Within R (ctx.resolve path) := hR.ask _

theorem within_nodeAt (hR : Course R) {path : String} : Job.Within R (ctx.nodeAt path) := hR.ask _

theorem within_pathExists (hR : Course R) {path : String} : Job.Within R (ctx.pathExists path) := hR.ask _

theorem within_fileLines (hR : Course R) {path : String} : Job.Within R (ctx.fileLines? path) := by
  refine hR.bind (hR.ask _) fun content? => ?_
  split
  · exact hR.pure _
  · exact hR.bind (hR.ofExcept _) fun _ => hR.pure _

/-! ## Users and groups -/

theorem within_runId (hR : Course R) : Job.Within R (runId ctx) := by
  refine hR.bind hR.machine fun s => ?_
  dsimp only
  split
  · exact hR.bind (hR.ofExcept _) fun _ => hR.pure _
  · exact Course.cond (fun _ => hR.pure _) fun _ => hR.pure _

theorem within_runGroups (hR : Course R) : Job.Within R (runGroups ctx) := by
  refine hR.bind hR.machine fun s => ?_
  split
  · exact hR.bind (hR.ofExcept _) fun _ => hR.pure _
  · exact hR.pure _

theorem within_runSu (hR : Duty ctx.user R) : Job.Within R (runSu ctx) := by
  have hsucceed : ∀ {target : String} {o : Outcome}, Job.Within R (do
      Job.act (Act.log .info "auth" s!"su to {target}" ctx.user)
      Job.move (Station.pushSession target)
      pure o) := hR.bind hR.service.log fun _ =>
    hR.bind (Course.move fun _ _ _ hs hrun => hR.idle (Station.idle_pushSession hs hrun)) fun _ => hR.pure _
  refine hR.bind hR.machine fun s => ?_
  refine Course.cond (fun _ => hR.pure _) fun _ => Course.cond (fun _ => hR.pure _) fun _ => ?_
  refine Course.cond (fun _ => hsucceed) fun _ => hR.bind hR.service.askPassword fun e => hR.bind hR.machine fun s => ?_
  exact Course.cond (fun _ => hsucceed) fun _ => hR.bind hR.service.log fun _ => hR.pure _

theorem within_authorizeSudo (hR : Chore ctx.user R)
    (hallow : ∀ s : Station, R s { s with terminal := { s.terminal with sudoAuthorized := true } }) : Job.Within R (authorizeSudo ctx) := by
  refine Course.cond (fun _ => hR.pure _) fun _ => hR.bind hR.machine fun s => ?_
  refine Course.cond (fun _ => hR.bind hR.log fun _ => hR.pure _) fun _ => Course.cond (fun _ => hR.pure _) fun _ => ?_
  refine hR.bind hR.terminal fun t => Course.cond (fun _ => hR.pure _) fun _ => hR.bind hR.askPassword fun e => ?_
  refine hR.bind hR.machine fun s => Course.cond (fun _ => ?_) fun _ => hR.pure _
  exact hR.bind (Course.setTerminal hallow) fun _ => hR.pure _

/-- A command run as root stays within what root may do. -/
theorem within_runSudo (hR : Duty ctx.user R) {run : Job Outcome} (hrun : run.Within R) : Job.Within R (runSudo ctx run) := by
  refine Course.cond (fun _ => hR.pure _) fun _ =>
    hR.bind (within_authorizeSudo hR.service.toChore fun _ => hR.idle Station.idle_terminal) fun ⟨shown, refusal?⟩ => ?_
  cases refusal? with
  | some refusal => exact hR.pure _
  | none =>
    refine hR.bind hR.service.log fun _ => hR.bind hR.terminal fun t => ?_
    refine hR.bind (Course.move fun _ _ _ hs hrun => hR.idle (Station.idle_pushSession hs hrun)) fun _ => ?_
    refine hR.bind (hR.always hrun ?_) fun _ => hR.pure _
    exact hR.leads_map fun _ _ _ hs hrun => hR.idle (Station.idle_closeSession hs hrun)

/-- Whoever does not rule is refused, and nothing is run. -/
theorem runSudo_refused (hR : Duty ctx.user R) {s : Station} {run : Job Outcome} (hu : ctx.user ≠ "")
    (hrules : ¬ s.machine.Rules ctx.user) : (runSudo ctx run s).Within R s := by
  rw [Machine.rules_iff hu, not_or] at hrules
  obtain ⟨hroot, hadmin⟩ := hrules
  have hno : (!s.machine.accounts.isAdmin ctx.user) = true := by simpa using hadmin
  unfold runSudo
  split
  · exact hR.refl s
  · have hauth : authorizeSudo ctx s = (do
        Job.act (Act.log .warning "auth" "sudo refused: not in sudoers" ctx.user)
        return ([], some
          (.fail s!"{ctx.user} is not in the sudoers file. This incident will be reported.")) : Job _) s := by
      unfold authorizeSudo
      rw [if_neg hroot]
      exact congrFun (if_pos hno) s
    show (Progress.bind (authorizeSudo ctx s) _).Within R s
    rw [hauth]
    exact hR.idle ⟨aside_logged.idle⟩

/-! ## Administration -/

theorem within_runUseradd (hR : Chore ctx.user R) : Job.Within R (runUseradd ctx) := by
  unfold runUseradd
  dsimp only
  split
  · refine hR.bind hR.machine fun s => ?_
    split
    · exact hR.pure _
    · refine Course.cond (fun _ => hR.pure _) fun _ => hR.bind (hR.act_rule (.addUser _ (some ctx.user)) ⟨rfl, _, rfl⟩ rfl run_administer) fun _ => ?_
      exact Course.cond (fun _ => hR.pure _) fun _ => hR.pure _
  · exact hR.pure _

theorem within_runUserdel (hR : Chore ctx.user R) : Job.Within R (runUserdel ctx) := by
  unfold runUserdel
  split
  · refine hR.bind hR.machine fun s => ?_
    split
    · exact hR.pure _
    · refine Course.cond (fun _ => hR.pure _) fun _ => hR.bind (hR.act_rule (.deleteUser _ (some ctx.user)) rfl rfl run_administer) fun _ => ?_
      exact Course.cond (fun _ => hR.pure _) fun _ => hR.pure _
  · exact hR.pure _

theorem within_runPasswd (hR : Chore ctx.user R) : Job.Within R (runPasswd ctx) := by
  refine hR.bind hR.machine fun s => Course.cond (fun _ => hR.pure _) fun _ => ?_
  split
  · exact hR.pure _
  · refine hR.bind hR.askPassword fun first => hR.bind hR.askPassword fun second => ?_
    refine Course.cond (fun _ => hR.pure _) fun _ => hR.bind (hR.act_rule (.updateUser _ _ (some ctx.user)) rfl rfl run_administer) fun _ => ?_
    exact Course.cond (fun _ => hR.pure _) fun _ => hR.pure _

theorem within_runGroupadd (hR : Chore ctx.user R) : Job.Within R (runGroupadd ctx) := by
  unfold runGroupadd
  split
  · refine hR.bind hR.machine fun s => ?_
    split
    · exact hR.pure _
    · refine Course.cond (fun _ => hR.pure _) fun _ => hR.bind (hR.act_rule (.addGroup _ _ (some ctx.user)) rfl rfl run_administer) fun _ => ?_
      exact Course.cond (fun _ => hR.pure _) fun _ => hR.pure _
  · exact hR.pure _

theorem within_runGroupdel (hR : Chore ctx.user R) : Job.Within R (runGroupdel ctx) := by
  unfold runGroupdel
  split
  · refine hR.bind hR.machine fun s => ?_
    split
    · exact hR.pure _
    · refine Course.cond (fun _ => hR.pure _) fun _ => hR.bind (hR.act_rule (.deleteGroup _ (some ctx.user)) rfl rfl run_administer) fun _ => ?_
      exact Course.cond (fun _ => hR.pure _) fun _ => hR.pure _
  · exact hR.pure _

theorem within_changeMembership (hR : Chore ctx.user R) {add : Bool} {group user : String} :
    Job.Within R (changeMembership ctx add group user) := by
  refine hR.bind hR.machine fun s => ?_
  split
  · exact hR.pure _
  · refine Course.cond (fun _ => hR.pure _) fun _ => Course.cond (fun _ => hR.pure _) fun _ => ?_
    refine hR.bind ?_ fun _ => Course.cond (fun _ => hR.pure _) fun _ => hR.pure _
    split
    · exact hR.act_rule (.addToGroup _ _ (some ctx.user)) rfl rfl run_administer
    · exact hR.act_rule (.removeFromGroup _ _ (some ctx.user)) rfl rfl run_administer

theorem within_runUsermod (hR : Chore ctx.user R) : Job.Within R (runUsermod ctx) := by
  unfold runUsermod
  split
  · exact within_changeMembership hR
  · exact within_changeMembership hR
  · exact hR.pure _

/-! ## Listing and reading files -/

theorem within_listOne (hR : Course R) {flags : List Char} {arg : String} : Job.Within R (listOne ctx flags arg) := by
  unfold listOne
  dsimp only
  split
  all_goals
    refine hR.bind (by first | exact hR.pure _ | exact within_resolve hR) fun path => hR.bind (within_nodeAt hR) fun n? => ?_
    split
    · exact hR.pure _
    · refine Course.cond (fun _ => hR.bind (hR.ofExcept _) fun _ => hR.pure _) fun _ => hR.bind (hR.ask _) fun contents? => ?_
      split
      · exact hR.pure _
      · exact hR.bind (hR.ofExcept _) fun _ => hR.pure _

theorem within_runLs (hR : Course R) : Job.Within R (runLs ctx) := by
  refine hR.bind (hR.mapM fun ⟨arg, index⟩ => ?_) fun _ => hR.pure _
  exact hR.bind (within_listOne hR) fun ⟨_, _⟩ => hR.pure _

theorem within_showOne (hR : Course R) {arg : String} : Job.Within R (showOne ctx arg) := by
  refine hR.bind (within_resolve hR) fun path => hR.bind (within_fileLines hR) fun lines? => ?_
  split
  · exact hR.pure _
  · refine hR.bind (within_nodeAt hR) fun n? => ?_
    split <;> exact hR.pure _

theorem within_runCat (hR : Course R) : Job.Within R (runCat ctx) :=
  Course.cond (fun _ => hR.pure _) fun _ => hR.bind (hR.mapM fun _ => within_showOne hR) fun _ => hR.pure _

/-! ## Changing files -/

/-- What a sound system holds is text. -/
theorem content_of_nodeAt {n : Node} {path : String} {user? : Option Json}
    (h : ∃ s : Machine, s.Sound ∧ s.nodeAt path user? = .ok (some n)) : ∃ text, n.content = .str text := by
  obtain ⟨s, hs, hn⟩ := h
  obtain ⟨resolved, -, hlook⟩ := bind_ok.1 hn
  obtain ⟨hget, -⟩ := hs.linked.lookup_found hlook
  exact (hs.linked.written (bare_some.2 ⟨n, hget, rfl⟩)).content

theorem within_forOperands (hR : Course R) {operands : List String} {perform : String → Job (Option String)}
    (hp : ∀ arg, Job.Within R (perform arg)) : Job.Within R (forOperands operands perform) :=
  hR.bind (hR.mapM hp) fun _ => hR.pure _

theorem within_makeParents (hR : Chore ctx.user R) {arg : String} : ∀ {names : List String} {current : String},
    Job.Within R (makeParents ctx arg current names)
  | [], _ => hR.pure _
  | name :: rest, current => by
    refine hR.bind (within_nodeAt hR.toCourse) fun n? => ?_
    split
    · refine hR.bind (hR.act_call (.createDirectory current name) trivial rfl) fun _ => ?_
      exact Course.cond (fun _ => within_makeParents hR) fun _ => hR.pure _
    · exact Course.cond (fun _ => within_makeParents hR) fun _ => hR.pure _

theorem within_makeOne (hR : Chore ctx.user R) {flags : List Char} {arg : String} : Job.Within R (makeOne ctx flags arg) := by
  refine hR.bind (within_resolve hR.toCourse) fun path => ?_
  refine Course.cond (fun _ => within_makeParents hR) fun _ => ?_
  refine hR.bind (within_pathExists hR.toCourse) fun _ => Course.cond (fun _ => hR.pure _) fun _ => ?_
  refine hR.bind (within_pathExists hR.toCourse) fun _ => Course.cond (fun _ => hR.pure _) fun _ => ?_
  refine hR.bind (hR.act_call (.createDirectory _ _) trivial rfl) fun _ => Course.cond (fun _ => hR.pure _) fun _ => hR.pure _

theorem within_runMkdir (hR : Chore ctx.user R) : Job.Within R (runMkdir ctx) :=
  Course.cond (fun _ => hR.pure _) fun _ => within_forOperands hR.toCourse fun _ => within_makeOne hR

theorem within_touchOne (hR : Chore ctx.user R) {arg : String} : Job.Within R (touchOne ctx arg) := by
  refine hR.bind (within_resolve hR.toCourse) fun path => hR.asked fun n? hn => ?_
  cases n? with
  | some n =>
    obtain ⟨text, htext⟩ := content_of_nodeAt hn
    refine Course.cond (fun _ => hR.pure _) fun _ => ?_
    rw [htext]
    refine hR.bind (hR.act_call (.writeFile path text) trivial rfl) fun _ => Course.cond (fun _ => hR.pure _) fun _ => hR.pure _
  | none =>
    refine hR.bind (within_pathExists hR.toCourse) fun _ => Course.cond (fun _ => hR.pure _) fun _ => ?_
    refine hR.bind (hR.act_call (.createFile _ _ "" none) rfl rfl) fun _ => Course.cond (fun _ => hR.pure _) fun _ => hR.pure _

theorem within_runTouch (hR : Chore ctx.user R) : Job.Within R (runTouch ctx) :=
  Course.cond (fun _ => hR.pure _) fun _ => within_forOperands hR.toCourse fun _ => within_touchOne hR

theorem within_removeOne (hR : Chore ctx.user R) {flags : List Char} {trash arg : String} :
    Job.Within R (removeOne ctx flags trash arg) := by
  refine hR.bind (within_resolve hR.toCourse) fun path => hR.bind (within_nodeAt hR.toCourse) fun n? => ?_
  split
  · exact hR.pure _
  · refine Course.cond (fun _ => hR.pure _) fun _ => hR.bind ?_ fun _ => hR.pure _
    split
    · exact hR.act_call (.deleteNode path) trivial rfl
    · exact hR.act_call (.moveToTrash path) trivial rfl

theorem within_runRm (hR : Chore ctx.user R) : Job.Within R (runRm ctx) :=
  Course.cond (fun _ => hR.pure _) fun _ => hR.bind (hR.ask _) fun _ =>
    within_forOperands hR.toCourse fun _ => within_removeOne hR

theorem within_runEmptytrash (hR : Chore ctx.user R) : Job.Within R (runEmptytrash ctx) :=
  hR.bind (hR.act_call .emptyTrash trivial rfl) fun _ => hR.pure _

theorem within_runMv (hR : Chore ctx.user R) : Job.Within R (runMv ctx) := by
  unfold runMv
  split
  · refine hR.bind (within_resolve hR.toCourse) fun source => hR.bind (within_resolve hR.toCourse) fun dest => ?_
    refine hR.bind (within_nodeAt hR.toCourse) fun n? => ?_
    split
    · exact hR.pure _
    · refine Course.cond (fun _ => hR.pure _) fun _ => hR.bind (within_nodeAt hR.toCourse) fun _ => ?_
      refine Course.cond (fun _ => hR.pure _) fun _ => hR.bind (hR.act_call (.moveNode source dest) trivial rfl) fun _ => ?_
      exact Course.cond (fun _ => hR.pure _) fun _ => hR.pure _
  · exact hR.pure _

theorem within_copyOver (hR : Chore ctx.user R) {n existing : Node} {sourceArg destArg target : String}
    (hn : ∃ text, n.content = .str text) : Job.Within R (copyOver ctx n existing sourceArg destArg target) := by
  obtain ⟨text, htext⟩ := hn
  refine Course.cond (fun _ => hR.pure _) fun _ => Course.cond (fun _ => hR.pure _) fun _ => ?_
  rw [htext]
  refine hR.bind (hR.act_call (.writeFile target text) trivial rfl) fun _ => Course.cond (fun _ => hR.pure _) fun _ => hR.pure _

theorem within_runCp (hR : Chore ctx.user R) : Job.Within R (runCp ctx) := by
  unfold runCp
  dsimp only
  split
  · refine hR.bind (within_resolve hR.toCourse) fun source => hR.asked fun n? hn => ?_
    cases n? with
    | none => exact hR.pure _
    | some n =>
      refine Course.cond (fun _ => hR.pure _) fun _ => hR.bind (hR.ask _) fun _ => Course.cond (fun _ => hR.pure _) fun _ => ?_
      refine hR.bind (within_resolve hR.toCourse) fun dest => hR.bind (within_nodeAt hR.toCourse) fun dest? => ?_
      refine hR.bind (within_pathExists hR.toCourse) fun _ => Course.cond (fun _ => hR.pure _) fun _ => ?_
      refine hR.bind (within_nodeAt hR.toCourse) fun existing? => ?_
      split
      · exact within_copyOver hR (content_of_nodeAt hn)
      · refine hR.bind (hR.act_call (.copyById _ _ (some _)) trivial rfl) fun _ => ?_
        exact Course.cond (fun _ => hR.pure _) fun _ => hR.pure _
  · exact hR.pure _

theorem within_changeOne (hR : Chore ctx.user R) {name refusal : String} {change : String → Act Bool} {arg : String}
    (hc : ∀ path, Job.Within R (Job.act (change path))) : Job.Within R (changeOne ctx name refusal change arg) := by
  refine hR.bind (within_resolve hR.toCourse) fun path => hR.bind (hR.ask _) fun _ => Course.cond (fun _ => hR.pure _) fun _ => ?_
  exact hR.bind (hc path) fun _ => Course.cond (fun _ => hR.pure _) fun _ => hR.pure _

theorem within_runChmod (hR : Chore ctx.user R) : Job.Within R (runChmod ctx) := by
  unfold runChmod
  split
  · split
    · exact hR.pure _
    · exact within_forOperands hR.toCourse fun _ => within_changeOne hR fun path => hR.act_call (.chmod path _) trivial rfl
  · exact hR.pure _

theorem within_runChown (hR : Chore ctx.user R) : Job.Within R (runChown ctx) := by
  unfold runChown
  split
  · refine hR.bind hR.machine fun s => Course.cond (fun _ => hR.pure _) fun _ => Course.cond (fun _ => hR.pure _) fun _ => ?_
    exact within_forOperands hR.toCourse fun _ => within_changeOne hR fun path => hR.act_call (.chown path _ _) trivial rfl
  · exact hR.pure _

/-! ## Texts -/

theorem within_readAll (hR : Course R) {name : String} : ∀ {args : List String}, Job.Within R (readAll ctx name args)
  | [] => hR.pure _
  | arg :: rest => by
    refine hR.bind ?_ fun lines => ?_
    · refine hR.bind (within_resolve hR) fun path => hR.bind (within_fileLines hR) fun lines? => ?_
      split
      · exact hR.pure _
      · refine hR.bind (within_nodeAt hR) fun n? => ?_
        split <;> exact hR.pure _
    · split
      · exact hR.pure _
      · exact hR.bind (within_readAll hR) fun _ => hR.pure _

theorem within_inputLines (hR : Course R) {name : String} {operands : List String} :
    Job.Within R (inputLines ctx name operands) := Course.cond (fun _ => hR.pure _) fun _ => within_readAll hR

theorem within_runGrep (hR : Course R) : Job.Within R (runGrep ctx) := by
  unfold runGrep
  dsimp only
  split
  · exact hR.pure _
  · refine hR.bind (hR.ofExcept _) fun pattern? => ?_
    split
    · exact hR.pure _
    · refine Course.cond (fun _ => hR.pure _) fun _ => hR.bind (within_inputLines hR) fun lines => ?_
      split <;> exact hR.pure _

theorem within_runSelection (hR : Course R) {name : String} {select : Nat → List String → List String} :
    Job.Within R (runSelection ctx name select) := by
  unfold runSelection
  split
  · exact hR.pure _
  · exact hR.fail _
  · refine hR.bind (within_inputLines hR) fun lines => ?_
    split <;> exact hR.pure _

theorem within_runHead (hR : Course R) : Job.Within R (runHead ctx) := within_runSelection hR

theorem within_runTail (hR : Course R) : Job.Within R (runTail ctx) := within_runSelection hR

theorem within_runWc (hR : Course R) : Job.Within R (runWc ctx) := by
  refine hR.bind (within_inputLines hR) fun lines => ?_
  split <;> exact hR.pure _

/-! ## The system -/

theorem within_runUname (hR : Course R) : Job.Within R (runUname ctx) :=
  Course.cond (fun _ => hR.bind (hR.ask _) fun _ => hR.pure _) fun _ => hR.pure _

theorem within_runDmesg (hR : Course R) : Job.Within R (runDmesg ctx) := by
  refine hR.bind hR.machine fun s => ?_
  dsimp only
  split
  · exact hR.pure _
  · split <;> exact hR.pure _
  · exact hR.pure _

theorem within_runReset (hR : Chore ctx.user R) : Job.Within R (runReset ctx) := by
  refine Course.cond (fun _ => hR.pure _) fun huser => hR.bind hR.askText fun e => Course.cond (fun _ => ?_) fun _ => hR.pure _
  have hroot : ctx.user = rootName := by simpa using huser
  exact hR.bind (hR.act_perform .reset hroot fun _ => .inr (.inl hroot)) fun _ => hR.pure _

theorem still_aside {t : Tree} {a : Accounts} {s s' : Machine} (h : s.tree = t ∧ s.accounts = a) (ha : s.Aside s') :
    s'.tree = t ∧ s'.accounts = a := by
  rw [ha.same]
  exact h

theorem still_flush {t : Tree} {a : Accounts} : Act.Keeps (fun s => s.tree = t ∧ s.accounts = a) Act.flush :=
  fun _ _ _ h hrun => still_aside h (Act.aside_flush hrun)

theorem still_logout {t : Tree} {a : Accounts} : Act.Keeps (fun s => s.tree = t ∧ s.accounts = a) Machine.logout := by
  refine Act.keeps_read fun s => Act.keeps_bind ?_ fun _ => ?_
  · exact Act.keeps_bind (Act.keeps_modify fun _ h => h) fun _ => still_flush
  · split
    · exact Act.keeps_pure _
    · exact Act.keeps_log fun h ha => still_aside h ha

theorem within_runDevUnlock (hR : Chore ctx.user R) : Job.Within R (runDevUnlock ctx) := by
  refine hR.bind hR.machine fun s => Course.cond (fun _ => hR.pure _) fun _ => ?_
  refine hR.bind (hR.act_idle fun {s s' r} hrun => ?_) fun _ => hR.bind hR.machine fun s => hR.bind hR.log fun _ => hR.pure _
  rw [run_bind, run_modify] at hrun
  have htoggled : s.Idle { s with developerMode := !s.developerMode } := ⟨rfl, .refl⟩
  exact htoggled.trans (Act.aside_flush hrun).idle

/-! ## The terminal itself -/

theorem within_runCd (hR : Course R) : Job.Within R (runCd ctx) := by
  refine hR.bind (within_resolve hR) fun path => hR.bind (within_nodeAt hR) fun n? => ?_
  split
  · exact hR.pure _
  · refine Course.cond (fun _ => hR.pure _) fun _ => hR.bind (hR.ask _) fun _ => ?_
    exact Course.cond (fun _ => hR.pure _) fun _ => hR.pure _

theorem within_closeWindow {user : String} (hR : Chore user R) : Job.Within R closeWindow := by
  refine hR.bind hR.terminal fun t => Course.cond (fun _ => ?_) fun _ => hR.pure _
  exact hR.bind (Course.setTerminal fun _ => hR.quiet ⟨Station.still_terminal rfl rfl, rfl, rfl, rfl⟩) fun _ => hR.pure _

theorem within_closeTop (hR : Service ctx.user R) : Job.Within R closeTop :=
  hR.discard (Course.move hR.leave)

theorem within_runExit (hR : Service ctx.user R) : Job.Within R (runExit ctx) := by
  refine hR.bind hR.terminal fun t => Course.cond (fun _ => ?_) fun _ => ?_
  · exact hR.bind (within_closeWindow hR.toChore) fun _ => Course.cond (fun _ => hR.pure _) fun _ => hR.pure _
  · exact hR.bind (within_closeTop hR) fun _ => hR.pure _

theorem within_runLogout (hR : Service ctx.user R) : Job.Within R (runLogout ctx) := by
  refine hR.bind hR.terminal fun t => Course.cond (fun _ => ?_) fun _ => ?_
  · exact hR.bind (within_closeTop hR) fun _ => hR.pure _
  · refine hR.bind (hR.act_beside .logout trivial fun _ _ => still_logout) fun _ => ?_
    exact hR.bind (hR.discard (within_closeWindow hR.toChore)) fun _ => hR.pure _

theorem within_runHelp (hR : Course R) : Job.Within R (runHelp ctx) := by
  unfold runHelp
  split
  · exact hR.pure _
  · split <;> exact hR.pure _

end Command

end SimUnix
