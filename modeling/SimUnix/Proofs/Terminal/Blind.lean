/-
No command and no line looks at a password on its way to the next question: on systems that differ in a
password only it does and prints the same. Only `su`, `sudo` and `passwd` make use of passwords, and each of
them asks first.
-/
import SimUnix.Proofs.Terminal.Twin
import SimUnix.Proofs.Terminal.Watch

namespace SimUnix

open Machine Shell Job.Abreast

variable {target : String} {α : Type}

namespace Command

variable {ctx : Context}

/-! ## Questions of commands -/

theorem blind_resolve {path : String} : Job.Blind target (ctx.resolve path) := ask fun h => h.resolve ..

theorem blind_nodeAt {path : String} : Job.Blind target (ctx.nodeAt path) := ask fun h => h.nodeAt ..

theorem blind_pathExists {path : String} : Job.Blind target (ctx.pathExists path) := ask fun h => h.pathExists ..

theorem blind_fileLines {path : String} : Job.Blind target (ctx.fileLines? path) := by
  refine (ask fun h => h.fileContent ..).bind fun content? => ?_
  split
  · exact .pure _
  · exact (ofExcept _).bind fun _ => .pure _

theorem blind_log {level : Level} {source message : String} {user : Json} :
    Job.Blind target (Job.act (Act.log level source message user)) := act (Act.blind_log ..)

theorem blind_pushSession {user : String} : Job.Blind target (Job.move (Station.pushSession user)) := move Station.blind_pushSession

/-! ## Users and groups -/

theorem numbersLine_twin {a b : Accounts} {u v : User} (hab : a.Twin target b) (huv : u.Twin v) :
    numbersLine b v = numbersLine a u := by
  unfold numbersLine
  rw [hab.sortedGroups]
  have hname := huv.same User.name fun _ => rfl
  have huid := huv.same User.uid fun _ => rfl
  have hgid := huv.same User.gid fun _ => rfl
  have hgroups := huv.same User.groups fun _ => rfl
  simp only [hab.groupName, hname, huid, hgid, hgroups]

theorem blind_runId : Job.Blind target (runId ctx) := .machine fun h => by
  dsimp only
  rcases h.accounts.user? (ctx.args.headD ctx.user) with ⟨ha, hb⟩ | ⟨u, v, ha, hb, huv⟩
  · rw [ha, hb]
    exact .cond (fun _ => .pure _) fun _ => .pure _
  · rw [ha, hb]
    dsimp only
    rw [numbersLine_twin h.accounts huv]
    exact (ofExcept _).bind fun _ => .pure _

theorem blind_runGroups : Job.Blind target (runGroups ctx) := .machine fun h => by
  rcases h.accounts.user? (ctx.args.headD ctx.user) with ⟨ha, hb⟩ | ⟨u, v, ha, hb, huv⟩
  · rw [ha, hb]
    exact .pure _
  · rw [ha, hb]
    dsimp only
    rw [huv.same User.sortedGroups fun _ => rfl]
    exact (ofExcept _).bind fun _ => .pure _

theorem isNone_twin {s s' : Machine} (h : s.Twin target s') (name : Json) :
    (s'.accounts.user? name).isNone = (s.accounts.user? name).isNone := by
  rw [← Option.not_isSome, ← Option.not_isSome, h.accounts.isSome]

/-! ## Acting as someone else -/

/-- Where a password is needed, it is asked for first. -/
theorem blind_runSu : Job.Blind target (runSu ctx) := .machine fun h => by
  rw [isNone_twin h, h.safeMode]
  refine .cond (fun _ => .pure _) fun _ => .cond (fun _ => .pure _) fun _ => .cond (fun _ => ?_) fun _ => asks ..
  exact blind_log.bind fun _ => blind_pushSession.bind fun _ => .pure _

theorem blind_authorizeSudo : Job.Blind target (authorizeSudo ctx) := by
  refine .cond (fun _ => .pure _) fun _ => .machine fun h => ?_
  rw [h.accounts.isAdmin, h.safeMode]
  refine .cond (fun _ => blind_log.bind fun _ => .pure _) fun _ => .cond (fun _ => .pure _) fun _ => ?_
  exact terminal.bind fun t => .cond (fun _ => .pure _) fun _ => asks ..

theorem blind_runSudo {run : Job Outcome} (hrun : Job.Blind target run) : Job.Blind target (runSudo ctx run) := by
  refine .cond (fun _ => .pure _) fun _ => blind_authorizeSudo.bind fun ⟨shown, refusal?⟩ => ?_
  cases refusal? with
  | some refusal => exact .pure _
  | none =>
    refine blind_log.bind fun _ => terminal.bind fun t => blind_pushSession.bind fun _ => ?_
    exact (hrun.always Station.blind_closeSession.discard).bind fun _ => .pure _

/-! ## Administration -/

theorem refusal_twin {s s' : Machine} (h : s.Twin target s') (name : String) : refusal? ctx name s' = refusal? ctx name s := by
  unfold refusal?
  rw [h.safeMode, h.accounts.isAdmin]

theorem blind_runUseradd : Job.Blind target (runUseradd ctx) := by
  unfold runUseradd
  dsimp only
  split
  · refine .machine fun h => ?_
    rw [refusal_twin h, h.accounts.isSome]
    split
    · exact .pure _
    · refine .cond (fun _ => .pure _) fun _ => (act blind_addUser).bind fun _ => ?_
      exact .cond (fun _ => .pure _) fun _ => .pure _
  · exact .pure _

theorem blind_runUserdel : Job.Blind target (runUserdel ctx) := by
  unfold runUserdel
  split
  · refine .machine fun h => ?_
    rw [refusal_twin h, isNone_twin h]
    split
    · exact .pure _
    · refine .cond (fun _ => .pure _) fun _ => (act blind_deleteUser).bind fun _ => ?_
      exact .cond (fun _ => .pure _) fun _ => .pure _
  · exact .pure _

theorem blind_runPasswd : Job.Blind target (runPasswd ctx) := .machine fun h => by
  rw [isNone_twin h, refusal_twin h]
  refine .cond (fun _ => .pure _) fun _ => ?_
  split
  · exact .pure _
  · exact asks ..

theorem blind_runGroupadd : Job.Blind target (runGroupadd ctx) := by
  unfold runGroupadd
  split
  · refine .machine fun h => ?_
    rw [refusal_twin h, h.accounts.group?]
    split
    · exact .pure _
    · refine .cond (fun _ => .pure _) fun _ => (act blind_addGroup).bind fun _ => ?_
      exact .cond (fun _ => .pure _) fun _ => .pure _
  · exact .pure _

theorem blind_runGroupdel : Job.Blind target (runGroupdel ctx) := by
  unfold runGroupdel
  split
  · refine .machine fun h => ?_
    rw [refusal_twin h, h.accounts.group?]
    split
    · exact .pure _
    · refine .cond (fun _ => .pure _) fun _ => (act blind_deleteGroup).bind fun _ => ?_
      exact .cond (fun _ => .pure _) fun _ => .pure _
  · exact .pure _

theorem blind_changeMembership {add : Bool} {group user : String} : Job.Blind target (changeMembership ctx add group user) :=
  .machine fun h => by
    rw [refusal_twin h, isNone_twin h, h.accounts.group?]
    split
    · exact .pure _
    · refine .cond (fun _ => .pure _) fun _ => .cond (fun _ => .pure _) fun _ => ?_
      refine Job.Abreast.bind ?_ fun _ => .cond (fun _ => .pure _) fun _ => .pure _
      split
      · exact act blind_addToGroup
      · exact act blind_removeFromGroup

theorem blind_runUsermod : Job.Blind target (runUsermod ctx) := by
  unfold runUsermod
  split
  · exact blind_changeMembership
  · exact blind_changeMembership
  · exact .pure _

/-! ## Listing and reading files -/

theorem blind_listOne {flags : List Char} {arg : String} : Job.Blind target (listOne ctx flags arg) := by
  unfold listOne
  dsimp only
  split
  all_goals
    refine Job.Abreast.bind (by first | exact .pure _ | exact blind_resolve) fun path => blind_nodeAt.bind fun n? => ?_
    split
    · exact .pure _
    · refine .cond (fun _ => (ofExcept _).bind fun _ => .pure _) fun _ => (ask fun h => h.listDirectory ..).bind fun contents? => ?_
      split
      · exact .pure _
      · exact (ofExcept _).bind fun _ => .pure _

theorem blind_runLs : Job.Blind target (runLs ctx) := by
  refine (mapM (fun ⟨arg, index⟩ => ?_) _).bind fun _ => .pure _
  exact blind_listOne.bind fun ⟨_, _⟩ => .pure _

theorem blind_showOne {arg : String} : Job.Blind target (showOne ctx arg) := by
  refine blind_resolve.bind fun path => blind_fileLines.bind fun lines? => ?_
  split
  · exact .pure _
  · refine blind_nodeAt.bind fun n? => ?_
    split <;> exact .pure _

theorem blind_runCat : Job.Blind target (runCat ctx) :=
  .cond (fun _ => .pure _) fun _ => (mapM (fun _ => blind_showOne) _).bind fun _ => .pure _

/-! ## Changing files -/

theorem blind_forOperands {operands : List String} {perform : String → Job (Option String)}
    (hp : ∀ arg, Job.Blind target (perform arg)) : Job.Blind target (forOperands operands perform) :=
  (mapM hp _).bind fun _ => .pure _

theorem blind_makeParents {arg : String} : ∀ {names : List String} {current : String},
    Job.Blind target (makeParents ctx arg current names)
  | [], _ => .pure _
  | name :: rest, current => by
    refine blind_nodeAt.bind fun n? => ?_
    split
    · refine (act blind_createNode).bind fun _ => .cond (fun _ => blind_makeParents) fun _ => .pure _
    · exact .cond (fun _ => blind_makeParents) fun _ => .pure _

theorem blind_makeOne {flags : List Char} {arg : String} : Job.Blind target (makeOne ctx flags arg) := by
  refine blind_resolve.bind fun path => .cond (fun _ => blind_makeParents) fun _ => ?_
  refine blind_pathExists.bind fun _ => .cond (fun _ => .pure _) fun _ => ?_
  refine blind_pathExists.bind fun _ => .cond (fun _ => .pure _) fun _ => ?_
  exact (act blind_createNode).bind fun _ => .cond (fun _ => .pure _) fun _ => .pure _

theorem blind_runMkdir : Job.Blind target (runMkdir ctx) :=
  .cond (fun _ => .pure _) fun _ => blind_forOperands fun _ => blind_makeOne

theorem blind_touchOne {arg : String} : Job.Blind target (touchOne ctx arg) := by
  refine blind_resolve.bind fun path => blind_nodeAt.bind fun n? => ?_
  split
  · refine .cond (fun _ => .pure _) fun _ => (act blind_overwriteFile).bind fun _ => ?_
    exact .cond (fun _ => .pure _) fun _ => .pure _
  · refine blind_pathExists.bind fun _ => .cond (fun _ => .pure _) fun _ => (act blind_createNode).bind fun _ => ?_
    exact .cond (fun _ => .pure _) fun _ => .pure _

theorem blind_runTouch : Job.Blind target (runTouch ctx) :=
  .cond (fun _ => .pure _) fun _ => blind_forOperands fun _ => blind_touchOne

theorem blind_removeOne {flags : List Char} {trash arg : String} : Job.Blind target (removeOne ctx flags trash arg) := by
  refine blind_resolve.bind fun path => blind_nodeAt.bind fun n? => ?_
  split
  · exact .pure _
  · refine .cond (fun _ => .pure _) fun _ => Job.Abreast.bind ?_ fun _ => .pure _
    split
    · exact act blind_deleteNode
    · exact act blind_moveToTrash

theorem blind_runRm : Job.Blind target (runRm ctx) :=
  .cond (fun _ => .pure _) fun _ => (ask fun h => h.trashPath _).bind fun _ => blind_forOperands fun _ => blind_removeOne

theorem blind_runEmptytrash : Job.Blind target (runEmptytrash ctx) := (act blind_emptyTrash).bind fun _ => .pure _

theorem blind_runMv : Job.Blind target (runMv ctx) := by
  unfold runMv
  split
  · refine blind_resolve.bind fun source => blind_resolve.bind fun dest => blind_nodeAt.bind fun n? => ?_
    split
    · exact .pure _
    · refine .cond (fun _ => .pure _) fun _ => blind_nodeAt.bind fun _ => .cond (fun _ => .pure _) fun _ => ?_
      exact (act blind_moveNode).bind fun _ => .cond (fun _ => .pure _) fun _ => .pure _
  · exact .pure _

theorem blind_copyOver {n existing : Node} {sourceArg destArg place : String} :
    Job.Blind target (copyOver ctx n existing sourceArg destArg place) := by
  refine .cond (fun _ => .pure _) fun _ => .cond (fun _ => .pure _) fun _ => ?_
  exact (act blind_overwriteFile).bind fun _ => .cond (fun _ => .pure _) fun _ => .pure _

theorem blind_runCp : Job.Blind target (runCp ctx) := by
  unfold runCp
  dsimp only
  split
  · refine blind_resolve.bind fun source => blind_nodeAt.bind fun n? => ?_
    split
    · exact .pure _
    · refine .cond (fun _ => .pure _) fun _ => (ask fun h => h.can ..).bind fun _ => .cond (fun _ => .pure _) fun _ => ?_
      refine blind_resolve.bind fun dest => blind_nodeAt.bind fun dest? => ?_
      refine blind_pathExists.bind fun _ => .cond (fun _ => .pure _) fun _ => blind_nodeAt.bind fun existing? => ?_
      split
      · exact blind_copyOver
      · exact (act blind_copyById).bind fun _ => .cond (fun _ => .pure _) fun _ => .pure _
  · exact .pure _

theorem blind_changeOne {name refusal : String} {change : String → Act Bool} {arg : String}
    (hc : ∀ path, Act.Blind target (change path)) : Job.Blind target (changeOne ctx name refusal change arg) := by
  refine blind_resolve.bind fun path => (ask fun h => h.obstacle? ..).bind fun _ => .cond (fun _ => .pure _) fun _ => ?_
  exact (act (hc path)).bind fun _ => .cond (fun _ => .pure _) fun _ => .pure _

theorem blind_runChmod : Job.Blind target (runChmod ctx) := by
  unfold runChmod
  split
  · split
    · exact .pure _
    · exact blind_forOperands fun _ => blind_changeOne fun _ => blind_chmod
  · exact .pure _

theorem blind_runChown : Job.Blind target (runChown ctx) := by
  unfold runChown
  split
  · refine .machine fun h => ?_
    simp only [isNone_twin h, h.accounts.group?]
    refine .cond (fun _ => .pure _) fun _ => .cond (fun _ => .pure _) fun _ => ?_
    exact blind_forOperands fun _ => blind_changeOne fun _ => blind_chown
  · exact .pure _

/-! ## Texts -/

theorem blind_readAll {name : String} : ∀ {args : List String}, Job.Blind target (readAll ctx name args)
  | [] => .pure _
  | arg :: rest => by
    refine Job.Abreast.bind ?_ fun lines => ?_
    · refine blind_resolve.bind fun path => blind_fileLines.bind fun lines? => ?_
      split
      · exact .pure _
      · refine blind_nodeAt.bind fun n? => ?_
        split <;> exact .pure _
    · split
      · exact .pure _
      · exact blind_readAll.bind fun _ => .pure _

theorem blind_inputLines {name : String} {operands : List String} : Job.Blind target (inputLines ctx name operands) :=
  .cond (fun _ => .pure _) fun _ => blind_readAll

theorem blind_runGrep : Job.Blind target (runGrep ctx) := by
  unfold runGrep
  dsimp only
  split
  · exact .pure _
  · refine (ofExcept _).bind fun pattern? => ?_
    split
    · exact .pure _
    · refine .cond (fun _ => .pure _) fun _ => blind_inputLines.bind fun lines => ?_
      split <;> exact .pure _

theorem blind_runSelection {name : String} {select : Nat → List String → List String} :
    Job.Blind target (runSelection ctx name select) := by
  unfold runSelection
  split
  · exact .pure _
  · exact .fail _
  · refine blind_inputLines.bind fun lines => ?_
    split <;> exact .pure _

theorem blind_runHead : Job.Blind target (runHead ctx) := blind_runSelection

theorem blind_runTail : Job.Blind target (runTail ctx) := blind_runSelection

theorem blind_runWc : Job.Blind target (runWc ctx) := by
  refine blind_inputLines.bind fun lines => ?_
  split <;> exact .pure _

/-! ## The system -/

theorem blind_hostname : Job.Blind target (Job.ask Machine.hostname) := ask fun h => h.hostname

theorem blind_runUname : Job.Blind target (runUname ctx) :=
  .cond (fun _ => blind_hostname.bind fun _ => .pure _) fun _ => .pure _

theorem blind_runDate (ctx : Context) : Job.Blind target (runDate ctx) := .machine fun h => by
  rw [h.now]
  exact .pure _

theorem blind_runDmesg : Job.Blind target (runDmesg ctx) := .machine fun h => by
  rw [h.log]
  dsimp only
  split
  · exact .pure _
  · split <;> exact .pure _
  · exact .pure _

theorem blind_runReset : Job.Blind target (runReset ctx) := .cond (fun _ => .pure _) fun _ => asks ..

theorem blind_runDevUnlock : Job.Blind target (runDevUnlock ctx) := .machine fun h => by
  rw [h.accounts.isAdmin]
  refine .cond (fun _ => .pure _) fun _ => (act (blind_toggle.bind fun _ => Act.blind_flush)).bind fun _ => .machine fun h => ?_
  rw [h.developerMode]
  exact blind_log.bind fun _ => .pure _

/-! ## The terminal itself -/

theorem blind_runCd : Job.Blind target (runCd ctx) := by
  refine blind_resolve.bind fun path => blind_nodeAt.bind fun n? => ?_
  split
  · exact .pure _
  · refine .cond (fun _ => .pure _) fun _ => (ask fun h => h.can ..).bind fun _ => ?_
    exact .cond (fun _ => .pure _) fun _ => .pure _

theorem blind_closeWindow : Job.Blind target closeWindow := by
  refine terminal.bind fun t => .cond (fun _ => ?_) fun _ => .pure _
  exact (setTerminal _).bind fun _ => .pure _

theorem blind_closeTop : Job.Blind target closeTop := (move Station.blind_closeSession).discard

theorem blind_runExit (ctx : Context) : Job.Blind target (runExit ctx) := by
  refine terminal.bind fun t => .cond (fun _ => ?_) fun _ => ?_
  · exact blind_closeWindow.bind fun _ => .cond (fun _ => .pure _) fun _ => .pure _
  · exact blind_closeTop.bind fun _ => .pure _

theorem blind_runLogout (ctx : Context) : Job.Blind target (runLogout ctx) := by
  refine terminal.bind fun t => .cond (fun _ => ?_) fun _ => ?_
  · exact blind_closeTop.bind fun _ => .pure _
  · exact (act blind_logout).bind fun _ => blind_closeWindow.discard.bind fun _ => .pure _

theorem blind_runHelp : Job.Blind target (runHelp ctx) := by
  unfold runHelp
  split
  · exact .pure _
  · split <;> exact .pure _

end Command

/-! ## Steps -/

namespace Shell

variable {ctx : Context}

theorem blind_runCommand {runAgain : Step → Job Outcome} (hagain : ∀ step, Job.Blind target (runAgain step)) {c : Command} :
    Job.Blind target (runCommand runAgain ctx c) := by
  cases c with
  | whoami => exact .pure _
  | identify => exact Command.blind_runId
  | groups => exact Command.blind_runGroups
  | su => exact Command.blind_runSu
  | asRoot => exact Command.blind_runSudo (hagain _)
  | useradd => exact Command.blind_runUseradd
  | userdel => exact Command.blind_runUserdel
  | passwd => exact Command.blind_runPasswd
  | groupadd => exact Command.blind_runGroupadd
  | groupdel => exact Command.blind_runGroupdel
  | usermod => exact Command.blind_runUsermod
  | ls => exact Command.blind_runLs
  | cat => exact Command.blind_runCat
  | pwd => exact .pure _
  | mkdir => exact Command.blind_runMkdir
  | touch => exact Command.blind_runTouch
  | rm => exact Command.blind_runRm
  | emptytrash => exact Command.blind_runEmptytrash
  | mv => exact Command.blind_runMv
  | cp => exact Command.blind_runCp
  | chmod => exact Command.blind_runChmod
  | chown => exact Command.blind_runChown
  | hostname => exact Command.blind_hostname.bind fun _ => .pure _
  | date => exact Command.blind_runDate ctx
  | uname => exact Command.blind_runUname
  | succeed => exact .pure _
  | failing => exact .pure _
  | clear => exact .pure _
  | history => exact terminal.bind fun _ => .pure _
  | dmesg => exact Command.blind_runDmesg
  | reset => exact Command.blind_runReset
  | echo => exact .pure _
  | grep => exact Command.blind_runGrep
  | head => exact Command.blind_runHead
  | tail => exact Command.blind_runTail
  | wc => exact Command.blind_runWc
  | cd => exact Command.blind_runCd
  | exit => exact Command.blind_runExit ctx
  | logout => exact Command.blind_runLogout ctx
  | help => exact Command.blind_runHelp
  | devUnlock => exact Command.blind_runDevUnlock

theorem blind_launch {app : String} : Job.Blind target (launch ctx app) := by
  refine terminal.bind fun t => ?_
  split
  · exact (setTerminal _).bind fun _ => .pure _
  · exact .pure _

section

variable {s s' : Machine} (h : s.Twin target s')

include h

theorem isExecutable_twin (user : String) (n : Node) : isExecutable s' user n = isExecutable s user n := by
  unfold isExecutable
  rw [h.can]

theorem searchIn_twin (user word : String) : ∀ dirs : List String, searchIn s' user word dirs = searchIn s user word dirs
  | [] => rfl
  | dir :: rest => by
    unfold searchIn
    rw [h.nodeAt]
    simp only [isExecutable_twin h, searchIn_twin user word rest]

theorem resolve_twin (word user cwd : String) : resolve s' word user cwd = resolve s word user cwd := by
  unfold resolve
  simp only [h.resolve, h.nodeAt, isExecutable_twin h, searchIn_twin h]

theorem expandGlobs_twin (args : List String) (cwd user : String) : expandGlobs s' args cwd user = expandGlobs s args cwd user := by
  unfold expandGlobs namesIn
  rw [h.listDirectory]

end

/-! ## What is done around a step -/

theorem blind_settleDirectory {o : Outcome} : Job.Blind target (settleDirectory o) := by
  unfold settleDirectory
  split
  · exact setTerminal _
  · exact .pure _

theorem blind_redirect {place : Target} {o : Outcome} {shown : List Line} : Job.Blind target (redirect place o shown) := by
  refine terminal.bind fun t => (ask fun h => h.resolve ..).bind fun path => ?_
  dsimp only
  refine (ask fun h => h.nodeAt ..).bind fun existing? => .cond (fun _ => .pure _) fun _ => ?_
  split
  · refine .cond (fun _ => (Job.Abreast.pure _).bind fun _ => ?_) fun _ => (act blind_appendFile).bind fun _ => ?_
    all_goals exact .cond (fun _ => .pure _) fun _ => .pure _
  · exact (act blind_overwriteFile).bind fun _ => .cond (fun _ => .pure _) fun _ => .pure _

end Shell

namespace Window

theorem blind_pass {prompt : String} : Job.Blind target (pass prompt) :=
  (move (Station.blind_history (History.blind_add _))).bind fun _ => .pure _

theorem blind_conclude {line prompt : String} {r : Result} : Job.Blind target (conclude line prompt r) := by
  have hadd : ∀ b : Block, Job.Blind target (Job.move (Move.history (History.add b))) :=
    fun b => move (Station.blind_history (History.blind_add b))
  unfold conclude
  dsimp only
  split
  · refine (move (Station.blind_history History.blind_clear)).bind fun _ => ?_
    split
    · exact (hadd _).bind fun _ => .pure _
    · exact .pure _
  · split
    · exact (hadd _).bind fun _ => .pure _
    · exact .pure _

end Window

end SimUnix
