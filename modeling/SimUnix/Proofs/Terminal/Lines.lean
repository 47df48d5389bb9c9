/-
What a command line does to the system. A line is made of steps, each run for the user who acts when
its turn comes, of redirections, which write for that user, and of what the terminal does beside the
tree.
-/
import SimUnix.Proofs.Terminal.Commands

namespace SimUnix

open Shell Station

/-! ## Jobs made of parts -/

/-- A job that is put together from some parts. -/
inductive Job.Made (Part : (α : Type) → Job α → Prop) : {α : Type} → Job α → Prop
  | pure {α : Type} (a : α) : Job.Made Part (Pure.pure a : Job α)
  | part {α : Type} {job : Job α} (h : Part α job) : Job.Made Part job
  | bind {α β : Type} {job : Job α} {f : α → Job β} (hj : Job.Made Part job) (hf : ∀ a, Job.Made Part (f a)) :
      Job.Made Part (job >>= f)

/-- A job whose parts all stay within a course does so, too. -/
theorem Job.Made.within {Part : (α : Type) → Job α → Prop} {R : Station → Station → Prop} (hR : Course R)
    (hP : ∀ {α : Type} {job : Job α}, Part α job → job.Within R) {α : Type} {job : Job α} (h : Job.Made Part job) :
    job.Within R := by
  induction h with
  | pure a => exact hR.pure a
  | part h => exact hP h
  | bind _ _ ih ih' => exact hR.bind ih ih'

theorem Job.Made.imp {Part Part' : (α : Type) → Job α → Prop} (hP : ∀ {α : Type} {job : Job α}, Part α job → Part' α job)
    {α : Type} {job : Job α} (h : Job.Made Part job) : Job.Made Part' job := by
  induction h with
  | pure a => exact .pure a
  | part h => exact .part (hP h)
  | bind _ _ ih ih' => exact .bind ih ih'

/-- The parts of a command line. -/
inductive LinePart : (α : Type) → Job α → Prop
  /-- What leaves the tree and the users acting alone. -/
  | beside {α : Type} {job : Job α} (h : job.Within Still) : LinePart α job
  /-- A step, run for the acting user. -/
  | step (input : List String) (cwd : String) (toScreen : Bool) (step : Step) : LinePart Outcome (runStep input cwd toScreen step)
  /-- Writing what a step has printed, for the acting user. -/
  | redirect (target : Target) (o : Outcome) (shown : List Line) : LinePart Outcome (redirect target o shown)

namespace Shell

variable {R : Station → Station → Prop}

theorem made_still {α : Type} {job : Job α} (h : job.Within Still) : Job.Made LinePart job := .part (.beside h)

theorem made_runOne {flow : Flow} {toScreen : Bool} {step : Step} : Job.Made LinePart (runOne flow toScreen step) := by
  refine .bind (made_still course_still.terminal) fun t => .bind (.part (.step ..)) fun o => ?_
  split
  · exact .bind (made_still (Course.setTerminal fun _ => still_terminal rfl rfl)) fun _ => .pure _
  · exact .pure _

theorem made_runSteps {flow : Flow} : ∀ {steps : List Step}, Job.Made LinePart (runSteps flow steps)
  | [] => .pure _
  | [step] => by
    unfold runSteps
    refine .bind made_runOne fun o => ?_
    split
    · exact .part (.redirect ..)
    · exact .pure _
  | step :: next :: rest => by
    unfold runSteps
    exact .bind made_runOne fun o => made_runSteps

theorem made_runPipelines {r : Result} : ∀ {pipelines : List Pipeline}, Job.Made LinePart (runPipelines r pipelines)
  | [] => .pure _
  | p :: rest => by
    unfold runPipelines
    refine .bind made_runSteps fun o => ?_
    dsimp only
    split
    · exact .pure _
    · exact made_runPipelines

theorem made_execute {line : String} : Job.Made LinePart (execute line) :=
  .bind (made_still course_still.terminal) fun _ => made_runPipelines

end Shell

namespace Window

theorem still_move {change : Remember Unit} (hc : change.Harmless) : (Job.move (Move.history change)).Within Still :=
  Course.move (still_history hc)

theorem still_receive {line : String} : (receive line).Within Still :=
  course_still.bind (still_move History.harmless_record) fun _ s hs => course_still.ofExcept _ s hs

theorem still_pass {prompt : String} : (pass prompt).Within Still :=
  course_still.bind (still_move History.harmless_add) fun _ => course_still.pure _

theorem still_conclude {line prompt : String} {r : Result} : (conclude line prompt r).Within Still := by
  unfold conclude
  dsimp only
  split
  · refine course_still.bind (still_move History.harmless_clear) fun _ => ?_
    split
    · exact course_still.bind (still_move History.harmless_add) fun _ => course_still.pure _
    · exact course_still.pure _
  · split
    · exact course_still.bind (still_move History.harmless_add) fun _ => course_still.pure _
    · exact course_still.pure _

/-- A command line is made of steps, redirections, and what is done beside the tree. -/
theorem made_startLine {line : String} : Job.Made LinePart (startLine line) := by
  refine .bind (made_still still_receive) fun prompt => ?_
  split
  · exact made_still still_pass
  · exact .bind made_execute fun _ => made_still still_conclude

end Window

/-! ## Parts -/

namespace Shell

variable {R : Station → Station → Prop} {ctx : Context}

/-- A command that neither opens nor closes a session does what the user may do for whom it runs. -/
theorem chore_runCommand (hR : Chore ctx.user R) {runAgain : Step → Job Outcome} :
    ∀ {c : Command}, c ≠ .su → c ≠ .asRoot → c ≠ .exit → c ≠ .logout → Job.Within R (runCommand runAgain ctx c) := by
  intro c hsu hroot hexit hlogout
  cases c with
  | whoami => exact hR.pure _
  | identify => exact Command.within_runId hR.toCourse
  | groups => exact Command.within_runGroups hR.toCourse
  | su => exact absurd rfl hsu
  | asRoot => exact absurd rfl hroot
  | useradd => exact Command.within_runUseradd hR
  | userdel => exact Command.within_runUserdel hR
  | passwd => exact Command.within_runPasswd hR
  | groupadd => exact Command.within_runGroupadd hR
  | groupdel => exact Command.within_runGroupdel hR
  | usermod => exact Command.within_runUsermod hR
  | ls => exact Command.within_runLs hR.toCourse
  | cat => exact Command.within_runCat hR.toCourse
  | pwd => exact hR.pure _
  | mkdir => exact Command.within_runMkdir hR
  | touch => exact Command.within_runTouch hR
  | rm => exact Command.within_runRm hR
  | emptytrash => exact Command.within_runEmptytrash hR
  | mv => exact Command.within_runMv hR
  | cp => exact Command.within_runCp hR
  | chmod => exact Command.within_runChmod hR
  | chown => exact Command.within_runChown hR
  | hostname => exact hR.bind (hR.ask _) fun _ => hR.pure _
  | date => exact hR.bind hR.machine fun _ => hR.pure _
  | uname => exact Command.within_runUname hR.toCourse
  | succeed => exact hR.pure _
  | failing => exact hR.pure _
  | clear => exact hR.pure _
  | history => exact hR.bind hR.terminal fun _ => hR.pure _
  | dmesg => exact Command.within_runDmesg hR.toCourse
  | reset => exact Command.within_runReset hR
  | echo => exact hR.pure _
  | grep => exact Command.within_runGrep hR.toCourse
  | head => exact Command.within_runHead hR.toCourse
  | tail => exact Command.within_runTail hR.toCourse
  | wc => exact Command.within_runWc hR.toCourse
  | cd => exact Command.within_runCd hR.toCourse
  | exit => exact absurd rfl hexit
  | logout => exact absurd rfl hlogout
  | help => exact Command.within_runHelp hR.toCourse
  | devUnlock => exact Command.within_runDevUnlock hR

/-- A command that does not act as someone else does what the user may do for whom it runs. -/
theorem served_runCommand (hR : Service ctx.user R) {runAgain : Step → Job Outcome} {c : Command} (hsu : c ≠ .su)
    (hroot : c ≠ .asRoot) : Job.Within R (runCommand runAgain ctx c) := by
  by_cases hexit : c = .exit
  · cases hexit
    exact Command.within_runExit hR
  · by_cases hlogout : c = .logout
    · cases hlogout
      exact Command.within_runLogout hR
    · exact chore_runCommand hR.toChore hsu hroot hexit hlogout

/-- A command does what the user may do for whom it runs, if that holds of the command that it runs as
root. -/
theorem within_runCommand (hR : Duty ctx.user R) {runAgain : Step → Job Outcome} {c : Command}
    (hagain : c = .asRoot → ∀ step, (runAgain step).Within R) : Job.Within R (runCommand runAgain ctx c) := by
  by_cases hsu : c = .su
  · cases hsu
    exact Command.within_runSu hR
  · by_cases hroot : c = .asRoot
    · cases hroot
      exact Command.within_runSudo hR (hagain rfl _)
    · exact served_runCommand hR.service hsu hroot

theorem within_launch {user : String} (hR : Chore user R) {app : String} : Job.Within R (launch ctx app) := by
  refine hR.bind hR.terminal fun t => ?_
  split
  · exact hR.bind (Course.setTerminal fun _ => hR.quiet ⟨still_terminal rfl rfl, rfl, rfl, rfl⟩) fun _ => hR.pure _
  · exact hR.pure _

/-- Where every user may do what commands do, steps stay within that. -/
theorem within_runStepIn (hR : ∀ user, Duty user R) {input : List String} {cwd : String} {toScreen : Bool} :
    ∀ {depth : Nat} {step : Step}, Job.Within R (runStepIn input cwd toScreen depth step)
  | 0, _ => (hR "").fail _
  | depth + 1, step => by
    have hC := (hR "").toCourse
    refine hC.bind hC.terminal fun t => hC.bind (hC.ask _) fun found => ?_
    split
    · exact hC.pure _
    · refine hC.bind (hC.ask _) fun args => ?_
      dsimp only
      split
      · exact within_runCommand (hR _) fun _ step => within_runStepIn hR
      · exact within_launch (hR "").service.toChore

/-- A redirection writes for the user who acts. -/
theorem redirect_within {s : Station} (hs : s.Sound) (hR : Scribe s.terminal.user R) {target : Target} {o : Outcome}
    {shown : List Line} : (redirect target o shown s).Within R s := by
  refine Course.terminal_at ((hR.bind (hR.ask _) fun path => ?_ : Job.Within R _) s hs)
  dsimp only
  refine hR.bind (hR.ask _) fun existing? => Course.cond (fun _ => hR.pure _) fun _ => ?_
  split
  · refine Course.cond (fun _ => hR.bind (hR.pure _) fun _ => ?_) fun _ =>
      hR.bind (hR.act_call (.appendFile path _) trivial rfl) fun _ => ?_
    all_goals exact Course.cond (fun _ => hR.pure _) fun _ => hR.pure _
  · refine hR.bind (hR.act_call (.writeFile path _) trivial rfl) fun _ => ?_
    exact Course.cond (fun _ => hR.pure _) fun _ => hR.pure _

/-- A step that a user runs who may not act as root. -/
theorem step_within {s : Station} (hs : s.Sound) (hR : Duty s.terminal.user R) (hu : s.terminal.user ≠ "")
    (hrules : ¬ s.machine.Rules s.terminal.user) {input : List String} {cwd : String} {toScreen : Bool} {depth : Nat}
    {step : Step} : (runStepIn input cwd toScreen depth step s).Within R s := by
  cases depth with
  | zero => exact hR.fail _ s hs
  | succ depth =>
    refine Course.terminal_at (hR.ask_at fun found _ => ?_)
    cases found with
    | error why => exact hR.refl s
    | ok executable =>
      refine hR.ask_at fun args _ => ?_
      cases executable with
      | app id => exact within_launch hR.service.toChore s hs
      | program c =>
        by_cases hc : c = .asRoot
        · cases hc
          exact Command.runSudo_refused hR hu hrules
        · exact within_runCommand hR (fun h => absurd h hc) s hs

end Shell

end SimUnix
