/-
Watching a terminal: which commands its lines begin, for whom and with what, and for which accounts it was
given the right password when a command asked for one. A watched job does what the job itself does, and
tells of every command when it begins.
-/
import SimUnix.Terminal.Window

namespace SimUnix

open Shell

/-! ## Watched jobs -/

/-- A command or an application that begins, and what it is given. -/
structure Begun where
  ctx : Context
  executable : Executable

/-- The account whose password a command asks for before it acts as someone else. -/
def Begun.account? (b : Begun) : Option String :=
  match b.executable with
  | .program .su => some (b.ctx.args.headD rootName)
  | .program .asRoot => some b.ctx.user
  | _ => none

/-- How far a watched job has got. What it begins is told when it begins. -/
inductive Watched (α : Type) where
  | done (result : α) (station : Station)
  | failed (cause : Fault) (station : Station)
  | waiting (station : Station) (resume : Option String → Station → Watched α)
  | begins (command : Begun) (rest : Watched α)

/-- A job under watch. -/
def Watch (α : Type) : Type := Station → Watched α

variable {α β : Type}

namespace Watched

/-- How far the job has got, whatever it has begun. -/
def progress : Watched α → Progress α
  | done a s => .done a s
  | failed e s => .failed e s
  | waiting s resume => .waiting s fun reply s => (resume reply s).progress
  | begins _ rest => rest.progress

/-- A job that begins no command. -/
def ofProgress : Progress α → Watched α
  | .done a s => done a s
  | .failed e s => failed e s
  | .waiting s resume => waiting s fun reply s => ofProgress (resume reply s)

/-- Goes on with another job when this one is done. -/
def bind : Watched α → (α → Watch β) → Watched β
  | done a s, f => f a s
  | failed e s, _ => failed e s
  | waiting s resume, f => waiting s fun reply s => (resume reply s).bind f
  | begins b rest, f => begins b (rest.bind f)

/-- Changes the station when a job is over, whatever way it ended. -/
def always (cleanup : Move Unit) : Watched α → Watched α
  | waiting s resume => waiting s fun reply s => (resume reply s).always cleanup
  | begins b rest => begins b (rest.always cleanup)
  | done a s => ofProgress (Progress.always cleanup (.done a s))
  | failed e s => ofProgress (Progress.always cleanup (.failed e s))

theorem progress_ofProgress : ∀ p : Progress α, (ofProgress p).progress = p
  | .done _ _ => rfl
  | .failed _ _ => rfl
  | .waiting s _ => congrArg (Progress.waiting s) (funext fun _ => funext fun _ => progress_ofProgress _)

theorem progress_bind {f : α → Watch β} : ∀ p : Watched α, (p.bind f).progress = p.progress.bind fun a s => (f a s).progress
  | .done _ _ => rfl
  | .failed _ _ => rfl
  | .waiting s _ => congrArg (Progress.waiting s) (funext fun _ => funext fun _ => progress_bind _)
  | .begins _ rest => progress_bind rest

theorem progress_always {cleanup : Move Unit} : ∀ p : Watched α, (p.always cleanup).progress = p.progress.always cleanup
  | .done _ _ => progress_ofProgress _
  | .failed _ _ => progress_ofProgress _
  | .waiting s _ => congrArg (Progress.waiting s) (funext fun _ => funext fun _ => progress_always _)
  | .begins _ rest => progress_always rest

end Watched

namespace Watch

instance : Monad Watch where
  pure a := fun s => .done a s
  bind w f := fun s => (w s).bind f

/-- A job that begins no command. -/
def ofJob (job : Job α) : Watch α := fun s => .ofProgress (job s)

/-- Tells that a command begins. -/
def begins (b : Begun) : Watch Unit := fun s => .begins b (.done () s)

/-- Changes the station when a job is over, whatever way it ended. -/
def always (w : Watch α) (cleanup : Move Unit) : Watch α := fun s => (w s).always cleanup

/-- The job that is watched. -/
def job (w : Watch α) : Job α := fun s => (w s).progress

theorem job_pure (a : α) : (pure a : Watch α).job = pure a := rfl

theorem job_ofJob (job : Job α) : (ofJob job).job = job := funext fun _ => Watched.progress_ofProgress _

theorem job_bind (w : Watch α) (f : α → Watch β) : (w >>= f).job = w.job >>= fun a => (f a).job :=
  funext fun s => Watched.progress_bind (w s)

theorem job_always (w : Watch α) (cleanup : Move Unit) : (w.always cleanup).job = w.job.always cleanup :=
  funext fun s => Watched.progress_always (w s)

theorem job_begins (b : Begun) (w : Watch α) : (begins b >>= fun _ => w).job = w.job := rfl

end Watch

open Watch

/-! ## Watched lines -/

namespace Command

/-- A command run as root, under watch. -/
def watchSudo (ctx : Context) (run : Watch Outcome) : Watch Outcome := do
  if ctx.args.isEmpty then return .fail asRoot.usageLine
  let (shown, refusal?) ← ofJob (authorizeSudo ctx)
  match refusal? with
  | some refusal => pure (refusal.after shown)
  | none =>
    let line := Text.joinWith " " ctx.args
    ofJob (Job.act (Act.log .info "auth" s!"sudo {line}" ctx.user))
    let depth := (← ofJob Job.terminal).sessions.depth
    ofJob (Job.move (Station.pushSession rootName))
    let o ← run.always (discard (Station.closeSession (some depth)))
    pure (o.after shown)

theorem job_watchSudo (ctx : Context) (run : Watch Outcome) : (watchSudo ctx run).job = runSudo ctx run.job := by
  unfold watchSudo runSudo
  split
  · rfl
  · refine (job_bind _ _).trans ?_
    rw [job_ofJob]
    refine bind_congr fun ⟨shown, refusal?⟩ => ?_
    cases refusal? with
    | some refusal => rfl
    | none => simp only [job_bind, job_ofJob, job_always, job_pure]

end Command

namespace Shell

/-- A command, under watch. -/
def watchCommand (runAgain : Step → Watch Outcome) (ctx : Context) : Command → Watch Outcome
  | .asRoot => Command.watchSudo ctx (runAgain { command := ctx.args.headD "", args := ctx.args.drop 1 })
  | c => ofJob (runCommand (fun step => (runAgain step).job) ctx c)

/-- A step, under watch. -/
def watchStepIn (input : List String) (cwd : String) (toScreen : Bool) : Nat → Step → Watch Outcome
  | 0, _ => ofJob (Job.fail .endless)
  | depth + 1, step => do
    let user := (← ofJob Job.terminal).user
    match ← ofJob (Job.ask fun s => resolve s step.command user cwd) with
    | .error why => pure (.failWith why.code (why.message step.command))
    | .ok executable =>
      let args ← ofJob (Job.ask fun s => expandGlobs s step.args cwd user)
      let ctx : Context := { args, input, user, cwd, toScreen }
      begins { ctx, executable }
      match executable with
      | .program c => watchCommand (watchStepIn input cwd toScreen depth) ctx c
      | .app id => ofJob (launch ctx id)

/-- Moves to the working directory that a command has asked for. -/
def settleDirectory (o : Outcome) : Job Unit :=
  match o.cwd? with
  | some path => Job.setTerminal (·.changeDirectory path)
  | none => pure ()

/-- The step whose turn it is, under watch. -/
def watchOne (flow : Flow) (toScreen : Bool) (step : Step) : Watch Outcome := do
  let o ← watchStepIn flow.input (← ofJob Job.terminal).cwd toScreen maxNesting step
  ofJob (settleDirectory o)
  pure o

/-- The steps of a pipeline, under watch. -/
def watchSteps (flow : Flow) : List Step → Watch Outcome
  | [] => pure { output := flow.shown }
  | [step] => do
    let o ← watchOne flow step.target?.isNone step
    match step.target? with
    | some target => ofJob (redirect target o flow.shown)
    | none => pure (o.after flow.shown)
  | step :: rest => do
    let o ← watchOne flow false step
    watchSteps {
      input := o.output.filterMap pipedText?
      shown := flow.shown ++ o.output.filter (pipedText? · |>.isNone) } rest

/-- Pipelines, under watch. -/
def watchPipelines (r : Result) : List Pipeline → Watch Result
  | [] => pure r
  | p :: rest => do
    let o ← watchSteps {} p.steps
    let r := r.add o
    if cutsShort o.code p.operator? then pure r else watchPipelines r rest

/-- A command line, under watch. -/
def watchExecute (line : String) : Watch Result := do
  let expanded := (← ofJob Job.terminal).env.expand line
  watchPipelines {} (parse expanded)

theorem watchCommand_of_ne {runAgain : Step → Watch Outcome} {ctx : Context} {c : Command} (hc : c ≠ .asRoot) :
    watchCommand runAgain ctx c = ofJob (runCommand (fun step => (runAgain step).job) ctx c) := by
  cases c <;> first | rfl | exact absurd rfl hc

theorem job_watchCommand {runAgain : Step → Watch Outcome} {ctx : Context} {c : Command} :
    (watchCommand runAgain ctx c).job = runCommand (fun step => (runAgain step).job) ctx c := by
  by_cases hc : c = .asRoot
  · cases hc
    exact Command.job_watchSudo ctx _
  · rw [watchCommand_of_ne hc, job_ofJob]

theorem job_watchStepIn {input : List String} {cwd : String} {toScreen : Bool} : ∀ {depth : Nat} {step : Step},
    (watchStepIn input cwd toScreen depth step).job = runStepIn input cwd toScreen depth step
  | 0, _ => rfl
  | depth + 1, step => by
    have hagain : (fun step => (watchStepIn input cwd toScreen depth step).job) = runStepIn input cwd toScreen depth :=
      funext fun step => job_watchStepIn
    unfold watchStepIn runStepIn
    simp only [job_bind, job_ofJob]
    refine bind_congr fun t => bind_congr fun found => ?_
    cases found with
    | error why => rfl
    | ok executable =>
      simp only [job_bind, job_ofJob]
      refine bind_congr fun args => ?_
      cases executable with
      | app id => exact job_ofJob _
      | program c => exact job_watchCommand.trans (by rw [hagain])

theorem job_watchOne {flow : Flow} {toScreen : Bool} {step : Step} : (watchOne flow toScreen step).job = runOne flow toScreen step := by
  unfold watchOne runOne
  simp only [job_bind, job_ofJob, job_watchStepIn, job_pure]
  refine bind_congr fun t => bind_congr fun o => ?_
  unfold settleDirectory
  cases o.cwd? <;> rfl

theorem job_watchSteps : ∀ {steps : List Step} {flow : Flow}, (watchSteps flow steps).job = runSteps flow steps
  | [], _ => rfl
  | [step], flow => by
    unfold watchSteps runSteps
    rw [job_bind, job_watchOne]
    refine bind_congr fun o => ?_
    cases step.target? with
    | some target => exact job_ofJob _
    | none => rfl
  | step :: next :: rest, flow => by
    unfold watchSteps runSteps
    rw [job_bind, job_watchOne]
    exact bind_congr fun o => job_watchSteps

theorem job_watchPipelines : ∀ {pipelines : List Pipeline} {r : Result}, (watchPipelines r pipelines).job = runPipelines r pipelines
  | [], _ => rfl
  | p :: rest, r => by
    unfold watchPipelines runPipelines
    rw [job_bind, job_watchSteps]
    refine bind_congr fun o => ?_
    dsimp only
    split
    · rfl
    · exact job_watchPipelines

theorem job_watchExecute {line : String} : (watchExecute line).job = execute line := by
  unfold watchExecute execute
  rw [job_bind, job_ofJob]
  exact bind_congr fun t => job_watchPipelines

end Shell

namespace Window

/-- A line from its start, under watch. -/
def watchStart (line : String) : Watch Finished := do
  let prompt ← ofJob (receive line)
  if Text.allBlank line then ofJob (pass prompt)
  else
    let r ← watchExecute line
    ofJob (conclude line prompt r)

theorem job_watchStart {line : String} : (watchStart line).job = startLine line := by
  unfold watchStart startLine
  rw [job_bind, job_ofJob]
  refine bind_congr fun prompt => ?_
  split
  · exact job_ofJob _
  · unfold runLine
    simp only [job_bind, job_ofJob, job_watchExecute]

end Window

end SimUnix
