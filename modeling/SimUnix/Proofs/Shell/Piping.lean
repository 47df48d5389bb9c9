/-
Pipes with `cat` in them. What the steps of a pipeline before a pipe do does not depend on the steps after it, and `cat` hands on
what it reads: put into a pipe it changes nothing, whatever the other steps are. But a step that leaves no text is to it as none,
and then it complains and the complaint is what goes on.
-/
import SimUnix.Proofs.Terminal.Jobs
import SimUnix.Proofs.Terminal.Removal
import SimUnix.Shell.Execution

namespace SimUnix

/-- The lines of an outcome that go through a pipe. -/
def Outcome.texts (o : Outcome) : List String := o.output.filterMap Shell.pipedText?

theorem Outcome.texts_ok (lines : List String) : (Outcome.ok lines).texts = lines := by
  unfold texts ok
  rw [List.filterMap_map]
  exact List.filterMap_some

namespace Shell

variable {flow : Flow} {s : Station}

/-! ## The steps before a pipe -/

/-- A pipeline after one more step that is followed by a pipe. -/
def Flow.through (flow : Flow) (o : Outcome) : Flow :=
  { input := o.texts
    shown := flow.shown ++ o.output.filter (pipedText? · |>.isNone) }

/-- Runs steps that are all followed by a pipe. -/
def runThrough (flow : Flow) : List Step → Job Flow
  | [] => pure flow
  | step :: rest => do
    let o ← runOne flow false step
    runThrough (flow.through o) rest

theorem runSteps_cons (flow : Flow) (step next : Step) (rest : List Step) :
    runSteps flow (step :: next :: rest) = runOne flow false step >>= fun o => runSteps (flow.through o) (next :: rest) := rfl

/-- A pipeline can be cut at every pipe. -/
theorem runSteps_append (next : Step) (rest : List Step) : ∀ (steps : List Step) (flow : Flow),
    runSteps flow (steps ++ next :: rest) = runThrough flow steps >>= fun flow => runSteps flow (next :: rest)
  | [], flow => by rw [runThrough, pure_bind, List.nil_append]
  | [step], flow => by
    rw [List.singleton_append, runSteps_cons, runThrough, bind_assoc]
    exact bind_congr fun o => runSteps_append next rest [] (flow.through o)
  | step :: second :: steps, flow => by
    rw [List.cons_append, List.cons_append, runSteps_cons, runThrough, bind_assoc]
    exact bind_congr fun o => runSteps_append next rest (second :: steps) (flow.through o)

/-! ## Passing on -/

/-- The step that is `cat` without operands. -/
def plainCat : Step := { command := "cat" }

/-- What `cat` makes of its input. -/
def passedOn (input : List String) : Outcome := if input.isEmpty then .fail "cat: missing file operand" else .ok input

theorem runOne_plainCat (flow : Flow) (toScreen : Bool) : runOne flow toScreen plainCat = pure (passedOn flow.input) := by
  funext s
  have hresolved : resolve s.machine plainCat.command s.terminal.user s.terminal.cwd = .ok (.ok (.program .cat)) := rfl
  have hargs : expandGlobs s.machine plainCat.args s.terminal.cwd s.terminal.user = .ok [] := rfl
  have hstep : runStep flow.input s.terminal.cwd toScreen plainCat s = .done (passedOn flow.input) s := by
    unfold runStep maxNesting
    rw [runStepIn, Job.terminal_bind, Job.ask_ok hresolved]
    dsimp only
    rw [Job.ask_ok hargs]
    show Command.runCat _ s = _
    unfold Command.runCat passedOn
    rfl
  have hcwd : (passedOn flow.input).cwd? = none := by
    unfold passedOn
    split <;> rfl
  unfold runOne
  rw [Job.terminal_bind, Job.bind_done hstep]
  dsimp only
  rw [hcwd]

/-- A pipeline after `cat`: text is handed on as it is. -/
def Flow.passed (flow : Flow) : Flow :=
  if flow.input = [] then { flow with input := ["cat: missing file operand"] } else flow

theorem Flow.through_passedOn (flow : Flow) : flow.through (passedOn flow.input) = flow.passed := by
  have hthrough (lines : List String) (error : Bool) :
      flow.through { Outcome.ok lines with error } = { flow with input := lines } := by
    have hshown : (lines.map Line.text).filter (pipedText? · |>.isNone) = [] := by
      rw [List.filter_map]
      exact List.map_eq_nil_iff.2 (List.filter_eq_nil_iff.2 fun _ _ => Bool.false_ne_true)
    have htexts : ({ Outcome.ok lines with error } : Outcome).texts = lines := Outcome.texts_ok lines
    unfold through
    rw [htexts, Outcome.ok, hshown, List.append_nil]
  unfold passed passedOn
  by_cases hnil : flow.input = []
  · rw [if_pos hnil, if_pos (List.isEmpty_iff.2 hnil)]
    exact hthrough ["cat: missing file operand"] true
  · rw [if_neg hnil, if_neg fun hempty => hnil (List.isEmpty_iff.1 hempty)]
    exact hthrough flow.input false

/-- `cat` between two pipes: what comes after it goes on from what it hands on, and as if it were not there from every station
where, whatever is answered, the steps before it leave some text. -/
theorem runSteps_plainCat (flow : Flow) (before : List Step) (next : Step) (rest : List Step) :
    (runSteps flow (before ++ plainCat :: next :: rest) =
      runThrough flow before >>= fun flow => runSteps flow.passed (next :: rest)) ∧
    ∀ s, (runThrough flow before s).Only (·.input ≠ []) →
      runSteps flow (before ++ plainCat :: next :: rest) s = runSteps flow (before ++ next :: rest) s := by
  have hpassed : runSteps flow (before ++ plainCat :: next :: rest) =
      runThrough flow before >>= fun flow => runSteps flow.passed (next :: rest) := by
    rw [runSteps_append]
    refine bind_congr fun flow => ?_
    rw [runSteps_cons, runOne_plainCat, pure_bind, Flow.through_passedOn]
  refine ⟨hpassed, fun s hs => ?_⟩
  rw [hpassed, runSteps_append]
  exact hs.bind_congr fun flow h => by rw [Flow.passed, if_neg h]

/-- Nothing comes out of `true`, but `cat` makes a line of it. -/
theorem runSteps_plainCat_nothing :
    (runSteps {} ([{ command := "true" }] ++ [{ command := "wc", args := ["-l"] }])
      { machine := World.housed.machine, terminal := World.homeTerminal }).result? = some (.ok ["      0"]) ∧
    (runSteps {} ([{ command := "true" }] ++ [plainCat, { command := "wc", args := ["-l"] }])
      { machine := World.housed.machine, terminal := World.homeTerminal }).result? = some (.ok ["      1"]) := by
  constructor <;> decide +kernel

/-- What a step complains about goes on as text, too. -/
theorem runSteps_plainCat_complaint :
    runSteps {} ([{ command := "cat", args := ["/b"] }] ++ [plainCat, { command := "wc", args := ["-l"] }])
      { machine := World.housed.machine, terminal := World.homeTerminal } =
    runSteps {} ([{ command := "cat", args := ["/b"] }] ++ [{ command := "wc", args := ["-l"] }])
      { machine := World.housed.machine, terminal := World.homeTerminal } := by
  refine (runSteps_plainCat _ _ _ _).2 _ ?_
  have hinput : (runThrough {} [{ command := "cat", args := ["/b"] }]
      { machine := World.housed.machine, terminal := World.homeTerminal }).result?.map (·.input) =
        some ["cat: /b: No such file or directory"] := by
    decide +kernel
  obtain ⟨flow, hresult, hflow⟩ := Option.map_eq_some_iff.1 hinput
  obtain ⟨s, hdone⟩ := Progress.done_of_result? hresult
  rw [hdone]
  refine .done ?_
  rw [hflow]
  exact List.cons_ne_nil _ _

end Shell

end SimUnix
