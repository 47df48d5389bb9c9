/-
One line after another. Two lines with a control operator between them are run like the first line and then the second, in one
result, unless an operator has left out pipelines of the first. The operator between them need not be the one that decides whether
the second line is run: an operator that stands in the second line before its first command takes its place.
-/
import SimUnix.Proofs.Shell.Redirection
import SimUnix.Proofs.Terminal.Jobs
import SimUnix.Proofs.Terminal.Removal
import SimUnix.Shell.Execution

namespace SimUnix.Shell

namespace Pipeline

variable {r : Reading} {c : Control} {ps : List Pipeline}

/-! ## The operator between two lines -/

/-- The control operators that stand before the first command, if the next word is the path of a redirection or not. -/
def leadingFrom : Bool → List Token → List Control
  | _, [] => []
  | _, .op (.control c) :: tokens => c :: leadingFrom false tokens
  | _, .op .pipe :: tokens => leadingFrom false tokens
  | _, .op (.redirect _) :: tokens => leadingFrom true tokens
  | true, .word _ :: tokens => leadingFrom false tokens
  | false, .word _ :: _ => []

/-- The control operator that decides between a line and the tokens after it, if `c` is the one that stands there: the last one
before the first command. -/
def joint (c : Control) (tokens : List Token) : Control := ((leadingFrom false tokens).getLast?).getD c

theorem withLastOperator_concat (c : Control) (p : Pipeline) : ∀ ps : List Pipeline,
    withLastOperator c (ps ++ [p]) = ps ++ [{ p with operator? := some c }]
  | [] => rfl
  | [_] => rfl
  | q :: next :: rest => congrArg (q :: ·) (withLastOperator_concat c p (next :: rest))

theorem withLastOperator_append (c : Control) {qs : List Pipeline} (h : qs ≠ []) :
    withLastOperator c (ps ++ qs) = ps ++ withLastOperator c qs := by
  rw [← List.dropLast_concat_getLast h, ← List.append_assoc, withLastOperator_concat, withLastOperator_concat, List.append_assoc]

theorem withLastOperator_eq_nil : withLastOperator c ps = [] ↔ ps = [] := by
  rcases List.eq_nil_or_concat ps with rfl | ⟨front, p, rfl⟩
  · exact Iff.rfl
  · rw [List.concat_eq_append, withLastOperator_concat]
    exact ⟨fun h => (List.concat_ne_nil _ _ h).elim, fun h => (List.concat_ne_nil _ _ h).elim⟩

/-- Of several operators given one after the other the last one stays. -/
theorem withLastOperator_twice (c d : Control) (ps : List Pipeline) :
    withLastOperator d (withLastOperator c ps) = withLastOperator d ps := by
  rcases List.eq_nil_or_concat ps with rfl | ⟨front, p, rfl⟩
  · rfl
  · rw [List.concat_eq_append, withLastOperator_concat, withLastOperator_concat, withLastOperator_concat]

theorem foldl_withLastOperator (c : Control) (ps : List Pipeline) : ∀ cs : List Control,
    cs.foldl (fun ps d => withLastOperator d ps) (withLastOperator c ps) = withLastOperator (cs.getLast?.getD c) ps
  | [] => rfl
  | d :: cs => by
    rw [List.foldl_cons, withLastOperator_twice, foldl_withLastOperator d ps cs, List.getLast?_cons, Option.getD_some]

/-! ## Reading after other pipelines -/

/-- A reading with pipelines before it. -/
def Reading.after (ps : List Pipeline) (r : Reading) : Reading := { r with pipelines := ps ++ r.pipelines }

/-- A reading in which no command has been found yet. -/
structure Reading.Fresh (r : Reading) : Prop where
  pipelines : r.pipelines = []
  steps : r.steps = []
  words : r.draft.words = []

theorem Draft.step?_eq_none {d : Draft} : d.step? = none ↔ d.words = [] := by
  obtain ⟨words, mode?, path?, awaits⟩ := d
  rcases words with _ | ⟨command, args⟩
  · exact ⟨fun _ => rfl, fun _ => rfl⟩
  · exact ⟨nofun, nofun⟩

/-- A step that ends is not lost if it has a command. -/
theorem Reading.fresh_endStep : r.endStep.Fresh ↔ r.Fresh := by
  constructor
  · rintro ⟨hpipelines, hsteps, -⟩
    obtain ⟨hsteps, hdraft⟩ := List.append_eq_nil_iff.1 hsteps
    exact ⟨hpipelines, hsteps, Draft.step?_eq_none.1 (Option.toList_eq_nil_iff.1 hdraft)⟩
  · rintro ⟨hpipelines, hsteps, hwords⟩
    exact ⟨hpipelines, List.append_eq_nil_iff.2 ⟨hsteps, Option.toList_eq_nil_iff.2 (Draft.step?_eq_none.2 hwords)⟩, rfl⟩

/-- If no step is complete when one ends, the command that has been found stands in a pipeline. -/
theorem Reading.pipelines_ne_nil (h : ¬ r.Fresh) (hsteps : r.endStep.steps = []) : r.pipelines ≠ [] :=
  fun hnil => h (fresh_endStep.1 ⟨hnil, hsteps, rfl⟩)

/-- Where no step is complete, an operator goes to the last pipeline before it. -/
theorem Reading.endPipeline_idle (h : r.endStep.steps = []) (c : Control) :
    r.endPipeline (some c) = { pipelines := withLastOperator c r.pipelines } := by
  unfold endPipeline
  dsimp only
  rw [if_pos (List.isEmpty_iff.2 h), h]
  rfl

theorem Reading.endPipeline_none_idle (h : r.endStep.steps = []) : r.endPipeline none = { pipelines := r.pipelines } := by
  unfold endPipeline
  dsimp only
  rw [if_pos (List.isEmpty_iff.2 h)]
  show ({ pipelines := r.pipelines, steps := r.endStep.steps, draft := {} } : Reading) = _
  rw [h]

/-- Once a command has been found, nothing that is read changes the pipelines before. -/
theorem Reading.endPipeline_after (h : ¬ r.Fresh) (ps : List Pipeline) (operator? : Option Control) :
    (r.after ps).endPipeline operator? = (r.endPipeline operator?).after ps := by
  by_cases hsteps : r.endStep.steps = []
  · rcases operator? with _ | c
    · rw [endPipeline_none_idle (r := r.after ps) hsteps, endPipeline_none_idle hsteps]
      rfl
    · rw [endPipeline_idle (r := r.after ps) hsteps, endPipeline_idle hsteps]
      exact congrArg (fun ps => ({ pipelines := ps } : Reading)) (withLastOperator_append c (pipelines_ne_nil h hsteps))
  · rw [endPipeline_of_endStep (r := r.after ps) hsteps rfl, endPipeline_of_endStep hsteps rfl]
    exact congrArg (fun ps => ({ pipelines := ps } : Reading)) (List.append_assoc ..)

theorem Reading.next_after (h : ¬ r.Fresh) (ps : List Pipeline) (t : Token) : (r.after ps).next t = (r.next t).after ps := by
  rcases t with w | _ | c | mode
  · rw [next_word, next_word]
    rfl
  · rfl
  · exact endPipeline_after h ps (some c)
  · rfl

/-- A command that has been found is never lost. -/
theorem Reading.not_fresh_next (h : ¬ r.Fresh) (t : Token) : ¬ (r.next t).Fresh := by
  rcases t with w | _ | c | mode
  · rw [next_word]
    rintro ⟨hpipelines, hsteps, hwords⟩
    refine h ⟨hpipelines, hsteps, ?_⟩
    change (r.draft.word w).words = [] at hwords
    unfold Draft.word at hwords
    split at hwords
    · exact hwords
    · exact (List.append_eq_nil_iff.1 hwords).1
  · exact fun hfresh => h (fresh_endStep.1 hfresh)
  · show ¬ (r.endPipeline (some c)).Fresh
    by_cases hsteps : r.endStep.steps = []
    · rw [endPipeline_idle hsteps]
      exact fun hfresh => pipelines_ne_nil h hsteps (withLastOperator_eq_nil.1 hfresh.pipelines)
    · rw [endPipeline_of_endStep hsteps rfl]
      exact fun hfresh => List.concat_ne_nil _ _ hfresh.pipelines
  · exact fun ⟨hpipelines, hsteps, hwords⟩ => h ⟨hpipelines, hsteps, hwords⟩

theorem Reading.finish_after : ∀ (tokens : List Token) {r : Reading}, ¬ r.Fresh → ∀ ps, (r.after ps).finish tokens = ps ++ r.finish tokens
  | [], r, h, ps => congrArg Reading.pipelines (endPipeline_after h ps none)
  | t :: tokens, r, h, ps => by
    show ((r.after ps).next t).finish tokens = ps ++ (r.next t).finish tokens
    rw [next_after h, finish_after tokens (not_fresh_next h t)]

/-- Until a command is found, the operators go to the pipelines before. -/
theorem Reading.Fresh.finish_after : ∀ (tokens : List Token) {r : Reading}, r.Fresh → ∀ ps,
    (r.after ps).finish tokens =
      (leadingFrom r.draft.awaitsPath tokens).foldl (fun ps c => withLastOperator c ps) ps ++ r.finish tokens
  | [], r, h, ps => by
    have hsteps := (fresh_endStep.2 h).steps
    show ((r.after ps).endPipeline none).pipelines = ps ++ (r.endPipeline none).pipelines
    rw [endPipeline_none_idle hsteps, endPipeline_none_idle (r := r.after ps) hsteps]
    rfl
  | .word w :: tokens, r, h, ps => by
    show ((r.after ps).next (.word w)).finish tokens = _ ++ (r.next (.word w)).finish tokens
    rw [next_word, next_word]
    show (Reading.after ps { r with draft := r.draft.word w }).finish tokens = _
    rcases hawaits : r.draft.awaitsPath with _ | _
    · refine Reading.finish_after tokens (fun hfresh => ?_) ps
      have hwords : (r.draft.word w).words = [] := hfresh.words
      rw [Draft.word, hawaits, if_neg Bool.false_ne_true] at hwords
      exact List.concat_ne_nil _ _ hwords
    · have hdraft : r.draft.word w = { r.draft with path? := some (unquote w), awaitsPath := false } := by
        rw [Draft.word, hawaits, if_pos rfl]
      rw [hdraft]
      exact finish_after tokens (r := { r with draft := { r.draft with path? := some (unquote w), awaitsPath := false } })
        ⟨h.pipelines, h.steps, h.words⟩ ps
  | .op .pipe :: tokens, r, h, ps => finish_after tokens (r := r.endStep) (fresh_endStep.2 h) ps
  | .op (.control c) :: tokens, r, h, ps => by
    have hsteps := (fresh_endStep.2 h).steps
    have hempty : r.next (.op (.control c)) = {} := by
      show r.endPipeline (some c) = {}
      rw [endPipeline_idle hsteps, h.pipelines]
      rfl
    have hafter : (r.after ps).next (.op (.control c)) = Reading.after (withLastOperator c ps) {} := by
      show (r.after ps).endPipeline (some c) = _
      rw [endPipeline_idle (r := r.after ps) hsteps, after, h.pipelines, List.append_nil, after, List.append_nil]
    show ((r.after ps).next (.op (.control c))).finish tokens = _ ++ (r.next (.op (.control c))).finish tokens
    rw [hafter, hempty]
    exact finish_after tokens ⟨rfl, rfl, rfl⟩ (withLastOperator c ps)
  | .op (.redirect m) :: tokens, r, h, ps =>
    finish_after tokens (r := { r with draft := r.draft.redirect m }) ⟨h.pipelines, h.steps, h.words⟩ ps

/-- A control operator cuts the tokens into two lists that are read apart, but for the operator of the pipeline before it. -/
theorem ofTokens_control (xs ys : List Token) (c : Control) :
    ofTokens (xs ++ .op (.control c) :: ys) = withLastOperator (joint c ys) (ofTokens xs) ++ ofTokens ys := by
  have hnext : (xs.foldl Reading.next {}).next (.op (.control c)) = Reading.after (withLastOperator c (ofTokens xs)) {} := by
    unfold ofTokens
    generalize xs.foldl Reading.next {} = r
    show r.endPipeline (some c) = _
    by_cases hsteps : r.endStep.steps = []
    · rw [Reading.endPipeline_idle hsteps, Reading.endPipeline_none_idle hsteps, Reading.after, List.append_nil]
    · rw [endPipeline_of_endStep hsteps rfl, endPipeline_of_endStep hsteps rfl, Reading.after, List.append_nil, withLastOperator_concat]
  rw [ofTokens_append]
  show ((xs.foldl Reading.next {}).next (.op (.control c))).finish ys = _
  rw [hnext, Reading.Fresh.finish_after ys ⟨rfl, rfl, rfl⟩, foldl_withLastOperator]
  rfl

end Pipeline

open Pipeline

variable {a b : String} {c : Control}

/-- So does a control operator between blanks, after a line whose quotes are closed. -/
theorem Balanced.parse_control (h : Balanced a) (c : Control) (b : String) :
    parse (a ++ " " ++ (c.text ++ " " ++ b)) = withLastOperator (joint c (tokenize b)) (parse a) ++ parse b := by
  obtain ⟨hc, htokens⟩ : Balanced c.text ∧ tokenize c.text = [.op (.control c)] := tokenize_operator (.control c)
  rw [parse, h.tokenize_append, hc.tokenize_append, htokens]
  exact ofTokens_control (tokenize a) (tokenize b) c

/-! ## Results -/

/-- What two lines come to, the second one run after the first. -/
def Result.followedBy (r r' : Result) : Result :=
  { output := if r'.clearScreen then r'.output else r.output ++ r'.output
    code := r'.code, error := r'.error, clearScreen := r.clearScreen || r'.clearScreen }

theorem Result.followedBy_add (r r' : Result) (o : Outcome) : (r.followedBy r').add o = r.followedBy (r'.add o) := by
  unfold followedBy add
  rcases o.clearScreen with _ | _
  · rcases r'.clearScreen with _ | _
    · simp only [Bool.or_false, Bool.false_eq_true, if_false, List.append_assoc]
    · simp only [Bool.or_true, Bool.or_false, Bool.false_eq_true, if_false, if_true]
  · simp only [Bool.or_true, if_true]

theorem Result.add_eq_followedBy (r : Result) (o : Outcome) : r.add o = r.followedBy (Result.add {} o) := by
  unfold followedBy add
  rcases o.clearScreen with _ | _
  · simp only [Bool.or_false, Bool.false_eq_true, if_false, List.nil_append]
  · simp only [Bool.or_true, if_true]

/-! ## Pipelines one after the other -/

/-- Runs pipelines one after the other, and tells whether an operator has left out some of them. -/
def runTold (r : Result) : List Pipeline → Job (Result × Bool)
  | [] => pure (r, false)
  | p :: rest => do
    let o ← runSteps {} p.steps
    let r := r.add o
    if cutsShort o.code p.operator? then pure (r, !rest.isEmpty) else runTold r rest

/-- Runs a line, and tells whether an operator has left out some of its pipelines. -/
def executeTold (line : String) : Job (Result × Bool) := do
  let expanded := (← Job.terminal).env.expand line
  runTold {} (parse expanded)

/-- Telling changes nothing. -/
theorem runPipelines_told : ∀ (ps : List Pipeline) (r : Result), runPipelines r ps = Prod.fst <$> runTold r ps
  | [], r => rfl
  | p :: rest, r => by
    rw [runPipelines, runTold, map_bind]
    refine bind_congr fun o => ?_
    dsimp only
    split
    · rfl
    · exact runPipelines_told rest (r.add o)

/-- Pipelines after others are run unless some of the others have been left out, or the operator between them leaves
these out. -/
theorem runPipelines_append (c : Control) (qs : List Pipeline) : ∀ (ps : List Pipeline) (r : Result),
    runPipelines r (withLastOperator c ps ++ qs) = runTold r ps >>= fun told =>
      if told.2 || !ps.isEmpty && cutsShort told.1.code (some c) then pure told.1 else runPipelines told.1 qs
  | [], r => rfl
  | [p], r => by
    rw [withLastOperator, List.singleton_append, runPipelines, runTold, bind_assoc]
    refine bind_congr fun o => ?_
    -- No pipeline comes after this one, so that none is left out whatever its own operator is.
    have htold : (if cutsShort o.code p.operator? then pure (r.add o, !([] : List Pipeline).isEmpty)
        else runTold (r.add o) [] : Job (Result × Bool)) = pure (r.add o, false) := ite_self _
    dsimp only
    rw [htold, pure_bind]
    rfl
  | p :: next :: rest, r => by
    have hlast : withLastOperator c (p :: next :: rest) = p :: withLastOperator c (next :: rest) := rfl
    rw [hlast, List.cons_append, runPipelines, runTold, bind_assoc]
    refine bind_congr fun o => ?_
    dsimp only
    split
    · rfl
    · exact runPipelines_append c qs (next :: rest) (r.add o)

/-- What came before stays in front of what pipelines come to. -/
theorem runPipelines_followedBy : ∀ (ps : List Pipeline) (r r' : Result),
    runPipelines (r.followedBy r') ps = r.followedBy <$> runPipelines r' ps
  | [], r, r' => rfl
  | p :: rest, r, r' => by
    rw [runPipelines, runPipelines, map_bind]
    refine bind_congr fun o => ?_
    dsimp only
    rw [Result.followedBy_add]
    split
    · rfl
    · exact runPipelines_followedBy rest r (r'.add o)

theorem runPipelines_started {ps : List Pipeline} (h : ps ≠ []) (r : Result) :
    runPipelines r ps = r.followedBy <$> runPipelines {} ps := by
  obtain ⟨p, rest, rfl⟩ := List.exists_cons_of_ne_nil h
  rw [runPipelines, runPipelines, map_bind]
  refine bind_congr fun o => ?_
  dsimp only
  rw [Result.add_eq_followedBy r o]
  split
  · rfl
  · exact runPipelines_followedBy rest r _

/-! ## Lines one after the other -/

theorem Environment.expand_plain (env : Environment) {line : String} (h : '$' ∉ line.toList) : env.expand line = line := by
  have hchars : ∀ cs : List Char, '$' ∉ cs → env.expandChars none cs = cs := by
    intro cs
    induction cs with
    | nil => exact fun _ => rfl
    | cons c cs ih =>
      intro h
      have hne : ¬ c = '$' := fun hc => h (List.mem_cons.2 (.inl hc.symm))
      rw [expandChars, if_neg hne, ih fun hm => h (List.mem_cons_of_mem _ hm)]
  rw [expand, hchars _ h, String.ofList_toList]

theorem execute_plain {line : String} (h : '$' ∉ line.toList) : execute line = runPipelines {} (parse line) := by
  unfold execute
  funext s
  rw [Job.terminal_bind, s.terminal.env.expand_plain h]

theorem executeTold_plain {line : String} (h : '$' ∉ line.toList) : executeTold line = runTold {} (parse line) := by
  unfold executeTold
  funext s
  rw [Job.terminal_bind, s.terminal.env.expand_plain h]

/-- Telling changes nothing. -/
theorem execute_told (line : String) : execute line = Prod.fst <$> executeTold line := by
  unfold execute executeTold
  rw [map_bind]
  exact bind_congr fun t => runPipelines_told _ _

/-- A line, a control operator and another line: the second line is run after the first one unless pipelines of the
first have been left out, or it has pipelines and the operator that decides leaves the second line out. -/
theorem execute_control (ha : '$' ∉ a.toList) (hb : '$' ∉ b.toList) (hbalanced : Balanced a) (c : Control) :
    execute (a ++ " " ++ (c.text ++ " " ++ b)) = executeTold a >>= fun told =>
      if told.2 || !(parse a).isEmpty && cutsShort told.1.code (some (joint c (tokenize b))) then pure told.1
      else (if parse b = [] then told.1 else told.1.followedBy ·) <$> execute b := by
  have hline : '$' ∉ (a ++ " " ++ (c.text ++ " " ++ b)).toList := by
    have hc : '$' ∉ c.text.toList := by cases c <;> decide
    simp only [String.toList_append, List.mem_append, ha, hb, hc, false_or, or_false]
    decide
  rw [execute_plain hline, executeTold_plain ha, execute_plain hb, hbalanced.parse_control, runPipelines_append]
  refine bind_congr fun told => ?_
  split
  · rfl
  · by_cases hnil : parse b = []
    · rw [hnil]
      rfl
    · rw [runPipelines_started hnil]
      simp only [if_neg hnil]

/-- Runs a line and then, unless pipelines of it have been left out, another one. What they show is shown from the last time on
that the screen is cleared, and the code and the error are those of the second line if it has a pipeline. -/
def executeInTurn (a b : String) : Job Result := do
  let (r, left) ← executeTold a
  if left then pure r
  else
    let r' ← execute b
    pure (if parse b = [] then r else r.followedBy r')

/-- A line that joins two with `;` is the two lines one after the other, from every station and with all answers, if no `&&` and no
`||` decides in the place of the `;`. -/
theorem execute_sequence (ha : '$' ∉ a.toList) (hb : '$' ∉ b.toList) (hbalanced : Balanced a)
    (hjoint : parse b ≠ [] → joint .next (tokenize b) = .next) :
    execute (a ++ " ; " ++ b) = executeInTurn a b ∧ execute a = Prod.fst <$> executeTold a := by
  refine ⟨?_, execute_told a⟩
  have hline : a ++ " ; " ++ b = a ++ " " ++ (Control.next.text ++ " " ++ b) := by
    have htext : " ; " = " " ++ Control.next.text ++ " " := by decide
    rw [htext]
    simp only [String.append_assoc]
  rw [hline, execute_control ha hb hbalanced .next, executeInTurn]
  refine bind_congr fun told => ?_
  obtain ⟨r, _ | _⟩ := told
  · by_cases hnil : parse b = []
    · -- Nothing of the second line is run, so that it does not matter whether it is left out.
      have hnothing : execute b = pure {} := by rw [execute_plain hb, hnil, runPipelines]
      rw [hnothing]
      simp only [hnil, Bool.false_eq_true, Bool.false_or, if_true, map_pure, pure_bind, ite_self]
    · simp only [hjoint hnil, hnil, cutsShort, Bool.and_false, Bool.or_false, Bool.false_eq_true, if_false, map_eq_pure_bind]
  · rfl

/-- After a line that fails, what comes after a redirection without a command and `&&` is not run. Alone it is. -/
theorem execute_sequence_redirected : '$' ∉ "false".toList ∧ '$' ∉ "> f && echo x".toList ∧ Balanced "false" ∧
    Balanced "> f && echo x" ∧ (tokenize "> f && echo x").head? = some (.op (.redirect .write)) ∧
    (executeTold "false" { machine := World.housed.machine, terminal := World.homeTerminal }).result? =
      some ({ code := 1 }, false) ∧
    (executeInTurn "false" "> f && echo x" { machine := World.housed.machine, terminal := World.homeTerminal }).result? =
      some { output := [.text "x"] } ∧
    (execute ("false" ++ " ; " ++ "> f && echo x") { machine := World.housed.machine, terminal := World.homeTerminal }).result? =
      some { code := 1 } := by
  refine ⟨by decide, by decide, by decide, by decide, by decide, ?_, ?_, ?_⟩ <;> decide +kernel

theorem execute_sequence_cleared : execute ("cd / && pwd" ++ " ; " ++ "> f ; clear ; pwd | cat") =
    executeInTurn "cd / && pwd" "> f ; clear ; pwd | cat" ∧
    (executeInTurn "cd / && pwd" "> f ; clear ; pwd | cat"
      { machine := World.housed.machine, terminal := World.homeTerminal }).result? =
      some { output := [.text "/"], clearScreen := true } :=
  ⟨(execute_sequence (by decide) (by decide) (by decide) fun _ => by decide).1, by decide +kernel⟩

end SimUnix.Shell
