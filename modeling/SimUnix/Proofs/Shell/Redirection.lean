/-
A redirection without a path. The operator of a redirection and its path are kept apart while a step is read, so
an operator that no path follows does not stand alone: it changes how the step is redirected if a path was
read before it. Without such a path it changes nothing, at the end of a line as before any other operator.
-/
import SimUnix.Proofs.Shell.Tokens

namespace SimUnix.Shell

namespace Pipeline

variable {r r' : Reading} {d : Draft} {m : Redirection} {o : Operator} {tokens : List Token}

/-! ## Drafts -/

/-- The path of a redirection is only read after its operator. -/
structure Draft.Ordered (d : Draft) : Prop where
  path : d.path?.isSome → d.mode?.isSome
  awaits : d.awaitsPath → d.mode?.isSome

/-- The step, if there is one, is not redirected in another way than `m`. -/
def Spares (m : Redirection) (step? : Option Step) : Prop := ∀ step ∈ step?, ∀ target ∈ step.target?, target.mode = m

instance (m : Redirection) (step? : Option Step) : Decidable (Spares m step?) :=
  inferInstanceAs (Decidable (∀ step ∈ step?, ∀ target ∈ step.target?, target.mode = m))

/-- A draft after the operator of a redirection. -/
def Draft.redirect (d : Draft) (m : Redirection) : Draft := { d with mode? := some m, awaitsPath := true }

/-- A draft after a word. -/
def Draft.word (d : Draft) (w : String) : Draft :=
  if d.awaitsPath then { d with path? := some (unquote w), awaitsPath := false } else { d with words := d.words ++ [unquote w] }

theorem Reading.next_word (r : Reading) (w : String) : r.next (.word w) = { r with draft := r.draft.word w } := by
  rw [next, Draft.word]
  split <;> rfl

theorem Draft.ordered_empty : Draft.Ordered {} := ⟨fun h => absurd h Bool.false_ne_true, fun h => absurd h Bool.false_ne_true⟩

/-- The operator changes the step of the draft exactly if it is redirected in another way. -/
theorem Draft.Ordered.step?_redirect (h : d.Ordered) : (d.redirect m).step? = d.step? ↔ Spares m d.step? := by
  obtain ⟨words, mode?, path?, awaits⟩ := d
  rcases words with _ | ⟨command, args⟩
  · exact ⟨fun _ _ hstep => (by cases hstep), fun _ => rfl⟩
  · rcases path? with _ | path
    · refine ⟨fun _ step hstep target htarget => ?_, fun _ => ?_⟩
      · rcases mode? with _ | _ <;> (cases hstep; cases htarget)
      · rcases mode? with _ | _ <;> rfl
    · obtain ⟨mode, rfl⟩ := Option.isSome_iff_exists.1 (h.path rfl)
      refine ⟨fun heq step hstep target htarget => ?_, fun hspares => ?_⟩
      · cases hstep
        cases htarget
        cases heq
        rfl
      · cases hspares _ rfl _ rfl
        rfl

theorem Reading.ordered_next {t : Token} (h : r.draft.Ordered) : (r.next t).draft.Ordered := by
  rcases t with w | _ | c | mode
  · rw [next_word]
    show (r.draft.word w).Ordered
    unfold Draft.word
    split
    · rename_i hawaits
      exact ⟨fun _ => h.awaits hawaits, fun hf => absurd hf Bool.false_ne_true⟩
    · exact ⟨h.path, h.awaits⟩
  · exact Draft.ordered_empty
  · show (r.endPipeline (some c)).draft.Ordered
    unfold endPipeline
    dsimp only
    split <;> exact Draft.ordered_empty
  · exact ⟨fun _ => rfl, fun _ => rfl⟩

/-- Whatever is read, no path is read before its operator. -/
theorem Reading.ordered_foldl : ∀ (tokens : List Token) {r : Reading}, r.draft.Ordered → (tokens.foldl next r).draft.Ordered
  | [], _, h => h
  | t :: tokens, r, h => ordered_foldl tokens (r := r.next t) (ordered_next h)

/-! ## Complete steps -/

/-- The steps that are complete. -/
def Reading.done (r : Reading) : List Step := r.pipelines.flatMap (·.steps) ++ r.steps

/-- The steps that a token completes. -/
def ended (d : Draft) : Token → List Step
  | .op .pipe | .op (.control _) => d.step?.toList
  | .op (.redirect _) | .word _ => []

theorem flatMap_steps_withLastOperator (c : Control) : ∀ pipelines : List Pipeline,
    (withLastOperator c pipelines).flatMap (·.steps) = pipelines.flatMap (·.steps)
  | [] => rfl
  | [_] => rfl
  | p :: next :: rest => congrArg (p.steps ++ ·) (flatMap_steps_withLastOperator c (next :: rest))

theorem Reading.done_endStep (r : Reading) : r.endStep.done = r.done ++ r.draft.step?.toList := (List.append_assoc ..).symm

/-- A pipeline that ends leaves no step in reading, and keeps those that are complete. -/
theorem Reading.endPipeline_spec (r : Reading) (operator? : Option Control) :
    (r.endPipeline operator?).done = r.endStep.done ∧ (r.endPipeline operator?).steps = [] ∧
      (r.endPipeline operator?).draft = {} := by
  unfold endPipeline
  dsimp only
  split
  · rename_i hempty
    have hnil := List.isEmpty_iff.1 hempty
    rcases operator? with _ | c
    · exact ⟨rfl, hnil, rfl⟩
    · exact ⟨congrArg (· ++ r.endStep.steps) (flatMap_steps_withLastOperator c r.endStep.pipelines), hnil, rfl⟩
  · refine ⟨?_, rfl, rfl⟩
    unfold done
    rw [List.flatMap_append, List.flatMap_singleton, List.append_nil]

/-- A token completes steps of the draft, and leaves those that were complete as they were. -/
theorem Reading.done_next (r : Reading) (t : Token) : (r.next t).done = r.done ++ ended r.draft t := by
  rcases t with w | _ | c | mode
  · rw [next_word]
    exact (List.append_nil _).symm
  · exact r.done_endStep
  · exact (r.endPipeline_spec (some c)).1.trans r.done_endStep
  · exact (List.append_nil _).symm

theorem Reading.draft_next (h : r.draft = r'.draft) (t : Token) : (r.next t).draft = (r'.next t).draft := by
  rcases t with w | _ | c | mode
  · rw [next_word, next_word, h]
  · rfl
  · exact (r.endPipeline_spec (some c)).2.2.trans (r'.endPipeline_spec (some c)).2.2.symm
  · show r.draft.redirect mode = r'.draft.redirect mode
    rw [h]

/-- The pipelines of a line of which some has been read. -/
def Reading.finish (r : Reading) (tokens : List Token) : List Pipeline := ((tokens.foldl next r).endPipeline none).pipelines

/-- The steps of the pipelines are those that were complete and the one that was read last. -/
theorem Reading.done_of_endPipeline (h : (r.endPipeline none).pipelines = (r'.endPipeline none).pipelines) :
    r.done ++ r.draft.step?.toList = r'.done ++ r'.draft.step?.toList := by
  have hdone : (r.endPipeline none).done = (r'.endPipeline none).done := by
    rw [done, done, h, (r.endPipeline_spec none).2.1, (r'.endPipeline_spec none).2.1]
  rwa [(r.endPipeline_spec none).1, (r'.endPipeline_spec none).1, done_endStep, done_endStep] at hdone

/-- What was complete at some point of a line can be told from the pipelines of the line. -/
theorem Reading.done_of_finish : ∀ (tokens : List Token) {r r' : Reading}, r.draft = r'.draft →
    r.finish tokens = r'.finish tokens → r.done = r'.done
  | [], r, r', hd, h => by
    have hdone : r.done ++ r.draft.step?.toList = r'.done ++ r'.draft.step?.toList := done_of_endPipeline h
    rw [hd] at hdone
    exact List.append_cancel_right hdone
  | t :: tokens, r, r', hd, h => by
    have hdone := done_of_finish tokens (draft_next hd t) h
    rw [done_next, done_next, hd] at hdone
    exact List.append_cancel_right hdone

theorem ofTokens_append (xs ys : List Token) : ofTokens (xs ++ ys) = (xs.foldl Reading.next {}).finish ys := by
  rw [ofTokens, List.foldl_append]
  rfl

/-! ## Operators without a path -/

/-- The step that is read where the tokens end. -/
def lastStep? (tokens : List Token) : Option Step := (tokens.foldl Reading.next {}).draft.step?

/-- The operator does not touch what is complete, and is gone with the draft as soon as the step ends. -/
theorem Reading.endStep_redirect (h : (r.draft.redirect m).step? = r.draft.step?) :
    (r.next (.op (.redirect m))).endStep = r.endStep := by
  show { r with steps := r.steps ++ (r.draft.redirect m).step?.toList, draft := {} } = r.endStep
  rw [h]
  rfl

theorem Reading.endPipeline_redirect (h : (r.draft.redirect m).step? = r.draft.step?) (operator? : Option Control) :
    (r.next (.op (.redirect m))).endPipeline operator? = r.endPipeline operator? := by
  unfold endPipeline
  rw [endStep_redirect h]

/-- Every other operator ends the step, so that a redirection without a path is gone after it. -/
theorem Reading.next_redirect (ho : ∀ r, o ≠ .redirect r) (h : (r.draft.redirect m).step? = r.draft.step?) :
    (r.next (.op (.redirect m))).next (.op o) = r.next (.op o) := by
  rcases o with _ | c | mode
  · exact endStep_redirect h
  · exact endPipeline_redirect h (some c)
  · exact absurd rfl (ho mode)

theorem Reading.step?_of_done (h : r.done ++ (r.draft.redirect m).step?.toList = r.done ++ r.draft.step?.toList) :
    (r.draft.redirect m).step? = r.draft.step? := by
  have hstep := congrArg List.head? (List.append_cancel_left h)
  rwa [Option.head?_toList, Option.head?_toList] at hstep

theorem Reading.done_redirect (r : Reading) (m : Redirection) : (r.next (.op (.redirect m))).done = r.done := rfl

theorem ended_of_ne_redirect (ho : ∀ r, o ≠ .redirect r) (d : Draft) : ended d (.op o) = d.step?.toList := by
  rcases o with _ | c | mode
  · rfl
  · rfl
  · exact absurd rfl (ho mode)

theorem draft_of_ne_redirect (ho : ∀ r, o ≠ .redirect r) (r : Reading) : (r.next (.op o)).draft = {} := by
  rcases o with _ | c | mode
  · rfl
  · exact (r.endPipeline_spec (some c)).2.2
  · exact absurd rfl (ho mode)

/-- At the end of the tokens, an operator without a path has no effect exactly if the step it stands in is not
redirected in another way. -/
theorem ofTokens_redirect_end (tokens : List Token) (m : Redirection) :
    ofTokens (tokens ++ [.op (.redirect m)]) = ofTokens tokens ↔ Spares m (lastStep? tokens) := by
  have hordered := Reading.ordered_foldl tokens (r := {}) Draft.ordered_empty
  rw [lastStep?, ← hordered.step?_redirect, ofTokens_append, ofTokens]
  generalize tokens.foldl Reading.next {} = r
  constructor
  · intro h
    have hdone := Reading.done_of_endPipeline (r := r.next (.op (.redirect m))) h
    rw [Reading.done_redirect] at hdone
    exact Reading.step?_of_done hdone
  · exact fun h => congrArg Reading.pipelines (Reading.endPipeline_redirect h none)

/-- Directly before any other operator it has no effect under the same condition. -/
theorem ofTokens_redirect_before (xs ys : List Token) (m : Redirection) (ho : ∀ r, o ≠ .redirect r) :
    ofTokens (xs ++ .op (.redirect m) :: .op o :: ys) = ofTokens (xs ++ .op o :: ys) ↔ Spares m (lastStep? xs) := by
  have hordered := Reading.ordered_foldl xs (r := {}) Draft.ordered_empty
  rw [lastStep?, ← hordered.step?_redirect, ofTokens_append, ofTokens_append]
  generalize xs.foldl Reading.next {} = r
  constructor
  · intro h
    -- Both readings are at the start of a step after the other operator.
    have hdraft := (draft_of_ne_redirect ho (r.next (.op (.redirect m)))).trans (draft_of_ne_redirect ho r).symm
    have hdone := Reading.done_of_finish ys hdraft h
    rw [Reading.done_next _ (.op o), Reading.done_next r (.op o), Reading.done_redirect, ended_of_ne_redirect ho, ended_of_ne_redirect ho] at hdone
    exact Reading.step?_of_done hdone
  · exact fun h => congrArg (Reading.finish · ys) (Reading.next_redirect ho h)

end Pipeline

open Pipeline

variable {line : String} {m : Redirection}

/-! ## Lines -/

theorem tokenize_operator (o : Operator) : Balanced o.text ∧ tokenize o.text = [.op o] := by
  rcases o with _ | ⟨_ | _ | _⟩ | ⟨_ | _⟩ <;> decide

/-- The operator of a redirection that no path follows has no effect, at the end of a line whose quotes are closed and
before every other operator, exactly if the step it stands in is not yet redirected in the other way. Before another operator
that holds of all lines with these tokens, whatever blanks stand between them, and so if a blank stands on either side. -/
theorem Balanced.redirect_exact (h : Balanced line) (m : Redirection) :
    (parse (line ++ " " ++ m.text) = parse line ↔ Spares m (lastStep? (tokenize line))) ∧
    ∀ o : Operator, (∀ r, o ≠ .redirect r) →
      (∀ (long short : String) (tokens : List Token), tokenize long = tokenize line ++ .op (.redirect m) :: .op o :: tokens →
        tokenize short = tokenize line ++ .op o :: tokens → (parse long = parse short ↔ Spares m (lastStep? (tokenize line)))) ∧
      ∀ rest, (parse (line ++ " " ++ (m.text ++ " " ++ (o.text ++ " " ++ rest))) = parse (line ++ " " ++ (o.text ++ " " ++ rest)) ↔
        Spares m (lastStep? (tokenize line))) := by
  obtain ⟨hm, hmtokens⟩ : Balanced m.text ∧ tokenize m.text = [.op (.redirect m)] := tokenize_operator (.redirect m)
  refine ⟨?_, fun o ho => ?_⟩
  · rw [parse, parse, h.tokenize_append, hmtokens]
    exact ofTokens_redirect_end (tokenize line) m
  have hbefore : ∀ (long short : String) (tokens : List Token), tokenize long = tokenize line ++ .op (.redirect m) :: .op o :: tokens →
      tokenize short = tokenize line ++ .op o :: tokens → (parse long = parse short ↔ Spares m (lastStep? (tokenize line))) := by
    intro long short tokens hlong hshort
    rw [parse, parse, hlong, hshort]
    exact ofTokens_redirect_before (tokenize line) tokens m ho
  obtain ⟨hbalanced, hotokens⟩ := tokenize_operator o
  refine ⟨hbefore, fun rest => hbefore _ _ (tokenize rest) ?_ ?_⟩
  · rw [h.tokenize_append, hm.tokenize_append, hbalanced.tokenize_append, hmtokens, hotokens]
    rfl
  · rw [h.tokenize_append, hbalanced.tokenize_append, hotokens]
    rfl

/-- A path that was read for `>>` is written with the `>` that ends the line. -/
theorem parse_append_overwritten : Balanced "echo x >> f" ∧ parse ("echo x >> f" ++ " " ++ Redirection.write.text) ≠ parse "echo x >> f" ∧
    parse ("echo x >> f" ++ " " ++ Redirection.write.text) = parse "echo x > f" := by
  decide

theorem redirect_exact_sequence : Balanced "a > f ; echo x" ∧ parse ("a > f ; echo x" ++ " " ++ ">>") = parse "a > f ; echo x" ∧
    parse "a > f ; echo x>>&&b" = parse "a > f ; echo x&&b" ∧
    parse ("a > f ; echo x" ++ " " ++ (">>" ++ " " ++ ("&&" ++ " " ++ "b"))) = parse ("a > f ; echo x" ++ " " ++ ("&&" ++ " " ++ "b")) := by
  have h : Balanced "a > f ; echo x" := by decide
  have hspares : Spares .append (lastStep? (tokenize "a > f ; echo x")) := by decide
  obtain ⟨hend, hbefore⟩ := h.redirect_exact .append
  obtain ⟨hclose, hapart⟩ := hbefore (.control .and) (fun _ heq => by cases heq)
  exact ⟨h, hend.2 hspares, (hclose _ _ [.word "b"] (by decide) (by decide)).2 hspares, (hapart "b").2 hspares⟩

end SimUnix.Shell
