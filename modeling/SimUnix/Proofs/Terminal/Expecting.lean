/-
Where a command is expected. Completion decides by the token before a word, the parser by all that stands before it in its step.
They agree on arguments and on commands that come first in their step. They differ where a redirection comes first: the path after
its operator is completed as a command, and the command after the path as a file.
-/
import SimUnix.Proofs.Shell.Redirection
import SimUnix.Proofs.Shell.Sequence
import SimUnix.Proofs.Terminal.Completing

namespace SimUnix

namespace Shell.Pipeline

variable {d : Draft} {tokens : List Token} {w : String}

/-! ## The command of a step -/

/-- The step in which the token after some others stands, as far as it has been read. -/
def draftAfter (tokens : List Token) : Draft := (tokens.foldl Reading.next {}).draft

/-- The steps of the pipelines of a list of tokens. -/
def stepsOf (tokens : List Token) : List Step := (ofTokens tokens).flatMap (·.steps)

/-- A word begins a step: there is a step more with it than without it, and the word is its command. -/
def Begins (before : List Token) (w : String) : Prop :=
  ∃ step, stepsOf (before ++ [.word w]) = stepsOf before ++ [step] ∧ step.command = unquote w

theorem draftAfter_concat (tokens : List Token) (t : Token) :
    draftAfter (tokens ++ [t]) = ((tokens.foldl Reading.next {}).next t).draft := by
  rw [draftAfter, List.foldl_append]
  rfl

theorem draftAfter_word (tokens : List Token) (w : String) : draftAfter (tokens ++ [.word w]) = (draftAfter tokens).word w := by
  rw [draftAfter_concat, Reading.next_word]
  rfl

theorem ordered_draftAfter (tokens : List Token) : (draftAfter tokens).Ordered := Reading.ordered_foldl tokens Draft.ordered_empty

/-- The steps of a line are those that were complete and the one that is read last. -/
theorem stepsOf_eq (tokens : List Token) :
    stepsOf tokens = (tokens.foldl Reading.next {}).done ++ (draftAfter tokens).step?.toList := by
  obtain ⟨hdone, hsteps, -⟩ := (tokens.foldl Reading.next {}).endPipeline_spec none
  rw [Reading.done_endStep, Reading.done, hsteps, List.append_nil] at hdone
  exact hdone

/-- A word completes no step. -/
theorem stepsOf_word (before : List Token) (w : String) :
    stepsOf (before ++ [.word w]) = (before.foldl Reading.next {}).done ++ ((draftAfter before).word w).step?.toList := by
  have hdone := (before.foldl Reading.next {}).done_next (.word w)
  rw [ended, List.append_nil] at hdone
  rw [stepsOf_eq, draftAfter_word, List.foldl_append, List.foldl_cons, List.foldl_nil, hdone]

theorem Draft.length_step? (d : Draft) : d.step?.toList.length = if d.words = [] then 0 else 1 := by
  split
  · rename_i hwords
    rw [step?_eq_none.2 hwords]
    rfl
  · rename_i hwords
    obtain ⟨step, hstep⟩ := Option.ne_none_iff_exists'.1 (mt step?_eq_none.1 hwords)
    rw [hstep]
    rfl

theorem Draft.words_word (d : Draft) (w : String) : (d.word w).words = if d.awaitsPath then d.words else d.words ++ [unquote w] := by
  unfold word
  split <;> rfl

/-- A word begins a step if no command has been read yet and no path is awaited. -/
theorem begins_iff {before : List Token} :
    Begins before w ↔ (draftAfter before).awaitsPath = false ∧ (draftAfter before).words = [] := by
  unfold Begins
  rw [stepsOf_word, stepsOf_eq]
  generalize draftAfter before = d
  constructor
  · rintro ⟨step, hsteps, -⟩
    rw [List.append_assoc] at hsteps
    have hlength := congrArg List.length (List.append_cancel_left hsteps)
    rw [List.length_append, List.length_singleton, Draft.length_step?, Draft.length_step?, Draft.words_word] at hlength
    rcases hawaits : d.awaitsPath with _ | _
    · refine ⟨rfl, ?_⟩
      by_contra hwords
      rw [hawaits, if_neg hwords, if_neg Bool.false_ne_true] at hlength
      split at hlength <;> cases hlength
    · rw [hawaits, if_pos rfl] at hlength
      exact absurd hlength (Nat.ne_of_lt (Nat.lt_succ_self _))
  · rintro ⟨hawaits, hwords⟩
    have hword : d.word w = { d with words := [unquote w] } := by
      unfold Draft.word
      rw [if_neg (by rw [hawaits]; exact Bool.false_ne_true), hwords]
      rfl
    obtain ⟨step, hstep, hcommand⟩ : ∃ step, (d.word w).step? = some step ∧ step.command = unquote w := by
      rw [hword]
      exact ⟨_, rfl, rfl⟩
    refine ⟨step, ?_, hcommand⟩
    rw [hstep, Draft.step?_eq_none.2 hwords, Option.toList_none, List.append_nil, Option.toList_some]

end Shell.Pipeline

namespace Completion

open Shell Shell.Pipeline Machine

variable {s : Machine} {t : Terminal} {line w : String} {front : List Token}

/-! ## What is completed -/

/-- Where the candidates for a word are taken from. -/
inductive Source where
  | commands
  | files
  deriving Repr, DecidableEq

/-- The candidates for a word without a slash. -/
def Source.candidates (s : Machine) (t : Terminal) (word : String) : Source → Except Fault (List String)
  | commands => (commandNames s t.user).map fun names => Text.sorted (names.filter (Text.startsWith · word)).eraseDups
  | files => (fileNames s t word).map fun names => Text.sorted names.eraseDups

/-- Where they are taken from in a step: from the commands after the operator of a redirection, and where nothing has been read. -/
def sourceIn (d : Draft) : Source := if d.awaitsPath ∨ d.words = [] ∧ d.mode? = none then .commands else .files

theorem candidatesFor_eq {isCommand : Bool} (hslash : hasSlash w = false) :
    candidatesFor s t w isCommand = (if isCommand then Source.commands else .files).candidates s t w := by
  unfold candidatesFor
  rw [hslash, Bool.not_false, Bool.and_true]
  cases isCommand
  · rcases h : fileNames s t w with e | names <;> simp only [Source.candidates, h] <;> rfl
  · rcases h : commandNames s t.user with e | names <;> simp only [Source.candidates, h] <;> rfl

/-- The candidates of a completed line are those for its last word. -/
theorem ofLine_candidates (line : String) : (ofLine s t line).map Completion.candidates =
    candidatesFor s t (spotOf line).word (spotOf line).isCommand := by
  unfold ofLine
  dsimp only
  rcases candidatesFor s t (spotOf line).word (spotOf line).isCommand with e | _ | ⟨choice, _ | ⟨next, rest⟩⟩ <;> rfl

/-- The token before a word tells how far the step has been read: an operator that redirects awaits its path, any other operator
has ended a step, and after a word there is a command or a redirection. -/
theorem expectsCommand_eq (front : List Token) : expectsCommand front = decide (sourceIn (draftAfter front) = .commands) := by
  rw [sourceIn]
  rcases List.eq_nil_or_concat front with rfl | ⟨before, last, rfl⟩
  · rfl
  rw [List.concat_eq_append, expectsCommand, List.getLast?_concat]
  rcases last with w | _ | c | mode
  · rw [draftAfter_word, if_neg]
    · rfl
    have hordered := ordered_draftAfter before
    generalize draftAfter before = d at hordered
    unfold Draft.word
    split
    · rename_i hawaits
      rintro (hfalse | ⟨-, hmode⟩)
      · exact Bool.false_ne_true hfalse
      · exact absurd (hordered.awaits hawaits) (Option.not_isSome_iff_eq_none.2 hmode)
    · rename_i hawaits
      rintro (htrue | ⟨hwords, -⟩)
      · exact hawaits htrue
      · exact List.concat_ne_nil _ _ hwords
  · rw [draftAfter_concat, draft_of_ne_redirect (by rintro r ⟨⟩)]
    rfl
  · rw [draftAfter_concat, draft_of_ne_redirect (by rintro r ⟨⟩)]
    rfl
  · rw [draftAfter_concat]
    rfl

/-- Whether a command is expected is seen in the same way by completion and by the parser exactly if the last word of a line is not
the path of a redirection, and no redirection stands before it in its step if it is a command. -/
theorem expects_iff (hblank : Text.endsBlank line = false) (htokens : tokenize line = front ++ [.word w])
    (hslash : hasSlash (unquote w) = false) :
    (ofLine s t line).map Completion.candidates = (sourceIn (draftAfter front)).candidates s t (unquote w) ∧
      ((sourceIn (draftAfter front) = .commands ↔ Begins front w) ↔
        (draftAfter front).awaitsPath = false ∧ (Begins front w → (draftAfter front).mode? = none)) := by
  constructor
  · rw [ofLine_candidates, spotOf_eq hblank htokens, candidatesFor_eq hslash, expectsCommand_eq]
    rcases sourceIn (draftAfter front) with _ | _ <;> rfl
  · rw [begins_iff, sourceIn]
    generalize draftAfter front = d
    rcases hawaits : d.awaitsPath with _ | _ <;> by_cases hwords : d.words = [] <;> by_cases hmode : d.mode? = none <;>
      simp [hwords, hmode]

/-- The path of a redirection is completed as a command, and a command after a redirection as a file. -/
theorem ofLine_redirected :
    (ofLine World.housed.machine World.homeTerminal "echo x > ec" = .ok { line := "echo x > echo ", candidates := ["echo"] } ∧
      parse "echo x > ec" = [{ steps := [{ command := "echo", args := ["x"], target? := some { mode := .write, path := "ec" } }] }]) ∧
    ofLine World.housed.machine World.homeTerminal "> f ec" = .ok { line := "> f ec", candidates := [] } ∧
      parse "> f ec" = [{ steps := [{ command := "ec", target? := some { mode := .write, path := "f" } }] }] := by
  refine ⟨⟨by decide +kernel, by decide⟩, by decide +kernel, by decide⟩

theorem expects_piped : tokenize "cat 'a|b' > f | ec" = [.word "cat", .word "'a|b'", .op (.redirect .write), .word "f", .op .pipe] ++ [.word "ec"] ∧
    (ofLine World.housed.machine World.homeTerminal "cat 'a|b' > f | ec").map Completion.candidates =
      Source.commands.candidates World.housed.machine World.homeTerminal "ec" ∧
    Begins [.word "cat", .word "'a|b'", .op (.redirect .write), .word "f", .op .pipe] "ec" := by
  have htokens : tokenize "cat 'a|b' > f | ec" =
      [.word "cat", .word "'a|b'", .op (.redirect .write), .word "f", .op .pipe] ++ [.word "ec"] := by decide
  obtain ⟨hsource, hagree⟩ := expects_iff (s := World.housed.machine) (t := World.homeTerminal) (by decide) htokens (by decide)
  exact ⟨htokens, hsource, (hagree.2 ⟨rfl, fun _ => rfl⟩).1 rfl⟩

end Completion

end SimUnix
