/-
Reading a command line undoes writing it: pipelines of any words, the empty one and those with blanks,
quotes, operators and line feeds included, are read back from their written form as they are. The words
are first read as tokens, and these are then put together again.

In the written form every word is in quotes, and a space stands between any two tokens. Inside a word, runs of
double quotes stand in single quotes, and everything else stands in double quotes.
-/
import SimUnix.Shell.Pipeline
import SimUnix.Proofs.Tree.Path
import Mathlib.Data.List.SplitBy

namespace SimUnix.Shell

/-! ## The written form -/

/-- Whether two characters may stand in one pair of quotes: both are double quotes, or neither is. -/
def sharesQuotes (a b : Char) : Bool := (a == '"') == (b == '"')

/-- The quote around a run of characters: a single one if double quotes stand in it. -/
def quoteOf (run : List Char) : Char := if run.contains '"' then '\'' else '"'

/-- A run of characters in quotes. -/
def quotedRun (run : List Char) : List Char := quoteOf run :: (run ++ [quoteOf run])

/-- The characters of a word in quotes, run by run; the empty word is an empty pair. -/
def quotedChars (word : List Char) : List Char :=
  if word.isEmpty then ['"', '"'] else (word.splitBy sharesQuotes).flatMap quotedRun

/-- The token that writes a word. -/
def quotedWord (word : String) : Token := .word (String.ofList (quotedChars word.toList))

/-- The tokens that write a step: its words, then its redirection. -/
def Step.tokens (s : Step) : List Token :=
  (s.command :: s.args).map quotedWord ++
    match s.target? with
    | some target => [.op (.redirect target.mode), quotedWord target.path]
    | none => []

/-- The tokens that write a pipeline: its steps with pipes between them, then its operator. -/
def Pipeline.tokens (p : Pipeline) : List Token :=
  [Token.op .pipe].intercalate (p.steps.map Step.tokens) ++
    p.operator?.toList.map fun c => .op (.control c)

/-- The line that writes some pipelines. -/
def written (pipelines : List Pipeline) : String :=
  Text.joinWith " " ((pipelines.flatMap Pipeline.tokens).map Token.text)

variable {run word rest : List Char} {runs : List (List Char)} {r : Pipeline.Reading}

/-! ## Runs in quotes -/

theorem isQuote_quoteOf (run : List Char) : isQuote (quoteOf run) = true := by
  unfold quoteOf
  split <;> rfl

/-- Characters of which every two that follow each other may stand in one pair of quotes. -/
def Even (run : List Char) : Prop := run.IsChain fun a b => sharesQuotes a b = true

theorem Even.shares : ∀ {run : List Char} {a : Char}, Even (a :: run) → ∀ b ∈ run, sharesQuotes a b = true
  | [], _, _, _, hb => by cases hb
  | c :: run, a, h, b, hb => by
    obtain ⟨hac, hrest⟩ := List.isChain_cons_cons.1 h
    rcases List.mem_cons.1 hb with rfl | hb
    · exact hac
    · have hcb := Even.shares hrest b hb
      unfold sharesQuotes at hac hcb ⊢
      rw [beq_iff_eq] at hac hcb ⊢
      exact hac.trans hcb

/-- The quote around a run does not stand in it. -/
theorem Even.quoteOf_not_mem (h : Even run) : quoteOf run ∉ run := by
  cases run with
  | nil => exact List.not_mem_nil
  | cons a run =>
    -- All of the run is double quotes as soon as one of it is.
    have hall : ∀ b ∈ a :: run, (b == '"') = (a == '"') := by
      intro b hb
      rcases List.mem_cons.1 hb with rfl | hb
      · rfl
      · exact (beq_iff_eq.1 (h.shares b hb)).symm
    intro hmem
    have hquote := hall _ hmem
    unfold quoteOf at hmem hquote
    split at hmem
    · rename_i hdouble
      have htrue := hall '"' (List.contains_iff_mem.1 hdouble)
      rw [if_pos hdouble, ← htrue] at hquote
      cases hquote
    · rename_i hdouble
      exact hdouble (List.contains_iff_mem.2 hmem)

/-! ## Words -/

/-- Up to the quote that closes it, a quoted part of a line goes into the word. -/
theorem scan_open {q : Char} : ∀ {run word : List Char}, q ∉ run →
    scan (some q) word (run ++ q :: rest) = scan none (word ++ run ++ [q]) rest
  | [], word, _ => by
    show scan (if q = q then none else some q) (word ++ [q]) rest = _
    rw [if_pos rfl, List.append_nil]
  | c :: run, word, h => by
    obtain ⟨hc, hrun⟩ := not_or.1 (mt List.mem_cons.2 h)
    show scan (if c = q then none else some q) (word ++ [c]) (run ++ q :: rest) = _
    rw [if_neg (Ne.symm hc), scan_open hrun, List.append_assoc word]
    rfl

theorem scan_quote {c : Char} (h : isQuote c = true) : scan none word (c :: rest) = scan (some c) (word ++ [c]) rest := by
  cases rest <;> simp only [scan, h, if_true]

/-- A blank ends the word before it. -/
theorem scan_blank {c : Char} (hquote : isQuote c = false) (hblank : Text.isBlank c = true) :
    scan none word (c :: rest) = wordToken word ++ scan none [] rest := by
  have hend : wordToken [] = [] := rfl
  cases rest <;> simp only [scan, hquote, hblank, Bool.false_eq_true, if_true, if_false, hend, List.append_nil]

theorem scan_pair {c d : Char} {o : Operator} (hquote : isQuote c = false) (hblank : Text.isBlank c = false)
    (ho : Operator.ofPair? c d = some o) :
    scan none word (c :: d :: rest) = wordToken word ++ .op o :: scan none [] rest := by
  simp only [scan, hquote, hblank, Bool.false_eq_true, if_false, ho]

theorem scan_single {c d : Char} {o : Operator} (hquote : isQuote c = false) (hblank : Text.isBlank c = false)
    (hpair : Operator.ofPair? c d = none) (ho : Operator.ofChar? c = some o) :
    scan none word (c :: d :: rest) = wordToken word ++ .op o :: scan none [] (d :: rest) := by
  simp only [scan, hquote, hblank, Bool.false_eq_true, if_false, hpair, ho]

theorem scan_quotedRun (h : Even run) : scan none word (quotedRun run ++ rest) = scan none (word ++ quotedRun run) rest := by
  rw [quotedRun, List.cons_append, scan_quote (isQuote_quoteOf run), List.append_assoc, List.singleton_append,
    scan_open h.quoteOf_not_mem]
  simp only [List.append_assoc, List.cons_append, List.nil_append]

theorem scan_quotedRuns : ∀ {runs : List (List Char)} {word : List Char}, (∀ run ∈ runs, Even run) →
    scan none word (runs.flatMap quotedRun ++ rest) = scan none (word ++ runs.flatMap quotedRun) rest
  | [], word, _ => by simp
  | run :: runs, word, h => by
    rw [List.flatMap_cons, List.append_assoc, scan_quotedRun (h run List.mem_cons_self),
      scan_quotedRuns fun run hrun => h run (List.mem_cons_of_mem _ hrun), List.append_assoc]

theorem even_of_mem_splitBy (h : run ∈ word.splitBy sharesQuotes) : Even run := List.isChain_of_mem_splitBy h

/-- A word in quotes is read as part of one word. -/
theorem scan_quotedChars (word : List Char) : scan none [] (quotedChars word ++ rest) = scan none (quotedChars word) rest := by
  unfold quotedChars
  split
  · rfl
  · exact scan_quotedRuns fun _ => even_of_mem_splitBy

theorem unquoteChars_open {q : Char} : ∀ {run : List Char}, q ∉ run →
    unquoteChars (some q) (run ++ q :: rest) = run ++ unquoteChars none rest
  | [], _ => by
    show (if q = q then unquoteChars none rest else q :: unquoteChars (some q) rest) = _
    rw [if_pos rfl]
    rfl
  | c :: run, h => by
    obtain ⟨hc, hrun⟩ := not_or.1 (mt List.mem_cons.2 h)
    show (if c = q then unquoteChars none (run ++ q :: rest) else c :: unquoteChars (some q) (run ++ q :: rest)) = _
    rw [if_neg (Ne.symm hc), unquoteChars_open hrun]
    rfl

theorem unquoteChars_quotedRuns : ∀ {runs : List (List Char)}, (∀ run ∈ runs, Even run) →
    unquoteChars none (runs.flatMap quotedRun) = runs.flatten
  | [], _ => rfl
  | run :: runs, h => by
    rw [List.flatMap_cons, List.flatten_cons, quotedRun, List.cons_append, unquoteChars, if_pos (isQuote_quoteOf run),
      List.append_assoc, List.singleton_append, unquoteChars_open (h run List.mem_cons_self).quoteOf_not_mem,
      unquoteChars_quotedRuns fun run hrun => h run (List.mem_cons_of_mem _ hrun)]

/-- Taking the quotes away gives the word back. -/
theorem unquoteChars_quotedChars (word : List Char) : unquoteChars none (quotedChars word) = word := by
  unfold quotedChars
  split
  · rename_i hempty
    exact (List.isEmpty_iff.1 hempty).symm
  · rw [unquoteChars_quotedRuns fun _ => even_of_mem_splitBy, List.flatten_splitBy]

theorem unquote_quotedChars (word : String) : unquote (String.ofList (quotedChars word.toList)) = word := by
  unfold unquote
  rw [String.toList_ofList, unquoteChars_quotedChars, String.ofList_toList]

/-! ## Tokens -/

/-- A word in quotes starts and ends with one. -/
theorem ends_quotedRuns : ∀ {runs : List (List Char)}, runs ≠ [] → ∃ hne : runs.flatMap quotedRun ≠ [],
    isQuote ((runs.flatMap quotedRun).head hne) = true ∧ isQuote ((runs.flatMap quotedRun).getLast hne) = true
  | [run], _ => by
    have hone : [run].flatMap quotedRun = quotedRun run := List.flatMap_singleton ..
    rw [hone, quotedRun]
    refine ⟨List.cons_ne_nil _ _, isQuote_quoteOf run, ?_⟩
    rw [List.getLast_cons (by simp), List.getLast_append_singleton]
    exact isQuote_quoteOf run
  | run :: next :: runs, _ => by
    obtain ⟨hne, -, hlast⟩ := ends_quotedRuns (List.cons_ne_nil next runs)
    rw [List.flatMap_cons]
    refine ⟨List.append_ne_nil_of_right_ne_nil _ hne, ?_, ?_⟩
    · exact isQuote_quoteOf run
    · rw [List.getLast_append_of_ne_nil _ hne]
      exact hlast

theorem not_blank_of_isQuote {c : Char} (h : isQuote c = true) : Text.isBlank c = false := by
  unfold isQuote at h
  rcases Bool.or_eq_true_iff.1 h with h | h <;> rw [beq_iff_eq.1 h] <;> rfl

/-- Nothing of a word in quotes is trimmed away. -/
theorem wordToken_quotedChars (word : List Char) : wordToken (quotedChars word) = [.word (String.ofList (quotedChars word))] := by
  have hends : ∃ hne : quotedChars word ≠ [],
      isQuote ((quotedChars word).head hne) = true ∧ isQuote ((quotedChars word).getLast hne) = true := by
    unfold quotedChars
    split
    · exact ⟨by simp, rfl, rfl⟩
    · rename_i hempty
      exact ends_quotedRuns (List.splitBy_ne_nil.2 fun hnil => hempty (List.isEmpty_iff.2 hnil))
  obtain ⟨hne, hfirst, hlast⟩ := hends
  have htrim : Text.trimChars (quotedChars word) = quotedChars word :=
    Text.trimBy_of_ends hne (not_blank_of_isQuote hfirst) (not_blank_of_isQuote hlast)
  unfold wordToken
  rw [htrim, if_neg (by simpa using hne)]

/-- The tokens of a written line: operators, and words in quotes. -/
inductive Token.Quoted : Token → Prop
  | word (word : String) : Token.Quoted (quotedWord word)
  | op (o : Operator) : Token.Quoted (.op o)

theorem Token.Quoted.scan_last {t : Token} (h : t.Quoted) : scan none [] t.text.toList = [t] := by
  cases h with
  | word word =>
    show scan none [] (String.ofList (quotedChars word.toList)).toList = _
    rw [String.toList_ofList, ← List.append_nil (quotedChars word.toList), scan_quotedChars]
    exact wordToken_quotedChars word.toList
  | op o => rcases o with _ | ⟨_ | _ | _⟩ | ⟨_ | _⟩ <;> decide

/-- A space ends a token. -/
theorem Token.Quoted.scan_next {t : Token} (h : t.Quoted) :
    scan none [] (t.text.toList ++ ' ' :: rest) = t :: scan none [] rest := by
  cases h with
  | word word =>
    show scan none [] ((String.ofList (quotedChars word.toList)).toList ++ ' ' :: rest) = _
    rw [String.toList_ofList, scan_quotedChars, scan_blank rfl rfl, wordToken_quotedChars]
    rfl
  | op o =>
    have hspace : ∀ {word : List Char}, scan none word (' ' :: rest) = wordToken word ++ scan none [] rest := scan_blank rfl rfl
    rcases o with _ | ⟨_ | _ | _⟩ | ⟨_ | _⟩
    all_goals
      first
      | exact (scan_pair rfl rfl rfl).trans (congrArg (_ :: ·) hspace)
      | exact (scan_single rfl rfl rfl rfl).trans (congrArg (_ :: ·) hspace)

/-- Tokens with spaces between them are read back. -/
theorem tokenize_joinWith : ∀ {tokens : List Token}, (∀ t ∈ tokens, t.Quoted) →
    tokenize (Text.joinWith " " (tokens.map Token.text)) = tokens := by
  have hscan : ∀ {tokens : List Token}, (∀ t ∈ tokens, t.Quoted) →
      scan none [] ([' '].intercalate (tokens.map fun t => t.text.toList)) = tokens := by
    intro tokens h
    induction tokens with
    | nil => rfl
    | cons t tokens ih =>
      have ht := h t List.mem_cons_self
      have ih := ih fun t ht => h t (List.mem_cons_of_mem _ ht)
      cases tokens with
      | nil => exact (congrArg (scan none []) (List.intercalate_singleton ..)).trans ht.scan_last
      | cons next tokens =>
        rw [List.map_cons, List.map_cons, List.intercalate_cons_cons, List.append_assoc, List.singleton_append, ht.scan_next]
        exact congrArg (t :: ·) ih
  intro tokens h
  unfold tokenize Text.joinWith
  rw [String.toList_intercalate, List.map_map]
  exact hscan h

/-! ## Steps -/

namespace Pipeline

/-- The draft from which a step is made. -/
def Draft.ofStep (s : Step) : Draft :=
  { words := s.command :: s.args, mode? := s.target?.map Target.mode, path? := s.target?.map Target.path }

theorem Draft.step?_ofStep (s : Step) : (Draft.ofStep s).step? = some s := by
  obtain ⟨command, args, _ | target⟩ := s <;> rfl

theorem next_quotedWord {word : String} (h : r.draft.awaitsPath = false) :
    r.next (quotedWord word) = { r with draft := { r.draft with words := r.draft.words ++ [word] } } := by
  simp only [quotedWord, Reading.next, h, Bool.false_eq_true, if_false, unquote_quotedChars]

theorem next_quotedPath {path : String} (h : r.draft.awaitsPath = true) :
    r.next (quotedWord path) = { r with draft := { r.draft with path? := some path, awaitsPath := false } } := by
  simp only [quotedWord, Reading.next, h, if_true, unquote_quotedChars]

theorem foldl_quotedWords : ∀ {words : List String} {r : Reading}, r.draft.awaitsPath = false →
    (words.map quotedWord).foldl Reading.next r = { r with draft := { r.draft with words := r.draft.words ++ words } }
  | [], r, _ => by simp
  | word :: words, r, h => by
    rw [List.map_cons, List.foldl_cons, next_quotedWord h, foldl_quotedWords (by exact h)]
    simp

/-- The tokens of a step are put together to its draft. -/
theorem foldl_step {pipelines : List Pipeline} {steps : List Step} (s : Step) :
    s.tokens.foldl Reading.next { pipelines, steps } = { pipelines, steps, draft := .ofStep s } := by
  unfold Step.tokens
  rw [List.foldl_append, foldl_quotedWords rfl]
  obtain ⟨command, args, _ | ⟨mode, path⟩⟩ := s
  · rfl
  · rw [List.foldl_cons, List.foldl_cons, List.foldl_nil, next_quotedPath rfl]
    rfl

/-- The tokens of some steps are put together to these steps. -/
theorem endStep_foldl_steps {pipelines : List Pipeline} : ∀ {rest steps : List Step} {s : Step},
    (([Token.op .pipe].intercalate ((s :: rest).map Step.tokens)).foldl Reading.next { pipelines, steps }).endStep =
      { pipelines, steps := steps ++ s :: rest }
  | [], steps, s => by
    rw [List.map_cons, List.map_nil, List.intercalate_singleton, foldl_step]
    unfold Reading.endStep
    rw [Draft.step?_ofStep]
    rfl
  | next :: rest, steps, s => by
    rw [List.map_cons, List.map_cons, List.intercalate_cons_cons, List.foldl_append, List.foldl_append, foldl_step]
    -- The pipe completes the step before it.
    have hpipe : [Token.op .pipe].foldl Reading.next { pipelines, steps, draft := .ofStep s } =
        { pipelines, steps := steps ++ [s] } := by
      show Reading.endStep _ = _
      unfold Reading.endStep
      rw [Draft.step?_ofStep]
      rfl
    rw [hpipe, ← List.map_cons, endStep_foldl_steps, List.append_assoc]
    rfl

/-! ## Pipelines -/

theorem endPipeline_of_endStep {pipelines : List Pipeline} {steps : List Step} {operator? : Option Control} (hne : steps ≠ [])
    (h : r.endStep = { pipelines, steps }) : r.endPipeline operator? = { pipelines := pipelines ++ [{ steps, operator? }] } := by
  unfold Reading.endPipeline
  dsimp only
  rw [h, if_neg (by simpa using hne)]

/-- The tokens of a pipeline are put together to it by the operator that follows it. -/
theorem foldl_pipeline {before : List Pipeline} {p : Pipeline} {c : Control} (hsteps : p.steps ≠ []) (hop : p.operator? = some c) :
    p.tokens.foldl Reading.next { pipelines := before } = { pipelines := before ++ [p] } := by
  obtain ⟨steps, operator?⟩ := p
  obtain ⟨s, rest, rfl⟩ := List.exists_cons_of_ne_nil hsteps
  cases hop
  unfold tokens
  rw [List.foldl_append]
  exact endPipeline_of_endStep (List.cons_ne_nil s rest) endStep_foldl_steps

/-- The tokens of a pipeline are put together to it at the end of the line, if no operator follows it. -/
theorem endPipeline_foldl_pipeline {before : List Pipeline} {p : Pipeline} (hsteps : p.steps ≠ []) (hop : p.operator? = none) :
    (p.tokens.foldl Reading.next { pipelines := before }).endPipeline none = { pipelines := before ++ [p] } := by
  obtain ⟨steps, operator?⟩ := p
  obtain ⟨s, rest, rfl⟩ := List.exists_cons_of_ne_nil hsteps
  cases hop
  unfold tokens
  rw [List.foldl_append]
  exact endPipeline_of_endStep (List.cons_ne_nil s rest) endStep_foldl_steps

/-- Tokens of pipelines are put together to the pipelines, if only the last of them lacks an operator. -/
theorem endPipeline_foldl_pipelines : ∀ {pipelines before : List Pipeline}, (∀ p ∈ pipelines, p.steps ≠ []) →
    (∀ p ∈ pipelines.dropLast, p.operator?.isSome) →
    (((pipelines.flatMap tokens).foldl Reading.next { pipelines := before }).endPipeline none).pipelines = before ++ pipelines
  | [], before, _, _ => (List.append_nil before).symm
  | [p], before, hsteps, _ => by
    have hp := hsteps p List.mem_cons_self
    rw [List.flatMap_singleton]
    rcases hop : p.operator? with _ | c
    · rw [endPipeline_foldl_pipeline hp hop]
    · rw [foldl_pipeline hp hop]
      rfl
  | p :: next :: rest, before, hsteps, hops => by
    obtain ⟨c, hop⟩ := Option.isSome_iff_exists.1 (hops p List.mem_cons_self)
    rw [List.flatMap_cons, List.foldl_append, foldl_pipeline (hsteps p List.mem_cons_self) hop,
      endPipeline_foldl_pipelines (fun p hp => hsteps p (List.mem_cons_of_mem _ hp))
        fun p hp => hops p (List.mem_cons_of_mem _ hp), List.append_assoc]
    rfl

theorem quoted_step {s : Step} {t : Token} (h : t ∈ s.tokens) : t.Quoted := by
  unfold Step.tokens at h
  rcases List.mem_append.1 h with h | h
  · obtain ⟨word, -, rfl⟩ := List.mem_map.1 h
    exact .word word
  · split at h
    · rcases List.mem_cons.1 h with rfl | h
      · exact .op _
      · cases List.mem_singleton.1 h
        exact .word _
    · cases h

theorem quoted_steps {t : Token} : ∀ {steps : List Step},
    t ∈ [Token.op .pipe].intercalate (steps.map Step.tokens) → t.Quoted
  | [], h => by cases h
  | [s], h => quoted_step (by rwa [List.map_cons, List.map_nil, List.intercalate_singleton] at h)
  | s :: next :: rest, h => by
    rw [List.map_cons, List.map_cons, List.intercalate_cons_cons, List.append_assoc, ← List.map_cons] at h
    rcases List.mem_append.1 h with h | h
    · exact quoted_step h
    · rcases List.mem_cons.1 h with rfl | h
      · exact .op .pipe
      · exact quoted_steps h

theorem quoted_tokens {p : Pipeline} {t : Token} (h : t ∈ p.tokens) : t.Quoted := by
  rcases List.mem_append.1 h with h | h
  · exact quoted_steps h
  · obtain ⟨c, -, rfl⟩ := List.mem_map.1 h
    exact .op _

end Pipeline

/-- Pipelines are read back from the line that writes them. Each of them must have a step, and each but the
last an operator; the words may be any. -/
theorem parse_pipelines_written {pipelines : List Pipeline} (hsteps : ∀ p ∈ pipelines, p.steps ≠ [])
    (hops : ∀ p ∈ pipelines.dropLast, p.operator?.isSome) : parse (written pipelines) = pipelines := by
  have htokens : tokenize (written pipelines) = pipelines.flatMap Pipeline.tokens := tokenize_joinWith fun t ht => by
    obtain ⟨p, -, hp⟩ := List.mem_flatMap.1 ht
    exact Pipeline.quoted_tokens hp
  unfold parse Pipeline.ofTokens
  rw [htokens]
  exact Pipeline.endPipeline_foldl_pipelines hsteps hops

/-- Two pipelines whose words hold a blank, an operator, both kinds of quotes, a line feed, or nothing at all. -/
def oddPipelines : List Pipeline :=
  [{ steps := [{ command := "echo", args := ["a b", "", "it's \"x\"", "&& |"] }, { command := "" }], operator? := some .and },
    { steps := [{ command := "cat", args := ["\n"], target? := some { mode := .append, path := "> \"" } }] }]

theorem parse_oddPipelines : (∀ p ∈ oddPipelines, p.steps ≠ []) ∧ (∀ p ∈ oddPipelines.dropLast, p.operator?.isSome) ∧
    parse (written oddPipelines) = oddPipelines :=
  ⟨by decide, by decide, parse_pipelines_written (by decide) (by decide)⟩

end SimUnix.Shell
