/-
What a line is cut into. Every character of it comes back in the tokens but the blanks outside of
quotes, outside of quotes no operator is left inside a word, and where no quote is open a space cuts
a line into two that can be read apart from each other.
-/
import SimUnix.Proofs.Shell.RoundTrip

namespace SimUnix.Shell

variable {q? : Option Char} {c : Char} {o : Operator} {cs word rest line : List Char} {tokens : List Token}

/-! ## Quotes -/

/-- The quote that is open after one more character. -/
def quoteAfter : Option Char → Char → Option Char
  | some q, c => if c = q then none else some q
  | none, c => if isQuote c then some c else none

/-- The quote that is open after some characters. -/
def openQuote (q? : Option Char) (cs : List Char) : Option Char := cs.foldl quoteAfter q?

/-- Every quote of the line is closed. -/
def Balanced (line : String) : Prop := openQuote none line.toList = none

instance (line : String) : Decidable (Balanced line) := inferInstanceAs (Decidable (openQuote none line.toList = none))

/-- The characters of a text, each with whether it is quoted: it stands in quotes, or is one of them. -/
def marked : Option Char → List Char → List (Char × Bool)
  | _, [] => []
  | q?, c :: cs => (c, q?.isSome || isQuote c) :: marked (quoteAfter q? c) cs

/-- What is kept of marked characters: all but the blanks that are not quoted. -/
def kept (marks : List (Char × Bool)) : List Char := (marks.filter fun m => m.2 || !Text.isBlank m.1).map Prod.fst

/-- A line without the blanks outside of its quotes. -/
def unspaced (line : String) : String := String.ofList (kept (marked none line.toList))

/-- Among the characters that are not quoted there is no operator of one character, and no two `&` follow
each other. -/
structure Bare (marks : List (Char × Bool)) : Prop where
  plain : ∀ c ∈ ['|', ';', '>'], (c, false) ∉ marks
  lone : ¬ [('&', false), ('&', false)] <:+: marks

theorem openQuote_append (q? : Option Char) (cs ds : List Char) : openQuote q? (cs ++ ds) = openQuote (openQuote q? cs) ds :=
  List.foldl_append

/-- Only a quote is ever open. -/
theorem isQuote_of_openQuote : ∀ (cs : List Char) {q? : Option Char}, (∀ q ∈ q?, isQuote q = true) →
    ∀ q ∈ openQuote q? cs, isQuote q = true
  | [], _, h => h
  | c :: cs, q?, h => by
    have hnext : ∀ q ∈ quoteAfter q? c, isQuote q = true := by
      intro q hq
      rcases q? with _ | q'
      · obtain ⟨hc, hq⟩ := Option.ite_none_right_eq_some.1 hq
        cases hq
        exact hc
      · obtain ⟨-, hq⟩ := Option.ite_none_left_eq_some.1 hq
        exact h q hq
    exact isQuote_of_openQuote cs hnext

/-- The character that closes a quote is that quote, and a quote that stands outside of quotes opens one. -/
theorem isQuote_of_quoteAfter (hq : ∀ q ∈ q?, isQuote q = true) (hc : (q?.isSome || isQuote c) = true)
    (h : quoteAfter q? c = none) : isQuote c = true := by
  rcases q? with _ | q
  · exact hc
  · have hclosed : c = q := by_contra fun hne => by
      rw [quoteAfter, if_neg hne] at h
      cases h
    rw [hclosed]
    exact hq q rfl

theorem marked_append : ∀ (q? : Option Char) (cs ds : List Char),
    marked q? (cs ++ ds) = marked q? cs ++ marked (openQuote q? cs) ds
  | _, [], _ => rfl
  | _, _ :: cs, ds => congrArg (_ :: ·) (marked_append _ cs ds)

theorem map_fst_marked : ∀ (q? : Option Char) (cs : List Char), (marked q? cs).map Prod.fst = cs
  | _, [] => rfl
  | _, c :: cs => congrArg (c :: ·) (map_fst_marked _ cs)

theorem kept_append (ms ns : List (Char × Bool)) : kept (ms ++ ns) = kept ms ++ kept ns := by
  unfold kept
  rw [List.filter_append, List.map_append]

/-- What is bare stays bare where it is cut off. -/
theorem Bare.of_prefix {ms ns : List (Char × Bool)} (h : Bare ns) (hp : ms <+: ns) : Bare ms :=
  ⟨fun c hc hm => h.plain c hc (hp.subset hm), fun hi => h.lone (hi.trans hp.isInfix)⟩

/-- One more character leaves a text bare if it makes no operator of its own or with the one before it. -/
theorem Bare.concat {ms : List (Char × Bool)} {m : Char × Bool} (h : Bare ms) (hplain : m.2 = false → m.1 ∉ ['|', ';', '>'])
    (hlone : m = ('&', false) → ms.getLast? ≠ some ('&', false)) : Bare (ms ++ [m]) := by
  refine ⟨fun c hc hm => ?_, fun hi => ?_⟩
  · rcases List.mem_append.1 hm with hm | hm
    · exact h.plain c hc hm
    · rw [← List.mem_singleton.1 hm] at hplain
      exact hplain rfl hc
  · rcases List.infix_concat_iff.1 hi with hi | hi
    · obtain hnil | ⟨front, hfront, hsuffix⟩ := List.suffix_concat_iff.1 hi
      · cases hnil
      · obtain ⟨rfl, hm⟩ := List.append_inj' (show [('&', false)] ++ [('&', false)] = _ from hfront) rfl
        exact hlone (List.singleton_inj.1 hm).symm (List.singleton_suffix_iff_getLast?_eq_some.1 hsuffix)
    · exact h.lone hi

/-! ## Steps of reading -/

/-- The operator that a text of a character and a rest starts with, and what follows it. Two characters are
tried before one. -/
def Operator.leading? (c : Char) (rest : List Char) : Option (Operator × List Char) :=
  ((rest.head?.bind (ofPair? c)).map (·, rest.tail)).or ((ofChar? c).map (·, rest))

namespace Operator

theorem text_of_ofChar? (h : ofChar? c = some o) : o.text.toList = [c] := by
  unfold ofChar? at h
  split_ifs at h with h₁ h₂ h₃ <;> cases h <;> subst_vars <;> rfl

theorem text_of_ofPair? {d : Char} (h : ofPair? c d = some o) : o.text.toList = [c, d] := by
  unfold ofPair? at h
  split_ifs at h with h₁ h₂ h₃ <;> cases h
  · rw [h₁.1, h₁.2]; rfl
  · rw [h₂.1, h₂.2]; rfl
  · rw [h₃.1, h₃.2]; rfl

theorem not_mem_of_ofChar? (h : ofChar? c = none) : c ∉ ['|', ';', '>'] := by
  unfold ofChar? at h
  split_ifs at h with h₁ h₂ h₃
  simp only [List.mem_cons, List.not_mem_nil, or_false, not_or]
  exact ⟨h₁, h₂, h₃⟩

theorem ofPair?_space (c : Char) : ofPair? c ' ' = none := by
  unfold ofPair?
  rw [if_neg fun h => absurd h.2 (by decide), if_neg fun h => absurd h.2 (by decide),
    if_neg fun h => absurd h.2 (by decide)]

/-- An operator has neither quotes nor blanks in its text. -/
theorem marked_text (o : Operator) : openQuote none o.text.toList = none ∧ kept (marked none o.text.toList) = o.text.toList := by
  rcases o with _ | ⟨_ | _ | _⟩ | ⟨_ | _⟩ <;> decide

/-- The operator that is read is what the text starts with. -/
theorem eq_of_leading? (h : leading? c cs = some (o, rest)) : c :: cs = o.text.toList ++ rest := by
  obtain h | ⟨-, h⟩ := Option.or_eq_some_iff.1 h
  · obtain ⟨found, hfound, heq⟩ := Option.map_eq_some_iff.1 h
    obtain ⟨d, hd, hpair⟩ := Option.bind_eq_some_iff.1 hfound
    cases heq
    rw [text_of_ofPair? hpair, List.eq_cons_of_mem_head? hd]
    rfl
  · obtain ⟨found, hfound, heq⟩ := Option.map_eq_some_iff.1 h
    cases heq
    rw [text_of_ofChar? hfound]
    rfl

/-- An operator starts neither with a quote nor with a blank. -/
theorem plain_of_leading? (h : leading? c cs = some (o, rest)) : isQuote c = false ∧ Text.isBlank c = false := by
  have htext := eq_of_leading? h
  rcases o with _ | ⟨_ | _ | _⟩ | ⟨_ | _⟩ <;> (obtain ⟨rfl, -⟩ := List.cons.inj htext; decide)

theorem length_of_leading? (h : leading? c cs = some (o, rest)) : rest.length ≤ cs.length := by
  have htext := congrArg List.length (eq_of_leading? h)
  have hlength : 1 ≤ o.text.toList.length := by rcases o with _ | ⟨_ | _ | _⟩ | ⟨_ | _⟩ <;> decide
  rw [List.length_append, List.length_cons] at htext
  omega

/-- A space after a text does not change which operator it starts with. -/
theorem leading?_space (c : Char) (cs ds : List Char) :
    leading? c (cs ++ ' ' :: ds) = (leading? c cs).map fun found => (found.1, found.2 ++ ' ' :: ds) := by
  unfold leading?
  rw [Option.map_or, Option.map_map, Option.map_map]
  rcases cs with _ | ⟨d, cs⟩
  · show ((ofPair? c ' ').map _).or _ = _
    rw [ofPair?_space]
    rfl
  · rfl

theorem leading?_eq_none : leading? c cs = none ↔ cs.head?.bind (ofPair? c) = none ∧ ofChar? c = none := by
  unfold leading?
  rw [Option.or_eq_none_iff, Option.map_eq_none_iff, Option.map_eq_none_iff]

theorem ofChar?_of_leading? (h : leading? c rest = none) : ofChar? c = none :=
  (leading?_eq_none.1 h).2

/-- An `&` that is no operator is followed by another character. -/
theorem lone_of_leading? (h : leading? '&' rest = none) : rest.head? ≠ some '&' := fun hd => by
  have hpair := (leading?_eq_none.1 h).1
  rw [hd] at hpair
  cases hpair

end Operator

/-- How the rest of a line is read, given the quote that is open and the characters of the word read so
far: one rule for each way in which the next characters are taken. -/
inductive Scanned : Option Char → List Char → List Char → List Token → Prop
  | done {q? : Option Char} {word : List Char} : Scanned q? word [] (wordToken word)
  | quoted {q? : Option Char} {c : Char} {word rest : List Char} {tokens : List Token} (hc : (q?.isSome || isQuote c) = true)
      (h : Scanned (quoteAfter q? c) (word ++ [c]) rest tokens) : Scanned q? word (c :: rest) tokens
  | blank {c : Char} {word rest : List Char} {tokens : List Token} (hblank : Text.isBlank c = true)
      (h : Scanned none [] rest tokens) : Scanned none word (c :: rest) (wordToken word ++ tokens)
  | operator {c : Char} {o : Operator} {word cs rest : List Char} {tokens : List Token}
      (ho : Operator.leading? c cs = some (o, rest))
      (h : Scanned none [] rest tokens) : Scanned none word (c :: cs) (wordToken word ++ .op o :: tokens)
  | plain {c : Char} {word rest : List Char} {tokens : List Token} (hquote : isQuote c = false) (hblank : Text.isBlank c = false)
      (ho : Operator.leading? c rest = none) (h : Scanned none (word ++ [c]) rest tokens) : Scanned none word (c :: rest) tokens

theorem scan_quoted (hc : (q?.isSome || isQuote c) = true) :
    scan q? word (c :: rest) = scan (quoteAfter q? c) (word ++ [c]) rest := by
  rcases q? with _ | q
  · have hc : isQuote c = true := hc
    rw [scan_quote hc, quoteAfter, if_pos hc]
  · rfl

theorem scan_operator (ho : Operator.leading? c cs = some (o, rest)) :
    scan none word (c :: cs) = wordToken word ++ .op o :: scan none [] rest := by
  obtain ⟨hquote, hblank⟩ := Operator.plain_of_leading? ho
  have hend : wordToken [] = [] := rfl
  rcases cs with _ | ⟨d, cs⟩
  · obtain ⟨found, hfound, heq⟩ := Option.map_eq_some_iff.1 ho
    cases heq
    simp only [scan, hquote, hblank, Bool.false_eq_true, if_false, hfound, hend]
  · rcases hpair : Operator.ofPair? c d with _ | found
    · unfold Operator.leading? at ho
      rw [show ((d :: cs).head?.bind (Operator.ofPair? c)) = none from hpair] at ho
      obtain ⟨found, hfound, heq⟩ := Option.map_eq_some_iff.1 ho
      cases heq
      exact scan_single hquote hblank hpair hfound
    · unfold Operator.leading? at ho
      rw [show ((d :: cs).head?.bind (Operator.ofPair? c)) = some found from hpair] at ho
      cases ho
      exact scan_pair hquote hblank hpair

theorem scan_plain (hquote : isQuote c = false) (hblank : Text.isBlank c = false) (ho : Operator.leading? c rest = none) :
    scan none word (c :: rest) = scan none (word ++ [c]) rest := by
  have hsingle := Operator.ofChar?_of_leading? ho
  rcases rest with _ | ⟨d, rest⟩
  · simp only [scan, hquote, hblank, Bool.false_eq_true, if_false, hsingle]
  · have hpair : Operator.ofPair? c d = none := (Operator.leading?_eq_none.1 ho).1
    simp only [scan, hquote, hblank, Bool.false_eq_true, if_false, hpair, hsingle]

theorem not_isQuote_of_blank (h : Text.isBlank c = true) : isQuote c = false := by
  rcases hc : isQuote c with _ | _
  · rfl
  · rw [not_blank_of_isQuote hc] at h
    cases h

/-- Every line is read by the rules. -/
theorem scanned_scan (q? : Option Char) (word : List Char) : (line : List Char) → Scanned q? word line (scan q? word line)
  | [] => by cases q? <;> exact .done
  | c :: rest => by
    by_cases hc : (q?.isSome || isQuote c) = true
    · rw [scan_quoted hc]
      exact .quoted hc (scanned_scan _ _ rest)
    · rcases q? with _ | q
      · have hquote : isQuote c = false := Bool.eq_false_iff.2 hc
        rcases hblank : Text.isBlank c with _ | _
        · rcases ho : Operator.leading? c rest with _ | ⟨o, after⟩
          · rw [scan_plain hquote hblank ho]
            exact .plain hquote hblank ho (scanned_scan _ _ rest)
          · have hlength := Operator.length_of_leading? ho
            rw [scan_operator ho]
            exact .operator ho (scanned_scan _ _ after)
        · rw [scan_blank hquote hblank]
          exact .blank hblank (scanned_scan _ _ rest)
      · exact absurd rfl hc
termination_by line => line.length
decreasing_by all_goals (rw [List.length_cons]; omega)

/-! ## Two lines in one -/

/-- Where no quote is left open, a space ends what was read, and what follows is read as if it stood alone. -/
theorem Scanned.append {as : List Char} (h : Scanned q? word as tokens) (hq : openQuote q? as = none) (bs : List Char) :
    scan q? word (as ++ ' ' :: bs) = tokens ++ scan none [] bs := by
  induction h with
  | done =>
    cases hq
    exact scan_blank rfl rfl
  | quoted hc _ ih => rw [List.cons_append, scan_quoted hc, ih hq]
  | blank hblank _ ih =>
    have hquote := not_isQuote_of_blank hblank
    rw [openQuote, List.foldl_cons, quoteAfter, hquote, if_neg Bool.false_ne_true] at hq
    rw [List.cons_append, scan_blank hquote hblank, ih hq, List.append_assoc]
  | @operator c o _ cs after _ ho _ ih =>
    rw [Operator.eq_of_leading? ho, openQuote_append, (Operator.marked_text _).1] at hq
    have ho' : Operator.leading? c (cs ++ ' ' :: bs) = some (o, after ++ ' ' :: bs) := by
      rw [Operator.leading?_space, ho]
      rfl
    rw [List.cons_append, scan_operator ho', ih hq, List.append_assoc, List.cons_append]
  | @plain c _ cs _ hquote hblank ho _ ih =>
    rw [openQuote, List.foldl_cons, quoteAfter, hquote, if_neg Bool.false_ne_true] at hq
    have ho' : Operator.leading? c (cs ++ ' ' :: bs) = none := by
      rw [Operator.leading?_space, ho]
      rfl
    rw [List.cons_append, scan_plain hquote hblank ho', ih hq]

/-- A space after a line whose quotes are closed cuts it off from what follows. -/
theorem Balanced.tokenize_append {a : String} (h : Balanced a) (b : String) :
    tokenize (a ++ " " ++ b) = tokenize a ++ tokenize b := by
  unfold tokenize
  rw [String.toList_append, String.toList_append, List.append_assoc]
  exact (scanned_scan none [] a.toList).append h b.toList

/-! ## The word being read -/

/-- What is known of the characters of the word read so far: they leave open the quote that is open, start
with no blank and end with none outside of quotes, and hold no operator, also not together with
the character that comes next. -/
structure Buffered (q? : Option Char) (word rest : List Char) : Prop where
  quote : openQuote none word = q?
  first : ∀ c ∈ word.head?, Text.isBlank c = false
  last : q? = none → ∀ c ∈ word.getLast?, Text.isBlank c = false
  bare : Bare (marked none word)
  lone : q? = none → word.getLast? = some '&' → rest.head? ≠ some '&'

theorem Buffered.nil (rest : List Char) : Buffered none [] rest where
  quote := rfl
  first _ hc := by cases hc
  last _ _ hc := by cases hc
  bare := ⟨fun _ _ hc => (List.not_mem_nil hc).elim, fun h => by cases List.infix_nil.1 h⟩
  lone _ hc := by cases hc

theorem Buffered.isQuote (h : Buffered q? word rest) : ∀ q ∈ q?, isQuote q = true := by
  rw [← h.quote]
  exact isQuote_of_openQuote word fun q hq => by cases hq

/-- A quoted character goes into the word. -/
theorem Buffered.quoted (h : Buffered q? word (c :: rest)) (hc : (q?.isSome || Shell.isQuote c) = true) :
    Buffered (quoteAfter q? c) (word ++ [c]) rest where
  quote := by
    rw [openQuote_append, h.quote]
    rfl
  first d hd := by
    rcases word with _ | ⟨first, word⟩
    · cases h.quote
      cases hd
      exact not_blank_of_isQuote hc
    · exact h.first d hd
  last hnone d hd := by
    rw [List.getLast?_concat] at hd
    cases hd
    exact not_blank_of_isQuote (isQuote_of_quoteAfter h.isQuote hc hnone)
  bare := by
    rw [marked_append, h.quote]
    show Bare (_ ++ [(c, q?.isSome || Shell.isQuote c)])
    rw [hc]
    exact h.bare.concat (fun hf => by cases hf) fun hf => by cases hf
  lone hnone hd := by
    have hquote := isQuote_of_quoteAfter h.isQuote hc hnone
    rw [List.getLast?_concat] at hd
    cases hd
    cases hquote

/-- So does a character outside of quotes that is neither a blank nor part of an operator. -/
theorem Buffered.plain (h : Buffered none word (c :: rest)) (hquote : Shell.isQuote c = false) (hblank : Text.isBlank c = false)
    (ho : Operator.leading? c rest = none) : Buffered none (word ++ [c]) rest where
  quote := by
    rw [openQuote_append, h.quote]
    show (if Shell.isQuote c = true then some c else none) = none
    rw [hquote, if_neg Bool.false_ne_true]
  first d hd := by
    rcases word with _ | ⟨first, word⟩
    · cases hd
      exact hblank
    · exact h.first d hd
  last _ d hd := by
    rw [List.getLast?_concat] at hd
    cases hd
    exact hblank
  bare := by
    rw [marked_append, h.quote]
    show Bare (_ ++ [(c, Shell.isQuote c)])
    rw [hquote]
    refine h.bare.concat (fun _ hc => ?_) fun hc hlast => ?_
    · exact Operator.not_mem_of_ofChar? (Operator.ofChar?_of_leading? ho) hc
    · cases hc
      -- The word ends in the `&` that its marks end in.
      have hend := congrArg (Option.map Prod.fst) hlast
      rw [← List.getLast?_map, map_fst_marked] at hend
      exact h.lone rfl hend rfl
  lone _ hd := by
    rw [List.getLast?_concat] at hd
    cases hd
    exact Operator.lone_of_leading? ho

/-- Outside of quotes nothing of the word is trimmed away. -/
theorem Buffered.trim (h : Buffered none word rest) : Text.trimChars word = word := by
  rcases word with _ | ⟨c, word⟩
  · rfl
  · have hne : c :: word ≠ [] := List.cons_ne_nil c word
    exact Text.trimBy_of_ends hne (h.first c rfl) (h.last rfl _ (List.getLast?_eq_some_getLast hne))

theorem Buffered.trim_prefix (h : Buffered q? word rest) : Text.trimChars word <+: word := by
  have hfront : word.dropWhile Text.isBlank = word := by
    rcases word with _ | ⟨c, word⟩
    · rfl
    · exact List.dropWhile_cons_of_neg (by rw [h.first c rfl]; exact Bool.false_ne_true)
  unfold Text.trimChars Text.trimBy
  rw [hfront]
  exact List.rdropWhile_prefix _ word

/-! ## Tokens -/

theorem flatMap_text_wordToken (word : List Char) : (wordToken word).flatMap (·.text.toList) = Text.trimChars word := by
  unfold wordToken
  dsimp only
  split
  · rename_i hempty
    exact (List.isEmpty_iff.1 hempty).symm
  · rw [List.flatMap_singleton]
    exact String.toList_ofList

theorem mem_wordToken {t : Token} (h : t ∈ wordToken word) :
    t = .word (String.ofList (Text.trimChars word)) ∧ Text.trimChars word ≠ [] := by
  unfold wordToken at h
  dsimp only at h
  split at h
  · cases h
  · rename_i hempty
    exact ⟨List.mem_singleton.1 h, fun hnil => hempty (List.isEmpty_iff.2 hnil)⟩

/-- The tokens are made of what was read of the word and what is kept of the rest. -/
theorem Scanned.texts (h : Scanned q? word line tokens) (hb : Buffered q? word line) (hq : openQuote q? line = none) :
    tokens.flatMap (·.text.toList) = word ++ kept (marked q? line) := by
  induction h with
  | done =>
    cases hq
    rw [flatMap_text_wordToken, hb.trim]
    exact (List.append_nil _).symm
  | @quoted q? c word rest tokens hc _ ih =>
    have hkept : kept (marked q? (c :: rest)) = c :: kept (marked (quoteAfter q? c) rest) := by
      unfold kept
      rw [marked, List.filter_cons_of_pos (by rw [hc]; rfl), List.map_cons]
    rw [ih (hb.quoted hc) hq, hkept, List.append_assoc, List.singleton_append]
  | @blank c word rest tokens hblank _ ih =>
    have hquote := not_isQuote_of_blank hblank
    have hafter : quoteAfter none c = none := by rw [quoteAfter, hquote, if_neg Bool.false_ne_true]
    have hkept : kept (marked none (c :: rest)) = kept (marked none rest) := by
      unfold kept
      rw [marked, List.filter_cons_of_neg (by simp [hquote, hblank]), hafter]
    rw [openQuote, List.foldl_cons, hafter] at hq
    rw [List.flatMap_append, flatMap_text_wordToken, hb.trim, ih (.nil rest) hq, hkept, List.nil_append]
  | @operator c o word cs rest tokens ho _ ih =>
    have htext := Operator.eq_of_leading? ho
    rw [htext, openQuote_append, (Operator.marked_text o).1] at hq
    have hkept : kept (marked none (c :: cs)) = o.text.toList ++ kept (marked none rest) := by
      rw [htext, marked_append, kept_append, (Operator.marked_text o).1, (Operator.marked_text o).2]
    rw [List.flatMap_append, List.flatMap_cons, flatMap_text_wordToken, hb.trim, ih (.nil rest) hq, hkept]
    rfl
  | @plain c word rest tokens hquote hblank ho _ ih =>
    have hafter : quoteAfter none c = none := by rw [quoteAfter, hquote, if_neg Bool.false_ne_true]
    have hkept : kept (marked none (c :: rest)) = c :: kept (marked none rest) := by
      unfold kept
      rw [marked, List.filter_cons_of_pos (by simp [hblank]), hafter, List.map_cons]
    rw [openQuote, List.foldl_cons, hafter] at hq
    rw [ih (hb.plain hquote hblank ho) hq, hkept, List.append_assoc, List.singleton_append]

/-- No token is empty. -/
theorem Scanned.text_ne_empty {t : Token} (h : Scanned q? word line tokens) (ht : t ∈ tokens) : t.text ≠ "" := by
  have hword {word : List Char} (ht : t ∈ wordToken word) : t.text ≠ "" := by
    obtain ⟨rfl, hne⟩ := mem_wordToken ht
    exact fun hempty => hne (String.ofList_eq_empty_iff.1 hempty)
  induction h with
  | done => exact hword ht
  | quoted _ _ ih => exact ih ht
  | blank _ _ ih => exact (List.mem_append.1 ht).elim hword ih
  | @operator _ o _ _ _ _ _ _ ih =>
    rcases List.mem_append.1 ht with ht | ht
    · exact hword ht
    · rcases List.mem_cons.1 ht with rfl | ht
      · rcases o with _ | ⟨_ | _ | _⟩ | ⟨_ | _⟩ <;> decide
      · exact ih ht
  | plain _ _ _ _ ih => exact ih ht

/-- Outside of its quotes no operator is left in a word. -/
theorem Scanned.bare {w : String} (h : Scanned q? word line tokens) (hb : Buffered q? word line) (hw : .word w ∈ tokens) :
    Bare (marked none w.toList) := by
  have hword {q? : Option Char} {word rest : List Char} (hb : Buffered q? word rest) (hw : .word w ∈ wordToken word) :
      Bare (marked none w.toList) := by
    obtain ⟨heq, -⟩ := mem_wordToken hw
    cases heq
    obtain ⟨cut, hcut⟩ := hb.trim_prefix
    rw [String.toList_ofList]
    refine hb.bare.of_prefix ⟨marked (openQuote none (Text.trimChars word)) cut, ?_⟩
    rw [← marked_append, hcut]
  induction h with
  | done => exact hword hb hw
  | quoted hc _ ih => exact ih (hb.quoted hc) hw
  | blank _ _ ih => exact (List.mem_append.1 hw).elim (hword hb) (ih (.nil _))
  | operator _ _ ih =>
    rcases List.mem_append.1 hw with hw | hw
    · exact hword hb hw
    · rcases List.mem_cons.1 hw with heq | hw
      · cases heq
      · exact ih (.nil _) hw
  | plain hquote hblank ho _ ih => exact ih (hb.plain hquote hblank ho) hw

/-- A line whose quotes are closed is cut apart from what follows a space after it, and its tokens together are
the line without its blanks outside of quotes. Of any line, no token is empty and no word holds an operator outside
of quotes. -/
theorem tokenize_exact (a : String) :
    (Balanced a → (∀ b, tokenize (a ++ " " ++ b) = tokenize a ++ tokenize b) ∧
      String.join ((tokenize a).map Token.text) = unspaced a) ∧
    (∀ t ∈ tokenize a, t.text ≠ "") ∧
    ∀ w, .word w ∈ tokenize a → Bare (marked none w.toList) := by
  have hscan := scanned_scan none [] a.toList
  refine ⟨fun h => ⟨h.tokenize_append, ?_⟩, fun _ => hscan.text_ne_empty, fun _ => hscan.bare (.nil _)⟩
  have htexts := hscan.texts (.nil _) h
  rw [← String.toList_inj, String.toList_join, List.flatMap_map, unspaced, String.toList_ofList]
  exact htexts

theorem tokenize_exact_redirected : Balanced "ls\t-l '|' >>'a b'&& x&y" ∧
    tokenize ("ls\t-l '|' >>'a b'&& x&y" ++ " " ++ "&& \"") = tokenize "ls\t-l '|' >>'a b'&& x&y" ++ tokenize "&& \"" ∧
    String.join ((tokenize "ls\t-l '|' >>'a b'&& x&y").map Token.text) = "ls-l'|'>>'a b'&&x&y" := by
  have h : Balanced "ls\t-l '|' >>'a b'&& x&y" := by decide
  obtain ⟨happend, htexts⟩ := (tokenize_exact "ls\t-l '|' >>'a b'&& x&y").1 h
  exact ⟨h, happend _, htexts.trans (by decide)⟩

end SimUnix.Shell
