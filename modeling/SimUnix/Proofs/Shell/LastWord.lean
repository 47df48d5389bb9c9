/-
The last word of a line. Where the quotes of a line are closed and no blank ends it, its last word stands at its end as it is,
and whatever takes the place of the word is one word of the line exactly if it is one word alone.
-/
import SimUnix.Proofs.Shell.Tokens

namespace SimUnix.Shell

variable {q? : Option Char} {c : Char} {o : Operator} {cs ds word rest line : List Char} {tokens front : List Token} {w : String}

/-! ## Operators and what follows them -/

namespace Operator

/-- The character that makes a longer operator of an operator. -/
def doubledBy? : Operator → Option Char
  | pipe => some '|'
  | redirect .write => some '>'
  | _ => none

/-- Whether an operator starts at a character depends only on the character after it. -/
theorem leading?_eq_none_congr (hhead : ds.head? = cs.head?) (h : leading? c cs = none) : leading? c ds = none := by
  rw [leading?_eq_none] at h ⊢
  rwa [hhead]

theorem leading?_of_ofChar? (ho : ofChar? c = some o) (hpair : ∀ d ∈ rest.head?, ofPair? c d = none) :
    leading? c rest = some (o, rest) := by
  have hnone : rest.head?.bind (ofPair? c) = none := by
    rcases hd : rest.head? with _ | d
    · rfl
    · exact hpair d hd
  unfold leading?
  rw [hnone, ho]
  rfl

/-- What is read as an operator is not followed by the character that makes a longer one of it. -/
theorem not_doubled_of_leading? (h : leading? c cs = some (o, rest)) : ∀ d ∈ o.doubledBy?, rest.head? ≠ some d := by
  intro d hd hrest
  have htext := eq_of_leading? h
  rcases o with _ | ⟨_ | _ | _⟩ | ⟨_ | _⟩ <;> cases hd
  all_goals
    obtain ⟨rfl, hcs⟩ := List.cons.inj htext
    rw [show cs = rest from hcs, leading?, hrest] at h
    cases h

/-- An operator of two characters is one character twice. -/
theorem ofPair?_ne {d : Char} (h : c ≠ d) : ofPair? c d = none := by
  unfold ofPair?
  rw [if_neg fun hboth => h (hboth.1.trans hboth.2.symm), if_neg fun hboth => h (hboth.1.trans hboth.2.symm),
    if_neg fun hboth => h (hboth.1.trans hboth.2.symm)]

end Operator

/-- An operator is read off the line unless the next character makes a longer one of it. -/
theorem scan_text (h : ∀ d ∈ o.doubledBy?, rest.head? ≠ some d) :
    scan none word (o.text.toList ++ rest) = wordToken word ++ .op o :: scan none [] rest := by
  have hsingle {c : Char} (ho : Operator.ofChar? c = some o) (hne : rest.head? ≠ some c) :
      scan none word (c :: rest) = wordToken word ++ .op o :: scan none [] rest :=
    scan_operator (Operator.leading?_of_ofChar? ho fun d hd => Operator.ofPair?_ne fun heq => hne (heq ▸ hd))
  rcases o with _ | ⟨_ | _ | _⟩ | ⟨_ | _⟩
  case pipe => exact hsingle rfl (h _ rfl)
  case redirect.write => exact hsingle rfl (h _ rfl)
  case control.next =>
    refine scan_operator (Operator.leading?_of_ofChar? rfl fun d _ => ?_)
    unfold Operator.ofPair?
    rw [if_neg fun hboth => absurd hboth.1 (by decide), if_neg fun hboth => absurd hboth.1 (by decide),
      if_neg fun hboth => absurd hboth.1 (by decide)]
  all_goals exact scan_pair rfl rfl rfl

/-- What starts with an operator is not one word. -/
theorem scan_ne_word {d : Char} (ho : Operator.ofChar? d = some o) : scan none [] (d :: rest) ≠ [.word w] := by
  rcases hlead : Operator.leading? d rest with _ | ⟨found, after⟩
  · rw [Operator.ofChar?_of_leading? hlead] at ho
    cases ho
  · rw [scan_operator hlead]
    exact fun h => by cases h

/-! ## What stands before the last word -/

/-- A text before the last word, and the tokens read up to there: whatever comes next is one word more exactly if it is one
word alone. -/
def Resumes (q? : Option Char) (word base : List Char) (front : List Token) : Prop :=
  ∀ (z : List Char) (v : String), scan q? word (base ++ z) = front ++ [.word v] ↔ scan none [] z = [.word v]

theorem resumes_text (o : Operator) (word : List Char) : Resumes none word o.text.toList (wordToken word ++ [.op o]) := by
  intro z v
  by_cases h : ∀ d ∈ o.doubledBy?, z.head? ≠ some d
  · rw [scan_text h, List.append_assoc, List.append_right_inj]
    exact ⟨fun heq => (List.cons.inj heq).2, congrArg (_ :: ·)⟩
  -- What comes next is an operator of its own, and not read as such but made one with the operator before it.
  · push Not at h
    obtain ⟨d, hd, hz⟩ := h
    obtain ⟨after, rfl⟩ := List.head?_eq_some_iff.1 hz
    rcases o with _ | ⟨_ | _ | _⟩ | ⟨_ | _⟩ <;> cases hd
    all_goals
      refine iff_of_false (fun heq => ?_) (scan_ne_word rfl)
      rw [show _ ++ _ :: after = _ :: _ :: after from rfl, scan_pair rfl rfl rfl, List.append_assoc, List.append_right_inj] at heq
      cases heq

/-- A line ends in its last word as it is: this is all that was read, or what stands before it goes on with whatever comes next. -/
def EndsIn (q? : Option Char) (word line : List Char) (front : List Token) (w : String) : Prop :=
  (front = [] ∧ w.toList = word ++ line) ∨ ∃ base ≠ [], line = base ++ w.toList ∧ Resumes q? word base front

/-- One more character of a word, if it is read as such whatever follows after the next one. -/
theorem EndsIn.grown {q'? : Option Char} (h : EndsIn q'? (word ++ [c]) rest front w)
    (hscan : ∀ ds, ds.head? = rest.head? → scan q? word (c :: ds) = scan q'? (word ++ [c]) ds) : EndsIn q? word (c :: rest) front w := by
  obtain ⟨rfl, hw⟩ | ⟨base, hne, rfl, hresumes⟩ := h
  · exact .inl ⟨rfl, by rw [hw, List.append_assoc, List.singleton_append]⟩
  · refine .inr ⟨c :: base, List.cons_ne_nil c base, rfl, fun z v => ?_⟩
    have hhead : (base ++ z).head? = (base ++ w.toList).head? := by
      rw [List.head?_append_of_ne_nil _ hne, List.head?_append_of_ne_nil _ hne]
    rw [List.cons_append, hscan _ hhead]
    exact hresumes z v

/-- A blank before the line. -/
theorem EndsIn.blank (h : EndsIn none [] rest front w) (hblank : Text.isBlank c = true) (word : List Char) :
    EndsIn none word (c :: rest) (wordToken word ++ front) w := by
  have hscan (ds : List Char) : scan none word (c :: ds) = wordToken word ++ scan none [] ds :=
    scan_blank (not_isQuote_of_blank hblank) hblank
  obtain ⟨rfl, hw⟩ | ⟨base, hne, rfl, hresumes⟩ := h
  · refine .inr ⟨[c], List.cons_ne_nil c [], congrArg (c :: ·) hw.symm, fun z v => ?_⟩
    rw [List.singleton_append, hscan, List.append_nil, List.append_right_inj]
  · refine .inr ⟨c :: base, List.cons_ne_nil c base, rfl, fun z v => ?_⟩
    rw [List.cons_append, hscan, List.append_assoc, List.append_right_inj]
    exact hresumes z v

/-- An operator before the line. -/
theorem EndsIn.operator (h : EndsIn none [] rest front w) (hrest : ∀ d ∈ o.doubledBy?, rest.head? ≠ some d) (word : List Char) :
    EndsIn none word (o.text.toList ++ rest) (wordToken word ++ [.op o] ++ front) w := by
  have hne : o.text.toList ≠ [] := by rcases o with _ | ⟨_ | _ | _⟩ | ⟨_ | _⟩ <;> decide
  obtain ⟨rfl, hw⟩ | ⟨base, hne', rfl, hresumes⟩ := h
  · refine .inr ⟨o.text.toList, hne, congrArg (_ ++ ·) hw.symm, ?_⟩
    rw [List.append_nil]
    exact resumes_text o word
  · refine .inr ⟨o.text.toList ++ base, List.append_ne_nil_of_left_ne_nil hne base, (List.append_assoc ..).symm, fun z v => ?_⟩
    have hhead : (base ++ z).head? = (base ++ w.toList).head? := by
      rw [List.head?_append_of_ne_nil _ hne', List.head?_append_of_ne_nil _ hne']
    rw [List.append_assoc, scan_text (hhead ▸ hrest), List.append_assoc, List.append_assoc, List.append_right_inj]
    exact (List.append_right_inj [Token.op o]).trans (hresumes z v)

/-! ## The end of a line -/

theorem Scanned.ne_nil (h : Scanned none [] line tokens) (hq : openQuote none line = none)
    (hlast : ∃ c ∈ line, Text.isBlank c = false) : tokens ≠ [] := by
  rintro rfl
  obtain ⟨c, hc, hblank⟩ := hlast
  have hkept : kept (marked none line) = [] := (h.texts (.nil line) hq).symm
  rw [← map_fst_marked none line] at hc
  obtain ⟨m, hm, rfl⟩ := List.mem_map.1 hc
  have hdropped := List.filter_eq_nil_iff.1 (List.map_eq_nil_iff.1 hkept) m hm
  rw [hblank, Bool.not_false, Bool.or_true] at hdropped
  exact hdropped rfl

theorem exists_front {lead : List Token} (hne : tokens ≠ []) (h : lead ++ tokens = front ++ [.word w]) :
    ∃ after, front = lead ++ after ∧ tokens = after ++ [.word w] := by
  obtain rfl | ⟨after, t, rfl⟩ := List.eq_nil_or_concat' tokens
  · exact absurd rfl hne
  · rw [← List.append_assoc] at h
    obtain ⟨hfront, ht⟩ := List.append_inj' h rfl
    exact ⟨after, hfront.symm, congrArg _ ht⟩

theorem Scanned.endsIn (h : Scanned q? word line tokens) (hb : Buffered q? word line) (hq : openQuote q? line = none)
    (hlast : ∀ c ∈ line.getLast?, Text.isBlank c = false) (htokens : tokens = front ++ [.word w]) : EndsIn q? word line front w := by
  induction h generalizing front with
  | @done q? word =>
    cases hq
    rcases front with _ | ⟨t, front⟩
    · have hw : .word w ∈ wordToken word := htokens ▸ List.mem_singleton_self (Token.word w)
      obtain ⟨heq, -⟩ := mem_wordToken hw
      rw [Token.word.inj heq]
      exact .inl ⟨rfl, by rw [String.toList_ofList, hb.trim, List.append_nil]⟩
    · have hlength := congrArg List.length htokens
      unfold wordToken at hlength
      dsimp only at hlength
      split at hlength <;> simp at hlength
  | quoted hc _ ih =>
    have hrest := ih (hb.quoted hc) hq (fun d hd => hlast d (List.mem_getLast?_cons hd)) htokens
    exact hrest.grown fun _ _ => scan_quoted hc
  | @blank c word rest tokens hblank h ih =>
    rw [openQuote, List.foldl_cons, quoteAfter, not_isQuote_of_blank hblank, if_neg Bool.false_ne_true] at hq
    have hsome : ∃ d ∈ rest, Text.isBlank d = false := by
      obtain rfl | ⟨cs, d, rfl⟩ := List.eq_nil_or_concat' rest
      · rw [hlast c rfl] at hblank
        cases hblank
      · exact ⟨d, List.mem_append_right cs (List.mem_singleton_self d), hlast d (by rw [← List.cons_append]; exact List.getLast?_concat)⟩
    obtain ⟨after, rfl, hafter⟩ := exists_front (h.ne_nil hq hsome) htokens
    exact (ih (.nil rest) hq (fun d hd => hlast d (List.mem_getLast?_cons hd)) hafter).blank hblank word
  | @operator c o word cs rest tokens ho h ih =>
    rw [Operator.eq_of_leading? ho] at hq hlast ⊢
    rw [openQuote_append, (Operator.marked_text o).1] at hq
    rw [List.append_cons] at htokens
    have hsome : tokens ≠ [] := by
      rintro rfl
      rw [List.append_nil] at htokens
      cases (List.append_inj' htokens rfl).2
    obtain ⟨after, rfl, hafter⟩ := exists_front hsome htokens
    have hrest := ih (.nil rest) hq (fun d hd => hlast d (List.mem_getLast?_append_of_mem_getLast? hd)) hafter
    exact hrest.operator (Operator.not_doubled_of_leading? ho) word
  | plain hquote hblank ho _ ih =>
    rw [openQuote, List.foldl_cons, quoteAfter, hquote, if_neg Bool.false_ne_true] at hq
    have hrest := ih (hb.plain hquote hblank ho) hq (fun d hd => hlast d (List.mem_getLast?_cons hd)) htokens
    exact hrest.grown fun ds hhead => scan_plain hquote hblank (Operator.leading?_eq_none_congr hhead ho)

/-- The last word of a line ends it, and what takes its place is the last word of the new line exactly if it is one word. -/
theorem Balanced.last_word {line : String} (h : Balanced line) (hblank : Text.endsBlank line = false)
    (htokens : tokenize line = front ++ [.word w]) : ∃ base, line = base ++ w ∧
      ∀ z v, tokenize (base ++ z) = front ++ [.word v] ↔ tokenize z = [.word v] := by
  have hlast : ∀ c ∈ line.toList.getLast?, Text.isBlank c = false := by
    intro c hc
    rw [Text.endsBlank, show line.toList.getLast? = some c from hc] at hblank
    exact hblank
  obtain ⟨rfl, hw⟩ | ⟨base, -, hline, hresumes⟩ := (scanned_scan none [] line.toList).endsIn (.nil _) h hlast htokens
  · refine ⟨"", ?_, fun z v => ?_⟩
    · rw [String.empty_append, ← String.toList_inj, hw]
      rfl
    · rw [String.empty_append]
      rfl
  · refine ⟨String.ofList base, ?_, fun z v => ?_⟩
    · rw [← String.toList_inj, String.toList_append, String.toList_ofList, hline]
    · unfold tokenize
      rw [String.toList_append, String.toList_ofList]
      exact hresumes z.toList v

/-! ## Blanks at the end -/

theorem trimChars_concat (hblank : Text.isBlank c = true) (word : List Char) :
    Text.trimChars (word ++ [c]) = Text.trimChars word := by
  unfold Text.trimChars Text.trimBy
  rw [List.dropWhile_append]
  split
  · rename_i hempty
    rw [List.isEmpty_iff.1 hempty, List.dropWhile_cons_of_pos hblank]
    rfl
  · rw [List.reverse_append, List.reverse_singleton, List.singleton_append, List.dropWhile_cons_of_pos hblank]

/-- A space at the end of a line changes nothing, quoted or not. -/
theorem Scanned.concat_space (h : Scanned q? word line tokens) : scan q? word (line ++ [' ']) = tokens := by
  induction h with
  | @done q? word =>
    rcases q? with _ | q
    · exact (scan_blank rfl rfl).trans (List.append_nil _)
    · have hspace : wordToken (word ++ [' ']) = wordToken word := by
        unfold wordToken
        rw [trimChars_concat rfl]
      rw [List.nil_append, scan_quoted rfl, ← hspace]
      rcases quoteAfter (some q) ' ' with _ | q <;> rfl
  | quoted hc _ ih => rw [List.cons_append, scan_quoted hc, ih]
  | blank hblank _ ih => rw [List.cons_append, scan_blank (not_isQuote_of_blank hblank) hblank, ih]
  | @operator c o word cs rest tokens ho _ ih =>
    have ho' : Operator.leading? c (cs ++ [' ']) = some (o, rest ++ [' ']) := by
      rw [Operator.leading?_space, ho]
      rfl
    rw [List.cons_append, scan_operator ho', ih]
  | @plain c word rest tokens hquote hblank ho _ ih =>
    have ho' : Operator.leading? c (rest ++ [' ']) = none := by
      rw [Operator.leading?_space, ho]
      rfl
    rw [List.cons_append, scan_plain hquote hblank ho', ih]

theorem tokenize_space (line : String) : tokenize (line ++ " ") = tokenize line := by
  unfold tokenize
  rw [String.toList_append]
  exact (scanned_scan none [] line.toList).concat_space

end SimUnix.Shell
