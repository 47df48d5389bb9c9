/-
Texts that are read as one word. As they stand these are the texts that no quote, blank or operator cuts, and between double quotes
those that hold none. Reading and unquoting only ever take characters away, so nothing else comes back whole.
-/
import SimUnix.Proofs.Shell.Tokens

namespace SimUnix.Shell

variable {q? : Option Char} {c : Char} {cs word line : List Char} {tokens : List Token}

/-! ## What reading leaves of a line -/

/-- Reading adds no characters, whether the quotes are closed or not. -/
theorem Scanned.texts_sublist (h : Scanned q? word line tokens) : (tokens.flatMap (·.text.toList)).Sublist (word ++ line) := by
  induction h with
  | @done q? word =>
    rw [flatMap_text_wordToken, List.append_nil]
    exact Text.trimChars_sublist word
  | quoted _ _ ih => rwa [List.append_assoc] at ih
  | @blank c word rest tokens _ _ ih =>
    rw [List.flatMap_append, flatMap_text_wordToken]
    exact (Text.trimChars_sublist word).append (ih.trans (List.sublist_cons_self c rest))
  | @operator c o word cs rest tokens ho _ ih =>
    rw [List.flatMap_append, List.flatMap_cons, flatMap_text_wordToken, Operator.eq_of_leading? ho]
    exact (Text.trimChars_sublist word).append ((List.Sublist.refl o.text.toList).append ih)
  | plain _ _ _ _ ih => rwa [List.append_assoc] at ih

theorem trimChars_cons (hblank : Text.isBlank c = false) (word : List Char) : ∃ rest, Text.trimChars (c :: word) = c :: rest := by
  have hc : ¬ Text.isBlank c = true := by rw [hblank]; exact Bool.false_ne_true
  unfold Text.trimChars Text.trimBy
  rw [List.dropWhile_cons_of_neg hc, List.reverse_cons, List.dropWhile_append]
  split
  · rw [List.dropWhile_cons_of_neg hc]
    exact ⟨[], rfl⟩
  · rw [List.reverse_append]
    exact ⟨_, rfl⟩

/-- What is read starts with what was read before, if this is no blank. -/
theorem Scanned.head (h : Scanned q? (c :: word) line tokens) (hblank : Text.isBlank c = false) :
    (tokens.flatMap (·.text.toList)).head? = some c := by
  have hword (word : List Char) (tokens : List Token) : ((wordToken (c :: word) ++ tokens).flatMap (·.text.toList)).head? = some c := by
    obtain ⟨rest, hrest⟩ := trimChars_cons hblank word
    rw [List.flatMap_append, flatMap_text_wordToken, hrest]
    rfl
  generalize hcs : c :: word = cs at h
  induction h generalizing word with
  | done =>
    subst hcs
    rw [← List.append_nil (wordToken _)]
    exact hword word []
  | quoted _ _ ih => exact ih (by rw [← hcs]; rfl)
  | blank _ _ _ =>
    subst hcs
    exact hword word _
  | operator _ _ _ =>
    subst hcs
    exact hword word _
  | plain _ _ _ _ ih => exact ih (by rw [← hcs]; rfl)

/-! ## Quotes that are taken away -/

theorem unquoteChars_sublist : ∀ (q? : Option Char) (cs : List Char), (unquoteChars q? cs).Sublist cs
  | _, [] => by unfold unquoteChars; exact List.Sublist.refl []
  | some q, c :: cs => by
    unfold unquoteChars
    split
    · exact (unquoteChars_sublist none cs).cons c
    · exact (unquoteChars_sublist (some q) cs).cons_cons c
  | none, c :: cs => by
    unfold unquoteChars
    split
    · exact (unquoteChars_sublist (some c) cs).cons c
    · exact (unquoteChars_sublist none cs).cons_cons c

theorem unquoteChars_quote (h : isQuote c = true) : unquoteChars none (c :: cs) = unquoteChars (some c) cs := by
  rw [unquoteChars, if_pos h]

/-- A text without quotes is left as it is. -/
theorem unquoteChars_of_plain : ∀ {cs : List Char}, (∀ c ∈ cs, isQuote c = false) → unquoteChars none cs = cs
  | [], _ => rfl
  | c :: cs, h => by
    obtain ⟨hc, hcs⟩ := List.forall_mem_cons.1 h
    rw [unquoteChars, if_neg (by rw [hc]; exact Bool.false_ne_true), unquoteChars_of_plain hcs]

/-- A text that loses nothing has no quotes. -/
theorem plain_of_length : ∀ {cs : List Char}, cs.length ≤ (unquoteChars none cs).length → ∀ c ∈ cs, isQuote c = false
  | [], _ => fun _ hc => by cases hc
  | c :: cs, h => by
    unfold unquoteChars at h
    split at h
    · have hlength := (unquoteChars_sublist (some c) cs).length_le
      rw [List.length_cons] at h
      omega
    · rename_i hc
      rw [List.length_cons, List.length_cons] at h
      exact List.forall_mem_cons.2 ⟨Bool.eq_false_iff.2 hc, plain_of_length (by omega)⟩

/-! ## One word as it stands -/

/-- A text that is a word as it stands. -/
structure Solid (cs : List Char) : Prop where
  ne_nil : cs ≠ []
  plain : ∀ c ∈ cs, isQuote c = false ∧ Text.isBlank c = false ∧ c ∉ ['|', ';', '>']
  lone : cs.IsChain fun c d => ¬ (c = '&' ∧ d = '&')

instance (cs : List Char) : Decidable (Solid cs) :=
  -- There is also an instance that goes through all characters there are.
  haveI : Decidable (∀ c ∈ cs, isQuote c = false ∧ Text.isBlank c = false ∧ c ∉ ['|', ';', '>']) := List.decidableBAll _ cs
  decidable_of_iff (cs ≠ [] ∧ (∀ c ∈ cs, isQuote c = false ∧ Text.isBlank c = false ∧ c ∉ ['|', ';', '>']) ∧
      cs.IsChain fun c d => ¬ (c = '&' ∧ d = '&'))
    ⟨fun h => ⟨h.1, h.2.1, h.2.2⟩, fun h => ⟨h.ne_nil, h.plain, h.lone⟩⟩

theorem marked_of_plain : ∀ {cs : List Char}, (∀ c ∈ cs, isQuote c = false) →
    openQuote none cs = none ∧ marked none cs = cs.map (·, false)
  | [], _ => ⟨rfl, rfl⟩
  | c :: cs, h => by
    obtain ⟨hc, hcs⟩ := List.forall_mem_cons.1 h
    have hafter : quoteAfter none c = none := by rw [quoteAfter, hc, if_neg Bool.false_ne_true]
    obtain ⟨hopen, hmarked⟩ := marked_of_plain hcs
    rw [openQuote, List.foldl_cons, marked, hafter, hmarked, hc]
    exact ⟨hopen, rfl⟩

theorem wordToken_of_ends (hne : cs ≠ []) (hfirst : Text.isBlank (cs.head hne) = false) (hlast : Text.isBlank (cs.getLast hne) = false) :
    wordToken cs = [.word (String.ofList cs)] := by
  unfold wordToken
  rw [show Text.trimChars cs = cs from Text.trimBy_of_ends hne hfirst hlast, if_neg (by simpa using hne)]

/-- Characters that nothing cuts all go into the word. -/
theorem scan_solid : ∀ {cs word : List Char}, (∀ c ∈ cs, isQuote c = false ∧ Text.isBlank c = false ∧ c ∉ ['|', ';', '>']) →
    (cs.IsChain fun c d => ¬ (c = '&' ∧ d = '&')) → scan none word cs = wordToken (word ++ cs)
  | [], word, _, _ => by
    rw [List.append_nil]
    rfl
  | c :: cs, word, hplain, hlone => by
    obtain ⟨⟨hquote, hblank, hop⟩, hrest⟩ := List.forall_mem_cons.1 hplain
    simp only [List.mem_cons, List.not_mem_nil, or_false, not_or] at hop
    have hchar : Operator.ofChar? c = none := by
      unfold Operator.ofChar?
      rw [if_neg hop.1, if_neg hop.2.1, if_neg hop.2.2]
    have hpair : cs.head?.bind (Operator.ofPair? c) = none := by
      rcases cs with _ | ⟨d, cs⟩
      · rfl
      · have hand : ¬ (c = '&' ∧ d = '&') := (List.isChain_cons_cons.1 hlone).1
        show Operator.ofPair? c d = none
        unfold Operator.ofPair?
        rw [if_neg hand, if_neg fun h => hop.1 h.1, if_neg fun h => hop.2.2 h.1]
    rw [scan_plain hquote hblank (Operator.leading?_eq_none.2 ⟨hpair, hchar⟩), scan_solid hrest hlone.tail, List.append_assoc,
      List.singleton_append]

/-- Such a text is read as itself. -/
theorem Solid.tokenize {y : String} (h : Solid y.toList) : tokenize y = [.word y] ∧ unquote y = y := by
  constructor
  · unfold Shell.tokenize
    rw [scan_solid h.plain h.lone, List.nil_append, wordToken_of_ends h.ne_nil (h.plain _ (List.head_mem h.ne_nil)).2.1
      (h.plain _ (List.getLast_mem h.ne_nil)).2.1, String.ofList_toList]
  · unfold unquote
    rw [unquoteChars_of_plain fun c hc => (h.plain c hc).1, String.ofList_toList]

theorem flatMap_text_word (w : String) : [Token.word w].flatMap (·.text.toList) = w.toList := List.flatMap_singleton ..

/-- A text without quotes that is read as itself is a word as it stands. -/
theorem solid_of_scanned {y : String} (h : Scanned none [] y.toList [.word y]) (hplain : ∀ c ∈ y.toList, isQuote c = false) :
    Solid y.toList := by
  obtain ⟨hopen, hmarked⟩ := marked_of_plain hplain
  have hbare := h.bare (.nil _) (List.mem_singleton_self _)
  have htexts := h.texts (.nil _) hopen
  rw [flatMap_text_word, hmarked, List.nil_append] at htexts
  rw [hmarked] at hbare
  refine ⟨fun hnil => ?_, fun c hc => ⟨hplain c hc, ?_, fun hop => ?_⟩, ?_⟩
  · exact h.text_ne_empty (List.mem_singleton_self _) (String.toList_inj.1 hnil)
  · rw [htexts] at hc
    obtain ⟨m, hm, rfl⟩ := List.mem_map.1 hc
    obtain ⟨hmem, hstays⟩ := List.mem_filter.1 hm
    obtain ⟨d, -, rfl⟩ := List.mem_map.1 hmem
    simpa using hstays
  · exact hbare.plain c hop (List.mem_map.2 ⟨c, hc, rfl⟩)
  · refine List.isChain_iff_forall_rel_of_append_cons_cons.2 fun c d front back heq hand => ?_
    obtain ⟨rfl, rfl⟩ := hand
    exact hbare.lone (heq ▸ ⟨front.map (·, false), back.map (·, false), by simp⟩)

/-- A text that is read as one word and unquoted without a loss is that word. -/
theorem solid_of_tokenize {y w : String} (h : tokenize y = [.word w]) (hlength : y.length ≤ (unquote w).length) :
    unquote w = y ∧ Solid y.toList := by
  have hscan : Scanned none [] y.toList [.word w] := h ▸ scanned_scan none [] y.toList
  have hread : w.toList.Sublist y.toList := flatMap_text_word w ▸ hscan.texts_sublist
  have hunquoted : (unquote w).toList = unquoteChars none w.toList := String.toList_ofList
  have hkept := (unquoteChars_sublist none w.toList).length_le
  rw [← String.length_toList, ← String.length_toList, hunquoted] at hlength
  obtain rfl : w = y := String.toList_inj.1 (hread.eq_of_length_le (hlength.trans hkept))
  have hplain := plain_of_length hlength
  refine ⟨?_, solid_of_scanned hscan hplain⟩
  rw [← String.toList_inj, hunquoted, unquoteChars_of_plain hplain]

/-! ## One word between double quotes -/

/-- A text in double quotes. -/
def doubleQuoted (y : String) : String := "\"" ++ y ++ "\""

theorem toList_doubleQuoted (y : String) : (doubleQuoted y).toList = '"' :: (y.toList ++ ['"']) := by
  rw [doubleQuoted, String.toList_append, String.toList_append]
  rfl

/-- Between double quotes a text that holds none is read as itself. -/
theorem tokenize_doubleQuoted {y : String} (h : '"' ∉ y.toList) :
    tokenize (doubleQuoted y) = [.word (doubleQuoted y)] ∧ unquote (doubleQuoted y) = y := by
  constructor
  · have hends : wordToken (['"'] ++ y.toList ++ ['"']) = [.word (String.ofList (['"'] ++ y.toList ++ ['"']))] :=
      wordToken_of_ends (by simp) rfl (by rw [List.getLast_append_singleton]; rfl)
    unfold tokenize
    rw [toList_doubleQuoted, scan_quote rfl, List.nil_append, scan_open h]
    refine hends.trans ?_
    rw [List.append_assoc, List.singleton_append, ← toList_doubleQuoted, String.ofList_toList]
  · unfold unquote
    rw [toList_doubleQuoted, unquoteChars_quote rfl, unquoteChars_open h, unquoteChars, List.append_nil, String.ofList_toList]

/-- A word that is read there starts with the quote, and has nothing after it that does not follow there. -/
theorem opened_of_tokenize {y w : String} (h : tokenize (doubleQuoted y) = [.word w]) :
    ∃ u, w.toList = '"' :: u ∧ u.Sublist (y.toList ++ ['"']) := by
  have hscan : Scanned (some '"') ['"'] (y.toList ++ ['"']) [.word w] := by
    unfold tokenize at h
    rw [toList_doubleQuoted, scan_quote rfl, List.nil_append] at h
    exact h ▸ scanned_scan _ _ _
  have hfirst := hscan.head rfl
  have hread := hscan.texts_sublist
  rw [flatMap_text_word] at hfirst hread
  obtain ⟨u, hu⟩ := List.head?_eq_some_iff.1 hfirst
  rw [hu, List.singleton_append, List.cons_sublist_cons] at hread
  exact ⟨u, hu, hread⟩

/-- If no less than a text comes back of what was read of it and the quote that closes it, the text holds no such quote. -/
theorem closed_of_unquoteChars {u : List Char} (hread : u.Sublist (cs ++ ['"']))
    (hlength : cs.length ≤ (unquoteChars (some '"') u).length) : unquoteChars (some '"') u = cs ∧ '"' ∉ cs := by
  by_cases hclosed : '"' ∈ u
  · -- One character of what was read is the quote, so that all else was read and comes back.
    obtain ⟨inside, after, rfl, hinside⟩ := List.eq_append_cons_of_mem hclosed
    rw [unquoteChars_open hinside] at hlength ⊢
    have hafter := (unquoteChars_sublist none after).length_le
    have hwhole := hread.length_le
    simp only [List.length_append, List.length_cons, List.length_nil] at hlength hwhole
    have hplain := plain_of_length (show after.length ≤ (unquoteChars none after).length by omega)
    have heq := hread.eq_of_length_le (by simp only [List.length_append, List.length_cons, List.length_nil]; omega)
    obtain rfl | ⟨front, c, rfl⟩ := List.eq_nil_or_concat' after
    · obtain ⟨rfl, -⟩ := List.append_inj' heq rfl
      exact ⟨List.append_nil _, hinside⟩
    · rw [← List.cons_append, ← List.append_assoc] at heq
      obtain ⟨-, hc⟩ := List.append_inj' heq rfl
      cases hc
      cases hplain '"' (List.mem_append_right front (List.mem_singleton_self _))
  · -- The word is cut off before the quotes are closed, and comes back as it is.
    obtain ⟨front, back, rfl, hfront, hback⟩ := List.sublist_append_iff.1 hread
    obtain rfl : back = [] := by
      rcases List.sublist_singleton.1 hback with hnil | hquote
      · exact hnil
      · exact absurd (by rw [hquote]; simp) hclosed
    rw [List.append_nil] at hlength hclosed ⊢
    have hkept := unquoteChars_sublist (some '"') front
    obtain rfl := hfront.eq_of_length_le (hlength.trans hkept.length_le)
    exact ⟨hkept.eq_of_length_le hlength, hclosed⟩

/-- What is read as one word between double quotes and unquoted without a loss holds none itself. -/
theorem closed_of_tokenize {y w : String} (h : tokenize (doubleQuoted y) = [.word w]) (hlength : y.length ≤ (unquote w).length) :
    unquote w = y ∧ '"' ∉ y.toList := by
  obtain ⟨u, hu, hread⟩ := opened_of_tokenize h
  have hunquoted : (unquote w).toList = unquoteChars (some '"') u := by
    rw [unquote, String.toList_ofList, hu, unquoteChars_quote rfl]
  rw [← String.length_toList, ← String.length_toList, hunquoted] at hlength
  rw [← String.toList_inj, hunquoted]
  exact closed_of_unquoteChars hread hlength

end SimUnix.Shell
