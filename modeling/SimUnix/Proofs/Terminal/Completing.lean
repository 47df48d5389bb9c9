/-
Completion read back. A single candidate takes the place of the last word, and the completed line has the tokens of the old one with
one word in place of the last exactly if what is written there stands for itself: the directory of a word is left out where a
command is expected, and quotes are put around a space and nothing else.
-/
import SimUnix.Terminal.Completion
import SimUnix.Proofs.Shell.LastWord
import SimUnix.Proofs.Shell.OneWord
import SimUnix.Proofs.Terminal.Removal

namespace SimUnix.Completion

open Shell Machine

variable {s : Machine} {t : Terminal} {line word choice w y target : String} {isCommand : Bool} {before front : List Token} {done : Completion}

/-! ## The part of a word that stays -/

/-- Only a word with a slash has a directory. -/
theorem headAndRest_fst_eq_empty : (headAndRest word).1 = "" ↔ hasSlash word = false := by
  have hall : hasSlash word = false ↔ word.toList.reverse.takeWhile (· ≠ '/') = word.toList.reverse := by
    rw [List.takeWhile_eq_self_iff, hasSlash, ← Bool.not_eq_true, List.contains_iff_mem]
    simp only [List.mem_reverse, decide_eq_true_eq]
    exact ⟨fun h c hc heq => h (heq ▸ hc), fun h hc => h '/' hc rfl⟩
  have hprefix : word.toList.reverse.takeWhile (· ≠ '/') <+: word.toList.reverse := List.takeWhile_prefix _
  have hlength := hprefix.length_le
  unfold headAndRest
  dsimp only
  rw [hall, String.ofList_eq_empty_iff, List.take_eq_nil_iff, List.length_reverse]
  constructor
  · rintro (hzero | hnil)
    · exact hprefix.eq_of_length_le (by rw [List.length_reverse]; omega)
    · rw [hnil]
      rfl
  · intro heq
    rw [heq, List.length_reverse, Nat.sub_self]
    exact .inl rfl

theorem keptPart_eq : keptPart word isCommand = if isCommand ∧ hasSlash word then "" else (headAndRest word).1 := by
  unfold keptPart
  rcases hslash : hasSlash word with _ | _
  · rw [headAndRest_fst_eq_empty.2 hslash, ite_self, ite_self]
  · cases isCommand <;> rfl

/-- What is written is the directory of the word and the candidate, but not for a command with a slash. -/
theorem keptPart_append_eq_iff : keptPart word isCommand ++ choice = (headAndRest word).1 ++ choice ↔ ¬ (isCommand ∧ hasSlash word) := by
  rw [keptPart_eq]
  split
  · rename_i h
    refine iff_of_false (fun heq => ?_) (not_not_intro h)
    have hdirectory : (headAndRest word).1 = "" := by
      rw [← String.toList_inj, String.toList_append, String.toList_append] at heq
      exact String.toList_inj.1 (List.append_cancel_right heq).symm
    rw [headAndRest_fst_eq_empty.1 hdirectory] at h
    cases h.2
  · rename_i h
    exact iff_of_true rfl h

theorem length_keptPart_append : (keptPart word isCommand ++ choice).length ≤ ((headAndRest word).1 ++ choice).length := by
  rw [keptPart_eq, String.length_append, String.length_append]
  split
  · exact Nat.add_le_add_right (Nat.zero_le _) _
  · exact Nat.le_refl _

/-! ## What is written is read back -/

/-- A text that completion can write as one word: between quotes if it has a space and no double quote, and as it stands if it
has none and nothing else that cuts it. -/
def Writable (text : String) : Prop := if ' ' ∈ text.toList then '"' ∉ text.toList else Solid text.toList

instance (text : String) : Decidable (Writable text) :=
  inferInstanceAs (Decidable (if ' ' ∈ text.toList then '"' ∉ text.toList else Solid text.toList))

/-- What is written is read as one word that stands for a text exactly if it is that text and can be written. -/
theorem reads_quotedIfNeeded (hlength : y.length ≤ target.length) :
    (∃ v, tokenize (quotedIfNeeded y) = [.word v] ∧ unquote v = target) ↔ y = target ∧ Writable y := by
  unfold quotedIfNeeded Writable
  by_cases hspace : ' ' ∈ y.toList
  · rw [if_pos (List.contains_iff_mem.2 hspace), if_pos hspace]
    constructor
    · rintro ⟨v, hv, rfl⟩
      obtain ⟨heq, hquote⟩ := closed_of_tokenize hv hlength
      exact ⟨heq.symm, hquote⟩
    · rintro ⟨rfl, hquote⟩
      obtain ⟨hread, hunquoted⟩ := tokenize_doubleQuoted hquote
      exact ⟨_, hread, hunquoted⟩
  · rw [if_neg (mt List.contains_iff_mem.1 hspace), if_neg hspace]
    constructor
    · rintro ⟨v, hv, rfl⟩
      obtain ⟨heq, hsolid⟩ := solid_of_tokenize hv hlength
      exact ⟨heq.symm, hsolid⟩
    · rintro ⟨rfl, hsolid⟩
      obtain ⟨hread, hunquoted⟩ := hsolid.tokenize
      exact ⟨_, hread, hunquoted⟩

/-! ## Completed lines -/

/-- The spot at the end of a line that ends in a word. -/
theorem spotOf_eq (hblank : Text.endsBlank line = false) (htokens : tokenize line = front ++ [.word w]) :
    spotOf line = { word := unquote w, token := w, isCommand := expectsCommand front } := by
  have hne : line ≠ "" := by
    rintro rfl
    cases front <;> cases htokens
  unfold spotOf
  dsimp only
  rw [if_neg (by rw [hblank]; simp [hne]), htokens, List.getLast?_concat, List.dropLast_concat]
  rfl

/-- A single candidate takes the word's place, with a space after a command. -/
theorem line_eq (hblank : Text.endsBlank line = false) (htokens : tokenize line = front ++ [.word w]) {base : String} (hbase : line = base ++ w)
    (hdone : ofLine s t line = .ok done) (hone : done.candidates = [choice]) :
    done.line = base ++ quotedIfNeeded (keptPart (unquote w) (expectsCommand front) ++ choice) ++
      if expectsCommand front then " " else "" := by
  have hlength : line.length - w.length = base.toList.length := by
    rw [hbase, String.length_append, Nat.add_sub_cancel, String.length_toList]
  have htake : String.ofList (line.toList.take (line.length - w.length)) = base := by
    rw [hlength, hbase, String.toList_append, List.take_left, String.ofList_toList]
  unfold ofLine at hdone
  rw [spotOf_eq hblank htokens] at hdone
  dsimp only at hdone
  rcases hfound : candidatesFor s t (unquote w) (expectsCommand front) with e | candidates
  · rw [hfound] at hdone
    cases hdone
  · rw [hfound] at hdone
    rcases candidates with _ | ⟨found, _ | ⟨next, rest⟩⟩
    · cases hdone
      cases hone
    · cases hdone
      cases hone
      rw [htake]
    · cases hdone
      cases hone

/-- The completed line has the tokens of the line with one word in place of the last that stands for the directory of the word and the
candidate, exactly if no directory was left out before a command and the text of the word can be written. -/
theorem faithful_iff (hbalanced : Balanced line) (hblank : Text.endsBlank line = false) (htokens : tokenize line = front ++ [.word w])
    (hdone : ofLine s t line = .ok done) (hone : done.candidates = [choice]) :
    (∃ v, tokenize done.line = front ++ [.word v] ∧ unquote v = (headAndRest (unquote w)).1 ++ choice) ↔
      ¬ (expectsCommand front ∧ hasSlash (unquote w)) ∧ Writable ((headAndRest (unquote w)).1 ++ choice) := by
  obtain ⟨base, hbase, hplace⟩ := hbalanced.last_word hblank htokens
  have hread : tokenize done.line =
      tokenize (base ++ quotedIfNeeded (keptPart (unquote w) (expectsCommand front) ++ choice)) := by
    rw [line_eq hblank htokens hbase hdone hone]
    split
    · exact tokenize_space _
    · rw [String.append_empty]
  simp only [hread, hplace]
  rw [reads_quotedIfNeeded length_keptPart_append, keptPart_append_eq_iff]
  refine and_congr_right fun hkept => ?_
  rw [keptPart_append_eq_iff.2 hkept]

/-- Where a command is expected the directory of a path is lost, and a name with an operator is cut. -/
theorem ofLine_unfaithful :
    ofLine World.housed.machine World.homeTerminal "/r" = .ok { line := "root/ ", candidates := ["root/"] } ∧
    ofLine ((Operation.file (.createDirectory "/root" "a;b") (some (.str rootName)) none).after World.housed.machine)
      World.homeTerminal "cat a" = .ok { line := "cat a;b/", candidates := ["a;b/"] } := by
  constructor <;> decide +kernel

theorem faithful_argument : ofLine World.housed.machine World.homeTerminal "echo 'a b'&&cat /r" =
      .ok { line := "echo 'a b'&&cat /root/", candidates := ["root/"] } ∧
    ∃ v, tokenize "echo 'a b'&&cat /root/" = [.word "echo", .word "'a b'", .op (.control .and), .word "cat"] ++ [.word v] ∧
      unquote v = (headAndRest (unquote "/r")).1 ++ "root/" := by
  have hdone : ofLine World.housed.machine World.homeTerminal "echo 'a b'&&cat /r" =
      .ok { line := "echo 'a b'&&cat /root/", candidates := ["root/"] } := by decide +kernel
  have htokens : tokenize "echo 'a b'&&cat /r" =
      [.word "echo", .word "'a b'", .op (.control .and), .word "cat"] ++ [.word "/r"] := by decide
  exact ⟨hdone, (faithful_iff (by decide) (by decide) htokens hdone rfl).2 ⟨by decide, by decide⟩⟩

end SimUnix.Completion
