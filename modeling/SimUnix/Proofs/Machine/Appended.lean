/-
Lines in a file. They are joined without a line feed after the last one and read back as they were; but a line feed at the end of
a text may come from a blank line, and what is appended to such a text takes the place of that line.
-/
import SimUnix.Machine.Files
import SimUnix.Proofs.Tree.Path

namespace SimUnix

namespace Text

variable {old new pieces : List String}

/-! ## Joined lines -/

theorem toList_joinLines : (joinLines pieces).toList = ['\n'].intercalate (pieces.map String.toList) := by
  have hfeed : "\n".toList = ['\n'] := by decide
  unfold joinLines joinWith
  rw [String.toList_intercalate, hfeed]

theorem lines_joinLines (hne : pieces ≠ []) (h : ∀ l ∈ pieces, '\n' ∉ l.toList) : lines (joinLines pieces) = pieces := by
  have hpieces : ∀ p ∈ pieces.map String.toList, '\n' ∉ p := by
    intro p hp
    obtain ⟨l, hl, rfl⟩ := List.mem_map.1 hp
    exact h l hl
  unfold lines split
  rw [toList_joinLines, splitChars_intercalate (fun hnil => hne (List.map_eq_nil_iff.1 hnil)) hpieces]
  exact Path.map_ofList_toList

theorem joinLines_append (hold : old ≠ []) (hnew : new ≠ []) : joinLines (old ++ new) = joinLines old ++ "\n" ++ joinLines new :=
  String.intercalate_append_of_ne_nil hold hnew

theorem joinLines_singleton (line : String) : joinLines [line] = line := by
  unfold joinLines joinWith
  rw [String.intercalate_singleton]

theorem endsWith_append (a b : String) : endsWith (a ++ b) b = true := by
  unfold endsWith
  rw [List.isSuffixOf_iff_suffix, String.toList_append]
  exact List.suffix_append _ _

/-- Lines of which the last one is not blank are neither nothing nor do they end in a line feed. -/
theorem joinLines_ends {front : List String} {last : String} (hne : last ≠ "") (h : '\n' ∉ last.toList) :
    ¬ (joinLines (front ++ [last]) = "" ∨ endsWith (joinLines (front ++ [last])) "\n") := by
  have hlast : last.toList ≠ [] := fun hnil => hne (String.toList_eq_nil_iff.1 hnil)
  obtain ⟨before, htext⟩ : ∃ before, (joinLines (front ++ [last])).toList = before ++ last.toList := by
    by_cases hfront : front = []
    · subst hfront
      exact ⟨[], congrArg String.toList (joinLines_singleton last)⟩
    · rw [joinLines_append hfront (List.cons_ne_nil _ _), joinLines_singleton, String.toList_append]
      exact ⟨_, rfl⟩
  rintro (hempty | hends)
  · rw [hempty] at htext
    exact hlast (List.append_eq_nil_iff.1 htext.symm).2
  · unfold endsWith at hends
    obtain ⟨cut, hcut⟩ := List.isSuffixOf_iff_suffix.1 hends
    have hfeed := congrArg List.getLast? (hcut.trans htext)
    rw [show "\n".toList = ['\n'] by decide, List.getLast?_concat, List.getLast?_append, List.getLast?_eq_some_getLast hlast,
      Option.some_or] at hfeed
    exact h (Option.some.inj hfeed ▸ List.getLast_mem hlast)

/-! ## Lines after other lines -/

/-- Lines without the blank one at their end, if there is one: what is appended takes its place. -/
def openEnd (lines : List String) : List String := if lines.getLast? = some "" then lines.dropLast else lines

/-- The lines of a file to which lists of lines have been written one after the other. -/
def merged : List (List String) → List String
  | [] => []
  | [lines] => lines
  | lines :: next :: rest => openEnd lines ++ merged (next :: rest)

/-- Lines that are appended to others follow them. -/
theorem appended_joinLines (hold : old ≠ []) (hnew : new ≠ []) (h : ∀ l ∈ old, '\n' ∉ l.toList) :
    Machine.appended (.str (joinLines old)) (.str (joinLines new)) = .ok (.str (joinLines (openEnd old ++ new))) := by
  obtain ⟨front, last, rfl⟩ : ∃ front last, old = front ++ [last] :=
    ⟨old.dropLast, old.getLast hold, (List.dropLast_concat_getLast hold).symm⟩
  unfold Machine.appended openEnd
  rw [List.getLast?_concat, List.dropLast_concat]
  dsimp only
  by_cases hlast : last = ""
  · subst hlast
    rw [if_pos (rfl : some "" = some "")]
    by_cases hfront : front = []
    · subst hfront
      rw [if_pos (.inl (joinLines_singleton "")), List.nil_append, joinLines_singleton, List.nil_append, String.empty_append]
    · have hends : joinLines (front ++ [""]) = joinLines front ++ "\n" := by
        rw [joinLines_append hfront (List.cons_ne_nil _ _), joinLines_singleton, String.append_empty]
      rw [hends, if_pos (.inr (endsWith_append _ _)), joinLines_append hfront hnew]
  · rw [if_neg (joinLines_ends hlast (h last (List.mem_append_right _ List.mem_cons_self))),
      if_neg fun heq => hlast (Option.some.inj heq), joinLines_append hold hnew]

theorem openEnd_append (hnew : new ≠ []) : openEnd (old ++ new) = old ++ openEnd new := by
  unfold openEnd
  rw [List.getLast?_append_of_ne_nil _ hnew]
  split
  · exact List.dropLast_append_of_ne_nil hnew
  · rfl

theorem openEnd_sublist (lines : List String) : (openEnd lines).Sublist lines := by
  unfold openEnd
  split
  · exact List.dropLast_sublist lines
  · exact .refl _

theorem openEnd_eq : openEnd old = old ↔ old.getLast? ≠ some "" := by
  unfold openEnd
  split
  · rename_i hlast
    refine ⟨fun heq => ?_, fun hne => absurd hlast hne⟩
    have hlength := congrArg List.length heq
    rw [List.length_dropLast] at hlength
    have hne : 0 < old.length := List.length_pos_iff.2 fun hnil => by rw [hnil] at hlast; cases hlast
    omega
  · rename_i hlast
    exact ⟨fun _ => hlast, fun _ => rfl⟩

/-- What is appended next comes between what is there and what is appended later. -/
theorem merged_step (hnew : new ≠ []) (lists : List (List String)) :
    merged ((openEnd old ++ new) :: lists) = merged (old :: new :: lists) := by
  rcases lists with _ | ⟨next, rest⟩
  · rfl
  · rw [merged, merged, merged, openEnd_append hnew, List.append_assoc]

theorem merged_sublist : ∀ lists : List (List String), (merged lists).Sublist lists.flatten
  | [] => .refl _
  | [lines] => by
    rw [merged, List.flatten_singleton]
  | lines :: next :: rest => by
    rw [merged, List.flatten_cons]
    exact (openEnd_sublist lines).append (merged_sublist (next :: rest))

/-- Nothing is lost exactly if no list but the last one ends in a blank line. -/
theorem merged_eq_flatten : ∀ {lists : List (List String)},
    merged lists = lists.flatten ↔ ∀ lines ∈ lists.dropLast, lines.getLast? ≠ some ""
  | [] => iff_of_true rfl fun _ hlines => nomatch hlines
  | [lines] => iff_of_true List.flatten_singleton.symm fun _ hlines => nomatch hlines
  | lines :: next :: rest => by
    have hsplit : merged (lines :: next :: rest) = (lines :: next :: rest).flatten ↔
        openEnd lines = lines ∧ merged (next :: rest) = (next :: rest).flatten := by
      have hfirst := openEnd_sublist lines
      have hrest := merged_sublist (next :: rest)
      rw [merged, List.flatten_cons]
      refine ⟨fun heq => ?_, fun ⟨heq, heq'⟩ => by rw [heq, heq']⟩
      have hlength := congrArg List.length heq
      rw [List.length_append, List.length_append] at hlength
      have hle := hfirst.length_le
      have hle' := hrest.length_le
      exact ⟨hfirst.eq_of_length (by omega), hrest.eq_of_length (by omega)⟩
    rw [hsplit, openEnd_eq, merged_eq_flatten, List.dropLast_cons_of_ne_nil (List.cons_ne_nil _ _), List.forall_mem_cons]

end Text

end SimUnix
