/-
What a pattern stands for. A name matches a pattern exactly if the pattern becomes the name when each of its stars is replaced by
some text. In a working directory that can be read, every argument that is a pattern is replaced by the names that match it, in the
order in which they are listed, and everything else stays where it is.
-/
import SimUnix.Shell.Execution
import SimUnix.Proofs.Action
import SimUnix.Proofs.Machine.Operations
import SimUnix.Proofs.Tree.Place
import Mathlib.Data.List.Infix

namespace SimUnix.Shell

/-! ## Stars -/

/-- The texts that a pattern becomes when each of its stars is replaced by some text, which may be empty. -/
inductive Becomes : List Char → List Char → Prop
  | nil : Becomes [] []
  | star {pattern rest text : List Char} (filling : List Char) (cut : text = filling ++ rest) (goes : Becomes pattern rest) :
      Becomes ('*' :: pattern) text
  | char {pattern text : List Char} {c : Char} (plain : c ≠ '*') (goes : Becomes pattern text) : Becomes (c :: pattern) (c :: text)

namespace Becomes

variable {pattern text : List Char} {c d : Char}

theorem nil_iff : Becomes [] text ↔ text = [] := by
  refine ⟨fun h => ?_, fun h => h ▸ .nil⟩
  cases h
  rfl

/-- Before the end of the text a star stands for nothing. -/
theorem star_nil_iff : Becomes ('*' :: pattern) [] ↔ Becomes pattern [] := by
  refine ⟨fun h => ?_, fun h => .star [] rfl h⟩
  cases h with
  | star filling cut goes =>
    obtain ⟨-, rfl⟩ := List.append_eq_nil_iff.1 cut.symm
    exact goes

/-- Elsewhere it stands for nothing, or takes the next character. -/
theorem star_cons_iff : Becomes ('*' :: pattern) (c :: text) ↔ Becomes pattern (c :: text) ∨ Becomes ('*' :: pattern) text := by
  constructor
  · intro h
    cases h with
    | star filling cut goes =>
      cases filling with
      | nil => exact .inl (cut ▸ goes)
      | cons first filling =>
        obtain ⟨-, rfl⟩ := List.cons_eq_cons.1 cut
        exact .inr (.star filling rfl goes)
    | char plain => exact absurd rfl plain
  · rintro (h | h)
    · exact .star [] rfl h
    · cases h with
      | star filling cut goes => exact .star (c :: filling) (congrArg (c :: ·) cut) goes
      | char plain => exact absurd rfl plain

/-- Every other character stands for itself. -/
theorem char_iff (plain : c ≠ '*') : Becomes (c :: pattern) (d :: text) ↔ c = d ∧ Becomes pattern text := by
  constructor
  · intro h
    cases h with
    | star => exact absurd rfl plain
    | char _ goes => exact ⟨rfl, goes⟩
  · rintro ⟨rfl, goes⟩
    exact .char plain goes

theorem not_char_nil (plain : c ≠ '*') : ¬ Becomes (c :: pattern) [] := by
  intro h
  cases h with
  | star => exact plain rfl

/-- What a star leaves to the rest of the pattern is some end of the text. -/
theorem star_iff : Becomes ('*' :: pattern) text ↔ ∃ rest ∈ text.tails, Becomes pattern rest := by
  constructor
  · intro h
    cases h with
    | star filling cut goes => exact ⟨_, (List.mem_tails ..).2 ⟨filling, cut.symm⟩, goes⟩
    | char plain => exact absurd rfl plain
  · rintro ⟨rest, hrest, goes⟩
    obtain ⟨filling, cut⟩ := (List.mem_tails ..).1 hrest
    exact .star filling cut.symm goes

instance decidable : ∀ pattern text : List Char, Decidable (Becomes pattern text)
  | [], _ => decidable_of_iff _ nil_iff.symm
  | c :: pattern, text =>
    have := decidable pattern
    if star : c = '*' then decidable_of_iff (∃ rest ∈ text.tails, Becomes pattern rest) (star ▸ star_iff.symm)
    else match text with
      | [] => .isFalse (not_char_nil star)
      | _ :: _ => decidable_of_iff _ (char_iff star).symm

end Becomes

/-- The matcher decides what a pattern becomes, as long as there is no line feed in the name. The induction follows the matcher: a star
is left out or takes a character, and every other character takes its like. -/
theorem globMatches_iff {pattern name : List Char} (hline : '\n' ∉ name) : globMatches pattern name = true ↔ Becomes pattern name := by
  fun_induction globMatches pattern name with
  | case1 name =>
    have hne : name ≠ ['\n'] := fun h => hline (h ▸ List.mem_singleton_self _)
    simp [Becomes.nil_iff, hne]
  | case2 pattern ih => rw [ih hline, Becomes.star_nil_iff]
  | case3 pattern c name ih₁ ih₂ =>
    obtain ⟨hc, hrest⟩ := not_or.1 fun h => hline (List.mem_cons.2 h)
    rw [Bool.or_eq_true, Bool.and_eq_true, ih₁ hline, ih₂ hrest, Becomes.star_cons_iff]
    simp [Ne.symm hc]
  | case4 p pattern c name hstar ih =>
    obtain ⟨-, hrest⟩ := not_or.1 fun h => hline (List.mem_cons.2 h)
    rw [Bool.and_eq_true, beq_iff_eq, ih hrest, Becomes.char_iff hstar]
  | case5 p pattern hstar => simp [Becomes.not_char_nil hstar]

/-! ## Arguments -/

/-- The names that a pattern becomes, in their order. Those that start with a dot are left out unless the pattern starts with one. -/
def standsFor (names : List String) (pattern : String) : List String :=
  names.filter fun name =>
    Becomes pattern.toList name.toList ∧ (name.toList.head? = some '.' → pattern.toList.head? = some '.')

/-- What takes the place of an argument. One with a star and no slash is a pattern, and stays if there is no name for it. -/
def replacement (names : List String) (arg : String) : List String :=
  if '*' ∈ arg.toList ∧ '/' ∉ arg.toList ∧ standsFor names arg ≠ [] then standsFor names arg else [arg]

variable {names args : List String} {arg pattern : String}

theorem isHidden_iff : isHidden arg = true ↔ arg.toList.head? = some '.' := by
  unfold isHidden Text.startsWith
  rw [List.isPrefixOf_iff_prefix, show ".".toList = ['.'] from rfl]
  rcases arg.toList with _ | ⟨c, rest⟩
  · simp
  · rw [List.head?_cons, Option.some_inj, List.cons_prefix_cons, and_iff_left List.nil_prefix, eq_comm]

theorem isGlob_iff : isGlob arg = true ↔ '*' ∈ arg.toList ∧ '/' ∉ arg.toList := by simp [isGlob]

theorem globMatching_eq (hlines : ∀ name ∈ names, '\n' ∉ name.toList) : globMatching pattern names = standsFor names pattern := by
  refine List.filter_congr fun name hname => ?_
  rw [Bool.eq_iff_iff, Bool.and_eq_true, globMatches_iff (hlines name hname), decide_eq_true_iff]
  refine and_congr_right fun _ => ?_
  rw [← isHidden_iff, ← isHidden_iff]
  rcases isHidden pattern <;> rcases isHidden name <;> decide

theorem expandArgs_eq (hlines : ∀ name ∈ names, '\n' ∉ name.toList) : expandArgs names args = args.flatMap (replacement names) := by
  unfold expandArgs
  congr 1
  funext arg
  unfold replacement
  rw [globMatching_eq hlines]
  by_cases hglob : isGlob arg = true
  · have hpattern := isGlob_iff.1 hglob
    rw [if_pos hglob]
    rcases hfound : standsFor names arg with _ | ⟨first, rest⟩
    · rw [if_neg fun h => h.2.2 rfl]
    · rw [if_pos ⟨hpattern.1, hpattern.2, List.cons_ne_nil _ _⟩]
  · rw [if_neg hglob, if_neg fun h => hglob (isGlob_iff.2 ⟨h.1, h.2.1⟩)]

/-- Where no argument is a pattern, the working directory does not matter. -/
theorem flatMap_replacement (hplain : args.any isGlob = false) : args.flatMap (replacement names) = args := by
  have hsame : ∀ arg ∈ args, replacement names arg = [arg] := fun arg harg =>
    if_neg fun h => List.any_eq_false.1 hplain arg harg (isGlob_iff.2 ⟨h.1, h.2.1⟩)
  rw [List.flatMap_congr hsame]
  exact List.flatMap_singleton' args

/-- In a working directory that can be read, and whose names hold no line feed, the arguments are what takes their place, in their
order. -/
theorem expandGlobs_exact {s : Machine} {cwd user : String} {entries : List Node} {names : List String}
    (readable : s.listDirectory cwd (some user) = .ok (some entries)) (hnames : entries.map (·.name) = names.map .str)
    (hlines : ∀ name ∈ names, '\n' ∉ name.toList) (args : List String) :
    expandGlobs s args cwd user = .ok (args.flatMap (replacement names)) := by
  unfold expandGlobs namesIn
  by_cases hglobs : args.any isGlob = true
  · rw [if_pos hglobs, readable]
    show Except.map _ (entries.mapM (·.name.asText)) = _
    rw [Tree.mapM_asText hnames, ← expandArgs_eq hlines]
    rfl
  · rw [if_neg hglobs, flatMap_replacement (Bool.eq_false_iff.2 hglobs)]
    have hsame : expandArgs [] args = args.flatMap (replacement []) := expandArgs_eq (List.forall_mem_nil _)
    show Except.ok (expandArgs [] args) = _
    rw [hsame, flatMap_replacement (Bool.eq_false_iff.2 hglobs)]

/-- A system that has not been started, in whose root directory root has made a few files. -/
def littered (files : List String) : Machine :=
  files.foldl (fun s name => (Machine.Operation.file (.createFile "/" name "" none) (some (.str rootName)) none).after s)
    (Machine.create (.memory []) "aurora" {} { stem := "n" } { seconds := 0 })

theorem expandGlobs_exact_littered :
    (∃ entries, (littered ["a.b", ".a", "b", "ab"]).listDirectory "/" (some (.str rootName)) = .ok (some entries) ∧
      entries.map (·.name) = ["a.b", ".a", "b", "ab"].map .str) ∧
    expandGlobs (littered ["a.b", ".a", "b", "ab"]) ["c", "*b", "a*", ".*", "/*", "*c*"] "/" rootName =
      .ok ["c", "a.b", "b", "ab", "a.b", "ab", ".a", "/*", "*c*"] := by
  have hlisted : ((littered ["a.b", ".a", "b", "ab"]).listDirectory "/" (some (.str rootName))).map
      (Option.map (List.map Node.name)) = .ok (some (["a.b", ".a", "b", "ab"].map .str)) := by rfl
  rcases hread : (littered ["a.b", ".a", "b", "ab"]).listDirectory "/" (some (.str rootName)) with e | _ | entries
  · cases hread ▸ hlisted
  · cases hread ▸ hlisted
  · have hnames : entries.map (·.name) = ["a.b", ".a", "b", "ab"].map .str := by
      rw [hread] at hlisted
      exact Option.some.inj (Except.ok.inj hlisted)
    refine ⟨⟨entries, rfl, hnames⟩, ?_⟩
    rw [expandGlobs_exact hread hnames (by decide)]
    decide

end SimUnix.Shell
