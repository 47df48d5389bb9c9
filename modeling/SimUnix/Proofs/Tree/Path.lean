/-
Canonical paths. A list of names that may be given and the path that they make determine each other,
and the canonical form of a path is always made of such names.
-/
import SimUnix.Tree.Path
import Mathlib.Data.List.DropRight

namespace SimUnix

/-! ## Cutting at a separator -/

namespace Text

variable {sep : Char} {pieces : List (List Char)} {cs : List Char}

theorem splitChars_eq (sep : Char) : ∀ cs : List Char, splitChars sep cs = cs.splitOn sep
  | [] => rfl
  | c :: cs => by
    unfold splitChars
    rw [splitChars_eq sep cs, List.splitOn_cons_eq_if_modifyHead]
    by_cases hc : c = sep
    · rw [if_pos hc, if_pos (beq_iff_eq.2 hc)]
    · rw [if_neg hc, if_neg fun h => hc (beq_iff_eq.1 h)]
      obtain ⟨piece, pieces, hp⟩ := List.exists_cons_of_ne_nil (List.splitOn_ne_nil sep cs)
      rw [hp]
      rfl

/-- Cutting what was joined gives the pieces back. -/
theorem splitChars_intercalate (hne : pieces ≠ []) (h : ∀ p ∈ pieces, sep ∉ p) :
    splitChars sep ([sep].intercalate pieces) = pieces := by
  rw [splitChars_eq]
  exact List.splitOn_intercalate sep h hne

/-- A text that goes on after a separator is cut into the pieces of both parts. -/
theorem splitChars_append (sep : Char) (more : List Char) : ∀ cs : List Char,
    splitChars sep (cs ++ sep :: more) = splitChars sep cs ++ splitChars sep more
  | [] => by simp [splitChars]
  | c :: cs => by
    have ih := splitChars_append sep more cs
    obtain ⟨piece, pieces, hcs⟩ := List.exists_cons_of_ne_nil (splitChars_ne_nil sep cs)
    rw [List.cons_append, splitChars, splitChars, ih, hcs]
    split <;> rfl

theorem not_mem_splitChars (sep : Char) : ∀ cs : List Char, ∀ p ∈ splitChars sep cs, sep ∉ p
  | [], p, hp => by
    cases List.mem_singleton.1 hp
    exact List.not_mem_nil
  | c :: cs, p, hp => by
    have ih := not_mem_splitChars sep cs
    obtain ⟨piece, pieces, hcs⟩ := List.exists_cons_of_ne_nil (splitChars_ne_nil sep cs)
    unfold splitChars at hp
    rw [hcs] at hp ih
    split at hp
    · rcases List.mem_cons.1 hp with rfl | hp
      · exact List.not_mem_nil
      · exact ih p hp
    · rename_i hc
      rcases List.mem_cons.1 hp with rfl | hp
      · exact fun hm => (List.mem_cons.1 hm).elim (fun he => hc he.symm) (ih piece List.mem_cons_self)
      · exact ih p (List.mem_cons_of_mem _ hp)

theorem mem_of_mem_splitChars {c : Char} (sep : Char) : ∀ cs : List Char, ∀ p ∈ splitChars sep cs, c ∈ p → c ∈ cs
  | [], p, hp, hc => by
    cases List.mem_singleton.1 hp
    cases hc
  | d :: cs, p, hp, hc => by
    have ih := mem_of_mem_splitChars (c := c) sep cs
    obtain ⟨piece, pieces, hcs⟩ := List.exists_cons_of_ne_nil (splitChars_ne_nil sep cs)
    unfold splitChars at hp
    rw [hcs] at hp ih
    split at hp
    · rcases List.mem_cons.1 hp with rfl | hp
      · cases hc
      · exact List.mem_cons_of_mem d (ih p hp hc)
    · rcases List.mem_cons.1 hp with rfl | hp
      · rcases List.mem_cons.1 hc with rfl | hc
        · exact List.mem_cons_self
        · exact List.mem_cons_of_mem d (ih piece List.mem_cons_self hc)
      · exact List.mem_cons_of_mem d (ih p (List.mem_cons_of_mem _ hp) hc)

theorem trimChars_sublist (cs : List Char) : (trimChars cs).Sublist cs := by
  unfold trimChars trimBy
  exact (List.rdropWhile_prefix _ _).sublist.trans (List.dropWhile_sublist _)

/-- Nothing is trimmed where neither end is to be dropped. -/
theorem trimBy_of_ends {drop : Char → Bool} (hne : cs ≠ []) (hfirst : drop (cs.head hne) = false)
    (hlast : drop (cs.getLast hne) = false) : trimBy drop cs = cs := by
  have hfront : cs.dropWhile drop = cs := by
    obtain ⟨c, rest, rfl⟩ := List.exists_cons_of_ne_nil hne
    exact List.dropWhile_cons_of_neg (by simpa using hfirst)
  unfold trimBy
  rw [hfront]
  exact List.rdropWhile_eq_self_iff.2 fun _ => by simpa using hlast

end Text

namespace Path

open Text

variable {names parts : List String} {name path : String}

/-! ## Paths made of names -/

/-- All of some names may be given. -/
def Valid (names : List String) : Prop := ∀ name ∈ names, validName name = true

theorem valid_snoc : Valid (names ++ [name]) ↔ Valid names ∧ validName name = true := by
  unfold Valid
  simp [or_imp, forall_and]

theorem validName_iff : validName name = true ↔ name ≠ "" ∧ '/' ∉ name.toList ∧ name ≠ "." ∧ name ≠ ".." := by
  unfold validName
  simp [and_assoc]

theorem toList_ofComponents : (ofComponents names).toList = '/' :: ['/'].intercalate (names.map String.toList) := by
  unfold ofComponents joinWith
  rw [String.toList_append, String.toList_intercalate]
  rfl

theorem ofComponents_ne_empty : ofComponents names ≠ "" := fun he => by
  have hlist := congrArg String.toList he
  rw [toList_ofComponents] at hlist
  cases hlist

theorem Valid.pieces (h : Valid names) : ∀ p ∈ names.map String.toList, '/' ∉ p ∧ p ≠ [] := by
  intro p hp
  obtain ⟨name, hname, rfl⟩ := List.mem_map.1 hp
  obtain ⟨hne, hslash, -⟩ := validName_iff.1 (h name hname)
  exact ⟨hslash, fun he => hne (String.toList_eq_nil_iff.1 he)⟩

/-- What is joined from pieces neither starts nor ends with a slash that none of them has. -/
theorem ends_intercalate : ∀ {pieces : List (List Char)}, pieces ≠ [] → (∀ p ∈ pieces, '/' ∉ p ∧ p ≠ []) →
    ∃ hne : ['/'].intercalate pieces ≠ [],
      (['/'].intercalate pieces).head hne ≠ '/' ∧ (['/'].intercalate pieces).getLast hne ≠ '/'
  | [p], _, h => by
    obtain ⟨hslash, hne⟩ := h p List.mem_cons_self
    rw [List.intercalate_singleton]
    exact ⟨hne, fun he => hslash (he ▸ List.head_mem hne), fun he => hslash (he ▸ List.getLast_mem hne)⟩
  | p :: q :: rest, _, h => by
    obtain ⟨hslash, hne⟩ := h p List.mem_cons_self
    obtain ⟨hne', -, hlast⟩ := ends_intercalate (List.cons_ne_nil q rest) fun r hr => h r (List.mem_cons_of_mem _ hr)
    rw [List.intercalate_cons_cons]
    refine ⟨by simp [hne], ?_, ?_⟩
    · rw [List.head_append_of_ne_nil (by simp [hne]), List.head_append_of_ne_nil hne]
      exact fun he => hslash (he ▸ List.head_mem hne)
    · rw [List.getLast_append_of_ne_nil _ hne']
      exact hlast

theorem map_ofList_toList : (names.map String.toList).map String.ofList = names := by
  rw [List.map_map]
  exact List.map_id'' (fun name => String.ofList_toList) names

/-- A walk follows the names that a path is made of, if none of them is empty or has a slash. -/
theorem components_of_pieces (h : ∀ p ∈ names.map String.toList, '/' ∉ p ∧ p ≠ []) : components (ofComponents names) = names := by
  by_cases hnil : names = []
  · subst hnil
    rfl
  · have hpieces : names.map String.toList ≠ [] := by simpa using hnil
    obtain ⟨hne, hfirst, hlast⟩ := ends_intercalate hpieces h
    have htrim : trimBy (· == '/') (ofComponents names).toList = ['/'].intercalate (names.map String.toList) := by
      rw [toList_ofComponents]
      exact trimBy_of_ends hne (by simpa using hfirst) (by simpa using hlast)
    unfold components
    rw [if_neg, htrim, splitChars_intercalate hpieces fun p hp => (h p hp).1, map_ofList_toList]
    rintro (he | he)
    all_goals
      have hlist := congrArg String.toList he
      rw [toList_ofComponents] at hlist
      first | cases hlist | exact hne (List.cons.inj hlist).2

theorem components_ofComponents (h : Valid names) : components (ofComponents names) = names := components_of_pieces h.pieces

/-! ## The canonical form -/

theorem push_valid (hp : Valid parts) (hslash : '/' ∉ name.toList) : Valid (push parts name) := by
  unfold push
  split
  · exact hp
  · rename_i hne
    split
    · exact fun n hn => hp n (List.dropLast_subset _ hn)
    · rename_i hdots
      intro n hn
      rcases List.mem_append.1 hn with hn | hn
      · exact hp n hn
      · cases List.mem_singleton.1 hn
        exact validName_iff.2 ⟨fun he => hne (.inl he), hslash, fun he => hne (.inr he), hdots⟩

theorem foldl_push_valid : ∀ {more parts : List String}, Valid parts → (∀ name ∈ more, '/' ∉ name.toList) →
    Valid (more.foldl push parts)
  | [], _, hp, _ => hp
  | name :: more, parts, hp, h => by
    rw [List.foldl_cons]
    exact foldl_push_valid (push_valid hp (h name List.mem_cons_self)) fun n hn => h n (List.mem_cons_of_mem _ hn)

/-- The names that the canonical form of a path is made of. -/
def folded (path : String) : List String := (Text.split '/' path).foldl push []

theorem normalize_eq (path : String) : normalize path = ofComponents (folded path) := rfl

theorem not_mem_split : ∀ piece ∈ Text.split '/' path, '/' ∉ piece.toList := by
  intro piece hpiece
  obtain ⟨p, hp, rfl⟩ := List.mem_map.1 hpiece
  rw [String.toList_ofList]
  exact not_mem_splitChars '/' _ p hp

theorem folded_valid (path : String) : Valid (folded path) := foldl_push_valid (fun _ hn => by cases hn) not_mem_split

/-- The canonical form of a path is made of names that may be given. -/
theorem normalize_valid (path : String) : ∃ names, Valid names ∧ normalize path = ofComponents names :=
  ⟨_, folded_valid path, rfl⟩

theorem foldl_push_of_valid : ∀ {more parts : List String}, Valid more → more.foldl push parts = parts ++ more
  | [], _, _ => (List.append_nil _).symm
  | name :: more, parts, h => by
    obtain ⟨hne, -, hdot, hdots⟩ := validName_iff.1 (h name List.mem_cons_self)
    have hpush : push parts name = parts ++ [name] := by
      unfold push
      rw [if_neg (not_or.2 ⟨hne, hdot⟩), if_neg hdots]
    rw [List.foldl_cons, hpush, foldl_push_of_valid fun n hn => h n (List.mem_cons_of_mem _ hn), List.append_assoc]
    rfl

/-- The pieces of a path made of names are these names, after an empty one. -/
theorem split_of_names (h : Valid names) (hne : names ≠ []) : Text.split '/' (ofComponents names) = "" :: names := by
  have hpieces : names.map String.toList ≠ [] := by simpa using hne
  unfold Text.split
  rw [toList_ofComponents, splitChars, if_pos rfl, splitChars_intercalate hpieces fun p hp => (h.pieces p hp).1,
    List.map_cons, map_ofList_toList]

theorem folded_ofComponents (h : Valid names) : folded (ofComponents names) = names := by
  by_cases hnil : names = []
  · subst hnil
    rfl
  · unfold folded
    rw [split_of_names h hnil, List.foldl_cons, show push [] "" = [] from rfl, foldl_push_of_valid h, List.nil_append]

/-- A path made of names that may be given is canonical. -/
theorem normalize_ofComponents (h : Valid names) : normalize (ofComponents names) = ofComponents names :=
  congrArg ofComponents (folded_ofComponents h)

/-- What follows a slash is walked from where the path before it leads. -/
theorem folded_append (path more : String) : folded (path ++ "/" ++ more) = (Text.split '/' more).foldl push (folded path) := by
  have hlist : (path ++ "/" ++ more).toList = path.toList ++ '/' :: more.toList := by simp
  unfold folded Text.split
  rw [hlist, splitChars_append, List.map_append, List.foldl_append]

/-- A path may be brought into its canonical form before it goes on. -/
theorem normalize_append (path more : String) : normalize (normalize path ++ "/" ++ more) = normalize (path ++ "/" ++ more) := by
  simp only [normalize_eq, folded_append, folded_ofComponents (folded_valid path)]

theorem startsWith_ofComponents : startsWith (ofComponents names) "/" = true := by
  unfold startsWith
  rw [toList_ofComponents]
  rfl

/-- A name that goes on with a blank somewhere, and without a slash, may be given, too. -/
theorem validName_append {more : String} (h : validName name = true) (hslash : '/' ∉ more.toList) (hblank : ' ' ∈ more.toList) :
    validName (name ++ more) = true := by
  obtain ⟨hne, hown, -⟩ := validName_iff.1 h
  have hlist : (name ++ more).toList = name.toList ++ more.toList := String.toList_append
  have hmem : ' ' ∈ (name ++ more).toList := hlist ▸ List.mem_append_right _ hblank
  refine validName_iff.2 ⟨fun he => ?_, fun hs => ?_, fun he => ?_, fun he => ?_⟩
  · rw [he] at hmem
    cases hmem
  · rw [hlist] at hs
    exact (List.mem_append.1 hs).elim hown hslash
  all_goals
    rw [he] at hmem
    revert hmem
    decide

/-! ## Canonical paths -/

/-- A path that starts with a slash and, the root apart, neither ends with one nor has a piece between two slashes
that is empty or dots. -/
structure Canonical (path : String) : Prop where
  absolute : startsWith path "/" = true
  noTrailing : path ≠ root → endsWith path "/" = false
  pieces : path ≠ root → ∀ piece ∈ (Text.split '/' path).tail, piece ≠ "" ∧ piece ≠ "." ∧ piece ≠ ".."

theorem canonical_ofComponents (h : Valid names) : Canonical (ofComponents names) := by
  by_cases hnil : names = []
  · subst hnil
    exact ⟨rfl, fun hne => absurd rfl hne, fun hne => absurd rfl hne⟩
  refine ⟨startsWith_ofComponents, fun _ => ?_, fun _ piece hpiece => ?_⟩
  · obtain ⟨hne, -, hlast⟩ := ends_intercalate (by simpa using hnil) h.pieces
    have hlist : (ofComponents names).toList = ['/'] ++ ['/'].intercalate (names.map String.toList) := toList_ofComponents
    unfold endsWith
    rw [Bool.eq_false_iff, ne_eq, List.isSuffixOf_iff_suffix, hlist]
    rintro ⟨front, hfront⟩
    -- The last character of the path is that of its last name.
    have hlast' := congrArg List.getLast? hfront
    rw [List.getLast?_append_of_ne_nil _ hne, List.getLast?_eq_some_getLast hne] at hlast'
    simp at hlast'
    exact hlast hlast'.symm
  · rw [split_of_names h hnil] at hpiece
    obtain ⟨hne, -, hdots⟩ := validName_iff.1 (h piece hpiece)
    exact ⟨hne, hdots⟩

/-- Canonical paths are those that names make. -/
theorem canonical_iff : Canonical path ↔ ∃ names, Valid names ∧ path = ofComponents names := by
  constructor
  · rintro ⟨hslash, -, hpieces⟩
    by_cases hroot : path = root
    · exact ⟨[], List.forall_mem_nil _, hroot⟩
    obtain ⟨cs, hcs⟩ := List.isPrefixOf_iff_prefix.1 hslash
    have hcut : Text.split '/' path = "" :: (splitChars '/' cs).map String.ofList := by
      unfold Text.split
      rw [← hcs]
      rfl
    refine ⟨(splitChars '/' cs).map String.ofList, fun name hname => ?_, ?_⟩
    · obtain ⟨hne, hdots⟩ := hpieces hroot name (by rw [hcut]; exact hname)
      exact validName_iff.2 ⟨hne, not_mem_split name (by rw [hcut]; exact List.mem_cons_of_mem _ hname), hdots⟩
    · rw [← String.toList_inj, toList_ofComponents, List.map_map, ← hcs]
      simp [Function.comp_def, intercalate_splitChars]
  · rintro ⟨names, hvalid, rfl⟩
    exact canonical_ofComponents hvalid

/-! ## The last name -/

theorem ofComponents_snoc (hne : names ≠ []) : ofComponents (names ++ [name]) = ofComponents names ++ "/" ++ name := by
  unfold ofComponents joinWith
  rw [String.intercalate_append_of_ne_nil hne (List.cons_ne_nil _ _), String.intercalate_singleton]
  simp only [String.append_assoc]

/-- A path is split at its last slash. -/
theorem split_at_slash {front : List Char} (hp : path.toList = front ++ '/' :: name.toList) (hname : name ≠ "")
    (hslash : '/' ∉ name.toList) : split path = (if front = [] then root else String.ofList front, name) := by
  have hrev : path.toList.reverse = name.toList.reverse ++ '/' :: front.reverse := by simp [hp]
  have hne : name.toList.reverse ≠ [] := fun he => hname (String.toList_eq_nil_iff.1 (List.reverse_eq_nil_iff.1 he))
  have hother : ∀ c ∈ name.toList.reverse, (c ≠ '/' : Bool) = true := fun c hc => by
    rw [decide_eq_true_iff]
    rintro rfl
    exact hslash (List.mem_reverse.1 hc)
  have hwhole : withoutTrailing path = path := by
    obtain ⟨c, cs, hcs⟩ := List.exists_cons_of_ne_nil hne
    have hc : ¬ (c == '/') = true := by simpa using hother c (hcs ▸ List.mem_cons_self)
    unfold withoutTrailing
    rw [hrev, hcs, List.cons_append, List.dropWhile_cons_of_neg (p := (· == '/')) hc, ← List.cons_append, ← hcs, ← hrev, List.reverse_reverse,
      String.ofList_toList]
  have hroot : path ≠ root := by
    rintro rfl
    have hlen := congrArg List.length hrev
    have hpos := List.length_pos_of_ne_nil hne
    have hone : root.toList.reverse.length = 1 := rfl
    simp only [List.length_append, List.length_cons] at hlen
    omega
  have htake : path.toList.reverse.takeWhile (· ≠ '/') = name.toList.reverse := by
    rw [hrev, List.takeWhile_append_of_pos hother, List.takeWhile_cons_of_neg (by simp), List.append_nil]
  have hdrop : path.toList.reverse.dropWhile (· ≠ '/') = '/' :: front.reverse := by
    rw [hrev, List.dropWhile_append_of_pos hother, List.dropWhile_cons_of_neg (by simp)]
  unfold split
  rw [if_neg hroot, hwhole]
  dsimp only
  rw [hdrop, htake, List.reverse_reverse, String.ofList_toList]
  rcases front.eq_nil_or_concat with rfl | ⟨cs, c, rfl⟩ <;> simp

theorem split_ofComponents (h : Valid (names ++ [name])) : split (ofComponents (names ++ [name])) = (ofComponents names, name) := by
  obtain ⟨hname, hslash, -⟩ := validName_iff.1 (h name (List.mem_append_right _ List.mem_cons_self))
  by_cases hnil : names = []
  · subst hnil
    have hlist : (ofComponents ([] ++ [name])).toList = [] ++ '/' :: name.toList := by
      rw [toList_ofComponents]
      simp
    rw [split_at_slash hlist hname hslash]
    rfl
  · have hlist : (ofComponents (names ++ [name])).toList = (ofComponents names).toList ++ '/' :: name.toList := by
      rw [ofComponents_snoc hnil]
      simp
    have hne : (ofComponents names).toList ≠ [] := fun he => ofComponents_ne_empty (String.toList_eq_nil_iff.1 he)
    rw [split_at_slash hlist hname hslash, if_neg hne, String.ofList_toList]

theorem withoutTrailing_of_end (h : endsWith path "/" = false) : withoutTrailing path = path := by
  have hlast : ∀ c ∈ path.toList.reverse.head?, ¬ (c == '/') = true := by
    intro c hc heq
    obtain ⟨rest, hrest⟩ := List.head?_eq_some_iff.1 hc
    refine absurd (List.isSuffixOf_iff_suffix.2 ⟨rest.reverse, ?_⟩) (Bool.eq_false_iff.1 h)
    rw [← List.reverse_reverse path.toList, hrest, beq_iff_eq.1 heq, List.reverse_cons]
    rfl
  unfold withoutTrailing
  rcases hrev : path.toList.reverse with _ | ⟨c, rest⟩
  · rw [List.reverse_eq_nil_iff, String.toList_eq_nil_iff] at hrev
    rw [hrev]
    rfl
  · rw [List.dropWhile_cons_of_neg (p := (· == '/')) (hlast c (by rw [hrev]; rfl)), ← hrev, List.reverse_reverse, String.ofList_toList]

/-- A name joined to a path made of names is the last one. -/
theorem join_ofComponents (h : Valid names) : join (ofComponents names) name = ofComponents (names ++ [name]) := by
  by_cases hnil : names = []
  · subst hnil
    unfold join ofComponents joinWith
    rw [List.nil_append, String.intercalate_singleton]
    rfl
  · have hroot : ofComponents names ≠ root := fun he => hnil ((folded_ofComponents h).symm.trans (congrArg folded he))
    unfold join
    rw [withoutTrailing_of_end ((canonical_ofComponents h).noTrailing hroot), ofComponents_snoc hnil]

/-- What a canonical path is split into is joined again. -/
theorem Canonical.join_split (h : Canonical path) (hne : path ≠ root) : join (split path).1 (split path).2 = path := by
  obtain ⟨names, hvalid, rfl⟩ := canonical_iff.1 h
  rcases List.eq_nil_or_concat names with rfl | ⟨front, last, rfl⟩
  · exact absurd rfl hne
  · rw [List.concat_eq_append] at hvalid ⊢
    rw [split_ofComponents hvalid, join_ofComponents (valid_snoc.1 hvalid).1]

/-- What a name is joined to is split off again. -/
theorem Canonical.split_join (h : Canonical path) (hname : validName name = true) : split (join path name) = (path, name) := by
  obtain ⟨names, hvalid, rfl⟩ := canonical_iff.1 h
  rw [join_ofComponents hvalid, split_ofComponents (valid_snoc.2 ⟨hvalid, hname⟩)]

end Path

end SimUnix
