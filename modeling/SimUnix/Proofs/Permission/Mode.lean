/-
The mode language. What a written mode says is a function on the set of bits that permissions grant: octal digits and the
nine characters name the bits that they leave, and clauses act on the bits one after the other. A mode is understood exactly
if it is written in one of these ways; what it leaves then is in order and has the flag that was there before, and otherwise
the permissions of a node stay what they are.
-/
import SimUnix.Proofs.Machine.Trail
import Mathlib.Data.Set.List

namespace SimUnix

/-! ## Bits -/

/-- The number of a class in the order of the triplets. -/
def Class.rank : Class → Nat
  | owner => 0
  | group => 1
  | other => 2

namespace Permission

/-- A bit of permissions: an access for a class of users. -/
abbrev Bit := Class × Access

/-- Ten characters in order: a flag, and for every bit its letter or a dash. -/
structure Formed (cs : List Char) : Prop where
  length : cs.length = 10
  place : ∀ (c : Class) (a : Access), cs[c.start + a.place]? = some a.letter ∨ cs[c.start + a.place]? = some '-'

/-- The bits that permissions grant. -/
def bits (cs : List Char) : Set Bit := {b | grants (cs.map fun c => .str c.toString) b.1 b.2 = true}

variable {cs nine : List Char} {c c' : Class} {a a' : Access}

theorem index_inj : c.start + a.place = c'.start + a'.place ↔ c = c' ∧ a = a' := by
  cases c <;> cases a <;> cases c' <;> cases a' <;> decide

theorem index_lt (c : Class) (a : Access) : c.start + a.place < 10 := by cases c <;> cases a <;> decide

theorem index_succ (c : Class) (a : Access) : c.start + a.place = 3 * c.rank + a.place + 1 := by cases c <;> cases a <;> rfl

theorem letter_ne_dash (a : Access) : a.letter ≠ '-' := by cases a <;> decide

/-- Of ten characters those at the place of a bit tell whether it is granted. -/
theorem mem_bits (h : cs.length = 10) : (c, a) ∈ bits cs ↔ cs[c.start + a.place]? = some a.letter := by
  have hplace : a.place < 3 := by cases a <;> decide
  have hstart : c.start + 3 ≤ 10 := by cases c <;> decide
  have hlength : (triplet (cs.map fun c => Json.str c.toString) c).length = 3 := by
    simp only [triplet, List.length_take, List.length_drop, List.length_map]
    omega
  have hflag : (triplet (cs.map fun c => Json.str c.toString) c)[a.place]? =
      cs[c.start + a.place]?.map fun c => Json.str c.toString := by
    simp only [triplet, List.getElem?_take_of_lt hplace, List.getElem?_drop, List.getElem?_map]
  show grants _ _ _ = true ↔ _
  simp only [grants, hlength, hflag]
  cases cs[c.start + a.place]? with
  | none => simp
  | some x => simp

/-- Only the flag may differ of permissions that grant the same bits by the same characters. -/
theorem getElem?_cons_index (first : Char) : (first :: nine)[c.start + a.place]? = nine[3 * c.rank + a.place]? := by
  rw [index_succ, List.getElem?_cons_succ]

theorem Formed.cons {first : Char} (h : Formed (first :: nine)) (flag : Char) : Formed (flag :: nine) where
  length := h.length
  place c a := by
    rw [getElem?_cons_index, ← getElem?_cons_index first]
    exact h.place c a

theorem bits_cons (first flag : Char) (h : nine.length = 9) : bits (flag :: nine) = bits (first :: nine) := by
  ext ⟨c, a⟩
  rw [mem_bits (by simp [h]), mem_bits (by simp [h]), getElem?_cons_index, getElem?_cons_index]

end Permission

namespace Mode

open Permission

/-! ## What is written -/

/-- The bits that three octal digits name: of each class those that its digit has, the heaviest first. -/
def octalBits (digits : List Char) : Set Bit :=
  {b | ∃ d, digits[b.1.rank]? = some d ∧ (d.toNat - '0'.toNat).testBit (2 - b.2.place) = true}

/-- The sign of a change. -/
def sign : Change → Char
  | .add => '+'
  | .remove => '-'
  | .set => '='

/-- The letter of a class in a clause, or that of all classes at once. -/
def whoLetter : Option Class → Char
  | some .owner => 'u'
  | some .group => 'g'
  | some .other => 'o'
  | none => 'a'

/-- A clause as it is written: letters for classes, a sign, letters for bits. -/
structure Phrase where
  who : List (Option Class)
  change : Change
  accesses : List Access

/-- The characters of a clause. -/
def Phrase.text (p : Phrase) : List Char := p.who.map whoLetter ++ sign p.change :: p.accesses.map Access.letter

/-- Whether a clause speaks of a class: by its letter, by that of all classes, or by no letter at all. -/
def Phrase.names (p : Phrase) (c : Class) : Bool := p.who.isEmpty || p.who.contains none || p.who.contains (some c)

/-- Whether a bit is granted after a change, given whether it was before and whether it is named. -/
def leaves (old named : Prop) : Change → Prop
  | .add => old ∨ named
  | .remove => old ∧ ¬ named
  | .set => named

/-- The effect of a clause on the bits that are granted. -/
def Phrase.act (p : Phrase) (granted : Set Bit) : Set Bit :=
  {b | if p.names b.1 then leaves (b ∈ granted) (b.2 ∈ p.accesses) p.change else b ∈ granted}

/-- Nine characters as they are, possibly after one that does not count. -/
def Literal (cs nine : List Char) : Prop := (∀ flag, Formed (flag :: nine)) ∧ (cs = nine ∨ ∃ first, cs = first :: nine)

/-- What a mode says: the effect on the bits that are granted. The ways of writing are told apart in this order, and nine
characters that could be a clause, too, are nine characters. -/
inductive Says (cs : List Char) : (Set Bit → Set Bit) → Prop
  | octal {digits : List Char} (three : digits.length = 3) (octal : ∀ d ∈ digits, '0' ≤ d ∧ d ≤ '7')
      (written : cs = digits ∨ cs = '0' :: digits) : Says cs fun _ => octalBits digits
  | literal {nine : List Char} (written : Literal cs nine) : Says cs fun _ => bits ('-' :: nine)
  | clauses {phrases : List Phrase} (other : ∀ nine, ¬ Literal cs nine)
      (written : (Text.splitChars ',' cs).map Text.trimChars = phrases.map Phrase.text) :
      Says cs fun granted => phrases.foldl (fun granted p => p.act granted) granted

/-! ## Digits and letters -/

variable {cs nine digits : List Char} {flag : Char}

theorem octal?_eq_some : octal? cs = some nine ↔ ∃ digits : List Char, digits.length = 3 ∧ (∀ d ∈ digits, '0' ≤ d ∧ d ≤ '7') ∧
    (cs = digits ∨ cs = '0' :: digits) ∧ nine = digits.flatMap octalTriplet := by
  have hall : ∀ digits : List Char, digits.all isOctal = true ↔ ∀ d ∈ digits, '0' ≤ d ∧ d ≤ '7' := fun digits => by
    simp [List.all_eq_true, isOctal]
  unfold octal?
  constructor
  · intro h
    simp only [Option.ite_none_right_eq_some, Option.some.injEq, hall] at h
    obtain ⟨⟨hthree, hoctal⟩, rfl⟩ := h
    refine ⟨_, hthree, hoctal, ?_, rfl⟩
    split
    · rename_i hzero
      obtain ⟨d, rest, rfl⟩ := List.exists_cons_of_length_eq_add_one hzero.1
      cases hzero.2
      exact .inr rfl
    · exact .inl rfl
  · rintro ⟨digits, hthree, hoctal, rfl | rfl, rfl⟩
    · simp [hthree, (hall cs).2 hoctal]
    · simp [hthree, (hall digits).2 hoctal]

theorem octalTriplet_eq (d : Char) : octalTriplet d =
    Access.all.map fun a => if (d.toNat - '0'.toNat).testBit (2 - a.place) then a.letter else '-' := by
  apply List.map_congr_left
  intro a _
  have hbit : (d.toNat - 48) / a.weight % 2 = 1 ↔ (d.toNat - '0'.toNat).testBit (2 - a.place) = true := by
    rw [Nat.testBit_eq_decide_div_mod_eq, decide_eq_true_iff]
    cases a <;> rfl
  simp only [hbit]

theorem getElem?_octal (h : digits.length = 3) (c : Class) (a : Access) : (digits.flatMap octalTriplet)[3 * c.rank + a.place]? =
    digits[c.rank]?.map fun d => if (d.toNat - '0'.toNat).testBit (2 - a.place) then a.letter else '-' := by
  obtain ⟨x, y, z, rfl⟩ := List.length_eq_three.1 h
  simp only [List.flatMap_cons, List.flatMap_nil, octalTriplet_eq]
  cases c <;> cases a <;> rfl

/-- Octal digits leave the bits that they name. -/
theorem octal_left (h : digits.length = 3) (flag : Char) : Formed (flag :: digits.flatMap octalTriplet) ∧
    bits (flag :: digits.flatMap octalTriplet) = octalBits digits := by
  have hlength : (flag :: digits.flatMap octalTriplet).length = 10 := by
    obtain ⟨x, y, z, rfl⟩ := List.length_eq_three.1 h
    rfl
  have hrank (c : Class) : ∃ d, digits[c.rank]? = some d := by
    refine ⟨_, List.getElem?_eq_getElem ?_⟩
    rw [h]
    cases c <;> decide
  constructor
  · refine ⟨hlength, fun c a => ?_⟩
    obtain ⟨d, hd⟩ := hrank c
    rw [getElem?_cons_index, getElem?_octal h, hd, Option.map_some]
    split
    · exact .inl rfl
    · exact .inr rfl
  · ext ⟨c, a⟩
    obtain ⟨d, hd⟩ := hrank c
    rw [mem_bits hlength, getElem?_cons_index, getElem?_octal h]
    show _ ↔ ∃ d, digits[c.rank]? = some d ∧ _
    simp [hd, (letter_ne_dash a).symm]

theorem forall_bit {P : Class → Access → Prop} : (∀ c a, P c a) ↔
    (P .owner .read ∧ P .owner .write ∧ P .owner .execute) ∧ (P .group .read ∧ P .group .write ∧ P .group .execute) ∧
      P .other .read ∧ P .other .write ∧ P .other .execute := by
  constructor
  · intro h
    exact ⟨⟨h _ _, h _ _, h _ _⟩, ⟨h _ _, h _ _, h _ _⟩, h _ _, h _ _, h _ _⟩
  · rintro ⟨⟨_, _, _⟩, ⟨_, _, _⟩, _, _, _⟩ c a
    cases c <;> cases a <;> assumption

/-- Nine characters are in order if each is the letter of its place or a dash. -/
theorem formed_cons_iff : (∀ flag, Formed (flag :: nine)) ↔
    nine.length = 9 ∧ ((nine.zip pattern).all fun p => p.1 == p.2 || p.1 == '-') = true := by
  have hplaces (h : nine.length = 9) : ((nine.zip pattern).all fun p => p.1 == p.2 || p.1 == '-') = true ↔
      ∀ (c : Class) (a : Access), nine[3 * c.rank + a.place]? = some a.letter ∨ nine[3 * c.rank + a.place]? = some '-' := by
    rw [forall_bit]
    match nine, h with
    | [x₀, x₁, x₂, x₃, x₄, x₅, x₆, x₇, x₈], _ => simp [pattern, Class.rank, Access.place, Access.letter, and_assoc]
  constructor
  · intro h
    have hlength : nine.length = 9 := Nat.succ.inj (h '-').length
    refine ⟨hlength, (hplaces hlength).2 fun c a => ?_⟩
    rw [← getElem?_cons_index '-']
    exact (h '-').place c a
  · rintro ⟨hlength, hall⟩ flag
    refine ⟨congrArg Nat.succ hlength, fun c a => ?_⟩
    rw [getElem?_cons_index]
    exact (hplaces hlength).1 hall c a

theorem literal?_eq_some : literal? cs = some nine ↔ Literal cs nine := by
  unfold literal? Literal
  rw [formed_cons_iff]
  constructor
  · intro h
    simp only [Option.ite_none_right_eq_some, Option.some.injEq] at h
    obtain ⟨hformed, rfl⟩ := h
    refine ⟨hformed, ?_⟩
    split
    · rename_i hten
      obtain ⟨first, rest, rfl⟩ := List.exists_cons_of_length_eq_add_one hten
      exact .inr ⟨first, rfl⟩
    · exact .inl rfl
  · rintro ⟨hformed, rfl | ⟨first, rfl⟩⟩
    · have hten : cs.length ≠ 10 := by
        rw [hformed.1]
        decide
      simp only [if_neg hten, if_pos hformed]
    · have hten : (first :: nine).length = 10 := congrArg Nat.succ hformed.1
      simp only [if_pos hten, List.drop_one, List.tail_cons, if_pos hformed]

/-! ## Reading clauses -/

/-- The classes that a letter stands for. -/
def whoClasses : Option Class → List Class
  | some c => [c]
  | none => Class.all

/-- The clause that is written. -/
def Phrase.clause (p : Phrase) : Clause where
  classes := if p.who.isEmpty then Class.all else p.who.flatMap whoClasses
  change := p.change
  bits := p.accesses

theorem classes?_eq_some {c : Char} {classes : List Class} :
    classes? c = some classes ↔ ∃ who, c = whoLetter who ∧ classes = whoClasses who := by
  constructor
  · intro h
    unfold classes? at h
    split_ifs at h with hu hg ho ha
    · exact ⟨some .owner, hu, (Option.some.inj h).symm⟩
    · exact ⟨some .group, hg, (Option.some.inj h).symm⟩
    · exact ⟨some .other, ho, (Option.some.inj h).symm⟩
    · exact ⟨none, ha, (Option.some.inj h).symm⟩
  · rintro ⟨who, rfl, rfl⟩
    rcases who with _ | _ | _ | _ <;> rfl

theorem change?_eq_some {c : Char} {change : Change} : change? c = some change ↔ c = sign change := by
  constructor
  · intro h
    unfold change? at h
    split_ifs at h with ha hr hs <;> cases h <;> assumption
  · rintro rfl
    cases change <;> rfl

theorem bit?_eq_some {c : Char} {a : Access} : bit? c = some a ↔ c = a.letter := by
  constructor
  · intro h
    unfold bit? at h
    split_ifs at h with hr hw hx <;> cases h <;> assumption
  · rintro rfl
    cases a <;> rfl

theorem mapM_bit? : ∀ {cs : List Char} {accesses : List Access}, cs.mapM bit? = some accesses ↔ cs = accesses.map Access.letter
  | [], accesses => by cases accesses <;> simp
  | c :: cs, accesses => by
    simp only [List.mapM_cons, Option.bind_eq_bind, Option.bind_eq_some_iff, Option.pure_def, Option.some.injEq, bit?_eq_some, mapM_bit?]
    constructor
    · rintro ⟨a, rfl, rest, rfl, rfl⟩
      rfl
    · intro h
      obtain ⟨a, rest, rfl, rfl, rfl⟩ := List.map_eq_cons_iff.1 h.symm
      exact ⟨a, rfl, rest, rfl, rfl⟩

theorem filterMap_classes? (who : List (Option Class)) : (who.map whoLetter).filterMap classes? = who.map whoClasses := by
  rw [List.filterMap_map, ← List.filterMap_eq_map]
  apply List.filterMap_congr
  intro w _
  exact classes?_eq_some.2 ⟨w, rfl, rfl⟩

/-- A text is read as a clause exactly if it is written as one. -/
theorem clause?_eq_some {clause : Clause} : clause? cs = some clause ↔ ∃ p : Phrase, cs = p.text ∧ clause = p.clause := by
  constructor
  · intro h
    unfold clause? at h
    dsimp only at h
    split at h
    · cases h
    · rename_i first rest hrest
      obtain ⟨change, hchange, h⟩ := Option.bind_eq_some_iff.1 h
      obtain ⟨accesses, haccesses, h⟩ := Option.bind_eq_some_iff.1 h
      have hletters : cs.takeWhile (fun c => (classes? c).isSome) ∈ Set.range (List.map whoLetter) := by
        rw [Set.range_list_map]
        intro c hc
        obtain ⟨classes, hclasses⟩ := Option.isSome_iff_exists.1 (List.mem_takeWhile_imp (p := fun c => (classes? c).isSome) hc)
        obtain ⟨w, hw, -⟩ := classes?_eq_some.1 hclasses
        exact ⟨w, hw.symm⟩
      obtain ⟨who, hwho⟩ := hletters
      have hcs := List.takeWhile_append_dropWhile (p := fun c => (classes? c).isSome) (l := cs)
      rw [hrest, change?_eq_some.1 hchange, mapM_bit?.1 haccesses, ← hwho] at hcs
      rw [← hwho, filterMap_classes?, List.isEmpty_map, ← List.flatMap_def] at h
      exact ⟨⟨who, change, accesses⟩, hcs.symm, (Option.some.inj h).symm⟩
  · rintro ⟨⟨who, change, accesses⟩, rfl, rfl⟩
    have hfront : ∀ c ∈ who.map whoLetter, (classes? c).isSome = true := by
      intro c hc
      obtain ⟨w, -, rfl⟩ := List.mem_map.1 hc
      rw [classes?_eq_some.2 ⟨w, rfl, rfl⟩]
      rfl
    have hsign : ¬ (classes? (sign change)).isSome = true := by cases change <;> decide
    have htake : (Phrase.text ⟨who, change, accesses⟩).takeWhile (fun c => (classes? c).isSome) = who.map whoLetter := by
      rw [Phrase.text, List.takeWhile_append_of_pos hfront, List.takeWhile_cons_of_neg (p := fun c => (classes? c).isSome) hsign, List.append_nil]
    have hdrop : (Phrase.text ⟨who, change, accesses⟩).dropWhile (fun c => (classes? c).isSome) =
        sign change :: accesses.map Access.letter := by
      rw [Phrase.text, List.dropWhile_append_of_pos hfront, List.dropWhile_cons_of_neg (p := fun c => (classes? c).isSome) hsign]
    unfold clause?
    simp only [htake, hdrop, change?_eq_some.2 rfl, mapM_bit?.2 rfl, filterMap_classes?, List.isEmpty_map, ← List.flatMap_def]
    rfl

theorem readClause_eq_ok {piece : List Char} {clause : Clause} :
    readClause piece = .ok clause ↔ ∃ p : Phrase, Text.trimChars piece = p.text ∧ clause = p.clause := by
  rw [← clause?_eq_some]
  unfold readClause
  dsimp only
  cases clause? (Text.trimChars piece) <;> simp

/-- Pieces are read as clauses exactly if all of them are written as such. -/
theorem mapM_readClause : ∀ {pieces : List (List Char)} {list : List Clause}, pieces.mapM readClause = .ok list ↔
    ∃ phrases : List Phrase, pieces.map Text.trimChars = phrases.map Phrase.text ∧ list = phrases.map Phrase.clause
  | [], list => by
    constructor
    · rintro ⟨⟩
      exact ⟨[], rfl, rfl⟩
    · rintro ⟨phrases, hwritten, rfl⟩
      cases List.map_eq_nil_iff.1 hwritten.symm
      rfl
  | piece :: pieces, list => by
    rw [List.mapM_cons]
    constructor
    · intro h
      rcases hread : readClause piece with e | clause
      · rw [hread] at h
        cases h
      rcases hrest : pieces.mapM readClause with e | rest
      · rw [hread, hrest] at h
        cases h
      rw [hread, hrest] at h
      cases h
      obtain ⟨p, hp, rfl⟩ := readClause_eq_ok.1 hread
      obtain ⟨phrases, hphrases, rfl⟩ := mapM_readClause.1 hrest
      exact ⟨p :: phrases, by rw [List.map_cons, List.map_cons, hp, hphrases], rfl⟩
    · rintro ⟨phrases, hwritten, rfl⟩
      obtain ⟨p, rest, rfl, hp, hrest⟩ := List.map_eq_cons_iff.1 hwritten.symm
      rw [readClause_eq_ok.2 ⟨p, hp.symm, rfl⟩, mapM_readClause.2 ⟨rest, hrest.symm, rfl⟩]
      rfl

/-! ## Acting on bits -/

variable {clause : Clause} {c c' : Class} {a : Access}

theorem length_applyTo : (applyTo clause cs c).length = cs.length := by
  simp [applyTo, Access.all]

theorem getElem?_applyTo (h : cs.length = 10) : (applyTo clause cs c)[c'.start + a.place]? =
    if c' = c then some (newBit clause a (cs.getD (c'.start + a.place) '-')) else cs[c'.start + a.place]? := by
  simp only [applyTo, Access.all, List.foldl_cons, List.foldl_nil, List.getElem?_set, List.length_set, List.getD_eq_getElem?_getD]
  cases c <;> cases c' <;> cases a <;> simp [Class.start, Access.place, h]

theorem newBit_cases {old : Char} (h : old = a.letter ∨ old = '-') : newBit clause a old = a.letter ∨ newBit clause a old = '-' := by
  unfold newBit
  cases clause.change <;> cases clause.bits.contains a <;> simp [h]

theorem newBit_eq_letter {old : Char} :
    newBit clause a old = a.letter ↔ leaves (old = a.letter) (a ∈ clause.bits) clause.change := by
  have hdash : '-' ≠ a.letter := (letter_ne_dash a).symm
  unfold newBit leaves
  by_cases hmem : a ∈ clause.bits
  · cases clause.change <;> simp [hmem, hdash]
  · cases clause.change <;> simp [hmem, hdash]

/-- A change that is made twice is made once. -/
theorem leaves_leaves {old named : Prop} (change : Change) : leaves (leaves old named change) named change ↔ leaves old named change := by
  cases change with
  | add => simp [leaves]
  | remove => simp [leaves]
  | set => exact Iff.rfl

/-- Acting for one class leaves permissions in order, and the bits of the other classes as they are. -/
theorem formed_applyTo (h : Formed cs) (clause : Clause) (c : Class) : Formed (applyTo clause cs c) := by
  refine ⟨length_applyTo.trans h.length, fun c' a => ?_⟩
  rw [getElem?_applyTo h.length]
  split
  · rw [Option.some_inj, Option.some_inj]
    apply newBit_cases
    rcases h.place c' a with hletter | hdash
    · exact .inl (by rw [List.getD_eq_getElem?_getD, hletter, Option.getD_some])
    · exact .inr (by rw [List.getD_eq_getElem?_getD, hdash, Option.getD_some])
  · exact h.place c' a

theorem mem_bits_applyTo (h : Formed cs) : (c', a) ∈ bits (applyTo clause cs c) ↔
    if c' = c then leaves ((c', a) ∈ bits cs) (a ∈ clause.bits) clause.change else (c', a) ∈ bits cs := by
  rw [mem_bits (formed_applyTo h clause c).length, getElem?_applyTo h.length]
  split
  · have hold : cs.getD (c'.start + a.place) '-' = a.letter ↔ (c', a) ∈ bits cs := by
      rw [mem_bits h.length, List.getD_eq_getElem?_getD]
      rcases h.place c' a with hletter | hdash
      · simp [hletter]
      · simp [hdash, (letter_ne_dash a).symm]
    rw [Option.some_inj, newBit_eq_letter, hold]
  · rw [mem_bits h.length]

theorem head_applyTo : (applyTo clause cs c)[0]? = cs[0]? := by
  cases c <;> simp [applyTo, Access.all, Class.start]

/-- What a clause does to permissions: the flag stays, and the bits of the classes that it names change. -/
theorem applyClasses (h : Formed cs) (clause : Clause) (classes : List Class) :
    Formed (classes.foldl (applyTo clause) cs) ∧ (classes.foldl (applyTo clause) cs)[0]? = cs[0]? ∧
      ∀ c a, (c, a) ∈ bits (classes.foldl (applyTo clause) cs) ↔
        if c ∈ classes then leaves ((c, a) ∈ bits cs) (a ∈ clause.bits) clause.change else (c, a) ∈ bits cs := by
  induction classes generalizing cs with
  | nil => exact ⟨h, rfl, fun c a => by simp⟩
  | cons first rest ih =>
    obtain ⟨hformed, hhead, hbits⟩ := ih (formed_applyTo h clause first)
    refine ⟨hformed, hhead.trans head_applyTo, fun c a => ?_⟩
    rw [List.foldl_cons, hbits, mem_bits_applyTo h]
    by_cases hfirst : c = first
    · by_cases hrest : c ∈ rest <;> simp [hfirst, leaves_leaves]
    · simp [hfirst]

theorem mem_classes_clause (p : Phrase) : c ∈ p.clause.classes ↔ p.names c = true := by
  have hwho (w : Option Class) : c ∈ whoClasses w ↔ w = none ∨ w = some c := by
    cases w with
    | none => cases c <;> simp [whoClasses, Class.all]
    | some d => simp [whoClasses, eq_comm]
  unfold Phrase.clause Phrase.names
  by_cases hnone : p.who = []
  · cases c <;> simp [hnone, Class.all]
  · simp only [List.isEmpty_iff, hnone, if_false, List.mem_flatMap, hwho]
    simp [hnone, and_or_left, exists_or]

/-- Clauses act on the bits from the left to the right. -/
theorem applyPhrases (h : Formed cs) (phrases : List Phrase) :
    Formed ((phrases.map Phrase.clause).foldl applyClause cs) ∧ ((phrases.map Phrase.clause).foldl applyClause cs)[0]? = cs[0]? ∧
      bits ((phrases.map Phrase.clause).foldl applyClause cs) = phrases.foldl (fun granted p => p.act granted) (bits cs) := by
  induction phrases generalizing cs with
  | nil => exact ⟨h, rfl, rfl⟩
  | cons p rest ih =>
    rw [List.foldl_cons]
    obtain ⟨hformed, hhead, hbits⟩ := applyClasses h p.clause p.clause.classes
    have hact : bits (applyClause cs p.clause) = p.act (bits cs) := by
      ext ⟨c, a⟩
      rw [applyClause, hbits]
      simp only [mem_classes_clause]
      rfl
    obtain ⟨hformed', hhead', hbits'⟩ := ih hformed
    rw [← hact]
    exact ⟨hformed', hhead'.trans hhead, hbits'⟩

/-! ## Reading modes -/

variable {mode cur new : String} {effect : Set Bit → Set Bit} {m : Mode}

theorem literal_length {nine : List Char} (h : Literal cs nine) : cs.length = 9 ∨ cs.length = 10 := by
  have hnine : nine.length = 9 := (formed_cons_iff.1 h.1).1
  rcases h.2 with rfl | ⟨first, rfl⟩
  · exact .inl hnine
  · exact .inr (congrArg Nat.succ hnine)

/-- What is written as a list of clauses has a sign in it, and so is no number. -/
theorem octal?_of_phrases {phrases : List Phrase}
    (h : (Text.splitChars ',' cs).map Text.trimChars = phrases.map Phrase.text) : octal? cs = none := by
  by_contra hsome
  obtain ⟨nine, hnine⟩ := Option.ne_none_iff_exists'.1 hsome
  obtain ⟨digits, -, hoctal, hwritten, -⟩ := octal?_eq_some.1 hnine
  have hall : ∀ d ∈ cs, '0' ≤ d ∧ d ≤ '7' := by
    rcases hwritten with rfl | rfl
    · exact hoctal
    · exact List.forall_mem_cons.2 ⟨by decide, hoctal⟩
  obtain ⟨piece, pieces, hpieces⟩ := List.exists_cons_of_ne_nil (Text.splitChars_ne_nil ',' cs)
  rw [hpieces] at h
  obtain ⟨p, rest, -, hp, -⟩ := List.map_eq_cons_iff.1 h.symm
  have hsign : sign p.change ∈ Text.trimChars piece := by
    rw [← hp]
    exact List.mem_append_right _ List.mem_cons_self
  have hmem : sign p.change ∈ cs :=
    Text.mem_of_mem_splitChars ',' cs piece (hpieces ▸ List.mem_cons_self) ((Text.trimChars_sublist piece).mem hsign)
  have hdigit := hall _ hmem
  revert hdigit
  cases p.change <;> decide

/-- A mode that says something is understood, and acts as it says. -/
theorem parse_of_says (h : Says mode.toList effect) (hcur : Formed cur.toList) : ∃ m, parse mode = .ok m ∧
    Formed (m.apply cur).toList ∧ (m.apply cur).toList[0]? = cur.toList[0]? ∧ bits (m.apply cur).toList = effect (bits cur.toList) := by
  have hflag : cur.toList[0]? = some (typeFlag cur) := by
    obtain ⟨flag, rest, hcons⟩ := List.exists_cons_of_length_eq_add_one hcur.length
    simp [typeFlag, hcons]
  cases h with
  | @octal digits three octal written =>
    have hread : octal? mode.toList = some (digits.flatMap octalTriplet) := octal?_eq_some.2 ⟨digits, three, octal, written, rfl⟩
    obtain ⟨hformed, hbits⟩ := octal_left three (typeFlag cur)
    refine ⟨.exactly (digits.flatMap octalTriplet), by simp only [parse, hread], ?_⟩
    rw [apply, String.toList_ofList]
    exact ⟨hformed, hflag.symm, hbits⟩
  | @literal nine written =>
    have hoctal : octal? mode.toList = none := by
      by_contra hsome
      obtain ⟨_, hnine⟩ := Option.ne_none_iff_exists'.1 hsome
      obtain ⟨digits, hthree, -, hdigits, -⟩ := octal?_eq_some.1 hnine
      have hlength := literal_length written
      rcases hdigits with heq | heq <;> rw [heq] at hlength <;> simp [hthree] at hlength
    refine ⟨.exactly nine, by simp only [parse, hoctal, literal?_eq_some.2 written], ?_⟩
    rw [apply, String.toList_ofList]
    exact ⟨written.1 _, hflag.symm, bits_cons '-' _ (formed_cons_iff.1 written.1).1⟩
  | @clauses phrases other written =>
    have hliteral : literal? mode.toList = none := Option.eq_none_iff_forall_ne_some.2 fun nine hnine => other nine (literal?_eq_some.1 hnine)
    refine ⟨.clauses (phrases.map Phrase.clause), ?_, ?_⟩
    · simp only [parse, octal?_of_phrases written, hliteral, mapM_readClause.2 ⟨phrases, written, rfl⟩]
      rfl
    · have hlength : cur.length = 10 := (String.length_toList).symm.trans hcur.length
      rw [apply]
      simp only [if_pos hlength, String.toList_ofList]
      exact applyPhrases hcur phrases

/-- What is understood says something. -/
theorem says_of_parse (h : parse mode = .ok m) : ∃ effect, Says mode.toList effect := by
  unfold parse at h
  dsimp only at h
  split at h
  · rename_i bits hoctal
    obtain ⟨digits, hthree, hdigits, hwritten, -⟩ := octal?_eq_some.1 hoctal
    exact ⟨_, .octal hthree hdigits hwritten⟩
  · split at h
    · rename_i nine hliteral
      exact ⟨_, .literal (literal?_eq_some.1 hliteral)⟩
    · rename_i hliteral
      rcases hread : (Text.splitChars ',' mode.toList).mapM readClause with e | list
      · rw [hread] at h
        cases h
      · obtain ⟨phrases, hwritten, -⟩ := mapM_readClause.1 hread
        exact ⟨_, .clauses (fun nine hnine => by rw [literal?_eq_some.2 hnine] at hliteral; cases hliteral) hwritten⟩

theorem mapM_readClause_error {e : BadValue} : ∀ {pieces : List (List Char)}, pieces.mapM readClause = .error e → ∃ clause, e = .mode clause
  | [], h => by cases h
  | piece :: pieces, h => by
    rw [List.mapM_cons] at h
    rcases hread : readClause piece with e' | clause
    · rw [hread] at h
      cases h
      unfold readClause at hread
      dsimp only at hread
      split at hread <;> cases hread
      exact ⟨_, rfl⟩
    · rcases hrest : pieces.mapM readClause with e' | rest
      · rw [hread, hrest] at h
        cases h
        exact mapM_readClause_error hrest
      · rw [hread, hrest] at h
        cases h

/-- What says nothing is a bad mode. -/
theorem parse_of_not_says (h : ∀ effect, ¬ Says mode.toList effect) : ∃ clause, parse mode = .error (.mode clause) := by
  rcases hparse : parse mode with e | m
  · unfold parse at hparse
    dsimp only at hparse
    split at hparse
    · cases hparse
    · split at hparse
      · cases hparse
      · rcases hread : (Text.splitChars ',' mode.toList).mapM readClause with e' | list
        · rw [hread] at hparse
          cases hparse
          obtain ⟨clause, rfl⟩ := mapM_readClause_error hread
          exact ⟨clause, rfl⟩
        · rw [hread] at hparse
          cases hparse
  · obtain ⟨effect, hsays⟩ := says_of_parse hparse
    exact absurd hsays (h effect)

/-! ## Changing permissions -/

theorem changeMode_of_parse (hm : parse mode = .ok m) (hne : cur ≠ "") : changeMode mode (.str cur) = .ok (m.apply cur) := by
  have htruthy : (Json.str cur).truthy = true := bne_iff_ne.2 hne
  cases m with
  | exactly nine => simp only [changeMode, hm, if_pos htruthy, Json.asText, Except.map]
  | clauses list => simp only [changeMode, hm]

theorem changeMode_of_bad {clause : String} (hm : parse mode = .error (.mode clause)) (current : Json) :
    ∃ e, changeMode mode current = .error e := by
  unfold changeMode
  rw [hm]
  cases current <;> exact ⟨_, rfl⟩

/-- Nothing is granted, and nothing taken for done, where the mode is bad. -/
theorem chmod_of_bad {s s' : Machine} {path clause : String} {user? : Option Json} {r : Except Fault Bool}
    (hm : parse mode = .error (.mode clause)) (hrun : (Machine.chmod path mode user?).run s = (r, s')) :
    s'.tree = s.tree ∧ r ≠ .ok true := by
  have hverdict : ∀ v, Machine.chmodVerdict path mode user? s = .ok v → v = .refused ∨ ∃ what, v = .denied what user? := by
    intro v hv
    unfold Machine.chmodVerdict at hv
    obtain ⟨found?, -, hv⟩ := bind_ok.1 hv
    split at hv
    · exact .inl (Except.ok.inj hv).symm
    · rename_i n
      dsimp only at hv
      split at hv
      · obtain ⟨place, -, hv⟩ := bind_ok.1 hv
        exact .inr ⟨_, (Except.ok.inj hv).symm⟩
      · obtain ⟨e, he⟩ := changeMode_of_bad hm n.permissions
        rw [he] at hv
        split at hv
        · exact .inl (Except.ok.inj hv).symm
        · cases hv
        · rename_i hok
          cases hok
  have hno : ∀ plan, Machine.chmodVerdict path mode user? s ≠ .ok (.granted plan) := by
    intro plan hplan
    rcases hverdict _ hplan with h | ⟨what, h⟩ <;> cases h
  obtain ⟨haside, hyes⟩ := Machine.decide_idle hno hrun
  refine ⟨haside.tree, fun hr => ?_⟩
  rcases hverdict _ (hyes hr) with h | ⟨what, h⟩ <;> cases h

theorem typeFlag_of_head (h : new.toList[0]? = cur.toList[0]?) : typeFlag new = typeFlag cur := by
  unfold typeFlag
  rw [List.head?_eq_getElem?, List.head?_eq_getElem?, h]

/-- The mode language: of permissions in order a mode that says something leaves what it says, in order and with the flag
that was there; any other is refused as a bad mode, and the permissions of no node are changed by it. -/
theorem changeMode_exact (hcur : Formed cur.toList) (mode : String) :
    (∀ effect, Says mode.toList effect → ∃ new, changeMode mode (.str cur) = .ok new ∧ Formed new.toList ∧
      typeFlag new = typeFlag cur ∧ bits new.toList = effect (bits cur.toList)) ∧
    ((∀ effect, ¬ Says mode.toList effect) →
      (∃ clause, changeMode mode (.str cur) = .error (.badValue (.mode clause))) ∧
      ∀ {s s' : Machine} {path : String} {user? : Option Json} {r : Except Fault Bool},
        (Machine.chmod path mode user?).run s = (r, s') → s'.tree = s.tree ∧ r ≠ .ok true) := by
  constructor
  · intro effect hsays
    have hne : cur ≠ "" := by
      rintro rfl
      cases hcur.length
    obtain ⟨m, hm, hformed, hhead, hbits⟩ := parse_of_says hsays hcur
    exact ⟨m.apply cur, changeMode_of_parse hm hne, hformed, typeFlag_of_head hhead, hbits⟩
  · intro hnot
    obtain ⟨clause, hm⟩ := parse_of_not_says hnot
    refine ⟨⟨clause, ?_⟩, fun hrun => chmod_of_bad hm hrun⟩
    simp only [changeMode, hm]

theorem formed_file : Formed filePermissions.toList := ⟨by decide, fun c a => by cases c <;> cases a <;> decide⟩

/-- The owner may execute what nobody else may use any more. -/
theorem changeMode_exact_file : Formed filePermissions.toList ∧
    Says "u+x,go=".toList (fun granted => [⟨[some .owner], .add, [.execute]⟩, ⟨[some .group, some .other], .set, []⟩].foldl
      (fun granted p => Phrase.act p granted) granted) ∧
    (∃ new, changeMode "u+x,go=" (.str filePermissions) = .ok new ∧ Formed new.toList ∧ typeFlag new = typeFlag filePermissions ∧
      bits new.toList = [⟨[some .owner], .add, [.execute]⟩, ⟨[some .group, some .other], .set, []⟩].foldl
        (fun granted p => Phrase.act p granted) (bits filePermissions.toList)) ∧
    (∀ effect, ¬ Says "u+x,u*x".toList effect) ∧
    ∃ clause, changeMode "u+x,u*x" (.str filePermissions) = .error (.badValue (.mode clause)) := by
  have hother : ∀ nine, ¬ Literal "u+x,go=".toList nine := by
    intro nine hnine
    have hlength := literal_length hnine
    revert hlength
    decide
  have hsays : Says "u+x,go=".toList _ :=
    @Says.clauses _ [⟨[some .owner], .add, [.execute]⟩, ⟨[some .group, some .other], .set, []⟩] hother (by decide)
  have hnot : ∀ effect, ¬ Says "u+x,u*x".toList effect := by
    intro effect hsays
    obtain ⟨m, hm, -⟩ := parse_of_says hsays formed_file
    have hbad : parse "u+x,u*x" = .error (.mode "u*x") := by decide
    rw [hbad] at hm
    cases hm
  exact ⟨formed_file, hsays, (changeMode_exact formed_file "u+x,go=").1 _ hsays, hnot,
    ((changeMode_exact formed_file "u+x,u*x").2 hnot).1⟩

end Mode

end SimUnix
