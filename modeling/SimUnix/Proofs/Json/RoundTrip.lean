/-
The written form of a stored value can be read in one way only: what is read from it is the value
again, each record with its fields put into a table one after the other. Reading may still give up
where a value is nested too deeply or a number is too long, so that all is said of what is read.
-/
import SimUnix.Json.Parser
import SimUnix.Json.Printer
import SimUnix.Proofs.Action
import Mathlib.Tactic.IntervalCases

namespace SimUnix.Json

open Text (Reading hexDigit hexDigits)

variable {fuel depth level : Nat} {cs rest : List Char}

/-! ## Characters -/

theorem hexValue_hexDigit : ∀ d < 16, hexValue? (hexDigit d) = some d := by decide

/-- The four digits of a unit are read back. -/
theorem readUnit_hexDigits {n : Nat} (hn : n < 65536) : readUnit (hexDigits 4 n ++ rest) = some (n, rest) := by
  have hdigits : hexDigits 4 n ++ rest = hexDigit (n / 16 / 16 / 16 % 16) :: hexDigit (n / 16 / 16 % 16) ::
      hexDigit (n / 16 % 16) :: hexDigit (n % 16) :: rest := rfl
  have hvalue : ∀ k, hexValue? (hexDigit (k % 16)) = some (k % 16) :=
    fun k => hexValue_hexDigit _ (Nat.mod_lt _ (by decide))
  rw [hdigits]
  simp only [readUnit, hvalue, Option.bind_eq_bind, Option.bind_some, Option.some.injEq, Prod.mk.injEq, and_true]
  omega

/-- No character is half of a pair. -/
theorem toNat_not_half (c : Char) : ¬ (0xD800 ≤ c.toNat ∧ c.toNat < 0xDC00) := by
  have hvalid := c.valid
  have heq : c.toNat = c.val.toNat := rfl
  rcases hvalid with h | ⟨h, -⟩ <;> omega

theorem readEscapedUnits_single {c : Char} (hc : c.toNat < 0x10000) :
    readEscapedUnits (hexDigits 4 c.toNat ++ rest) = some (c, rest) := by
  unfold readEscapedUnits
  rw [readUnit_hexDigits hc]
  have hhalf := toNat_not_half c
  have hself : Char.ofNat c.toNat = c := Char.ofNat_toNat c
  simp only [Option.bind_eq_bind, Option.bind_some]
  split
  · split
    · rw [if_neg (fun h => hhalf ⟨h.1, h.2.1⟩), hself]
    · rw [hself]
  · rw [hself]

/-- The two halves of a pair make up its number. -/
theorem pair_halves {n : Nat} (hlo : 0x10000 ≤ n) (hhi : n < 0x110000) :
    ∃ high low, 0xD800 + (n - 0x10000) / 0x400 = high ∧ 0xDC00 + (n - 0x10000) % 0x400 = low ∧
      0xD800 ≤ high ∧ high < 0xDC00 ∧ 0xDC00 ≤ low ∧ low < 0xE000 ∧
        0x10000 + (high - 0xD800) * 0x400 + (low - 0xDC00) = n :=
  ⟨_, _, rfl, rfl, by omega, by omega, by omega, by omega, by omega⟩

theorem readEscapedUnits_pair {c : Char} (hc : 0x10000 ≤ c.toNat) :
    readEscapedUnits (hexDigits 4 (0xD800 + (c.toNat - 0x10000) / 0x400) ++
      unitEscape (0xDC00 + (c.toNat - 0x10000) % 0x400) ++ rest) = some (c, rest) := by
  have hmax : c.toNat < 0x110000 := by
    have hvalid := c.valid
    have heq : c.toNat = c.val.toNat := rfl
    rcases hvalid with h | ⟨-, h⟩ <;> omega
  obtain ⟨high, low, hh, hl, hh₁, hh₂, hl₁, hl₂, hnum⟩ := pair_halves hc hmax
  rw [hh, hl]
  unfold readEscapedUnits unitEscape
  rw [List.append_assoc, readUnit_hexDigits (Nat.lt_trans hh₂ (by decide))]
  simp only [Option.bind_eq_bind, Option.bind_some, List.cons_append,
    readUnit_hexDigits (Nat.lt_trans hl₂ (by decide))]
  rw [if_pos ⟨hh₁, hh₂, hl₁, hl₂⟩, hnum, Char.ofNat_toNat]

/-- The written form of a character is read as that character. -/
theorem readText_escape {c : Char} : readText (fuel + 1) (escape c ++ cs) =
    (readText fuel cs).bind fun r => some (c :: r.1, r.2) := by
  have hof : ∀ n, c.toNat = n → c = Char.ofNat n := by
    rintro n rfl
    exact (Char.ofNat_toNat c).symm
  unfold escape
  split
  · subst c; rfl
  split
  · subst c; rfl
  split
  · subst c; rfl
  split
  · subst c; rfl
  split
  · subst c; rfl
  split
  · rename_i h
    rw [hof 8 h]
    rfl
  split
  · rename_i h
    rw [hof 12 h]
    rfl
  split
  · rename_i hquote hslash _ _ _ _ _ hplain
    show readText (fuel + 1) (c :: cs) = _
    have hctrl : ¬ c.toNat < 32 := by omega
    rw [readText.eq_def]
    simp only [hquote, hslash, hctrl, if_false]
    rfl
  split
  · rename_i hsmall
    show readText (fuel + 1) ('\\' :: 'u' :: (hexDigits 4 c.toNat ++ cs)) = _
    simp only [readText, readEscapedUnits_single hsmall, Option.bind_eq_bind, Option.bind_some]
    rw [if_neg (by decide), if_pos ⟨⟩]
  · rename_i hlarge
    show readText (fuel + 1) ('\\' :: 'u' :: (hexDigits 4 (0xD800 + (c.toNat - 0x10000) / 0x400) ++
      unitEscape (0xDC00 + (c.toNat - 0x10000) % 0x400) ++ cs)) = _
    simp only [readText, readEscapedUnits_pair (Nat.le_of_not_lt hlarge), Option.bind_eq_bind, Option.bind_some]
    rw [if_neg (by decide), if_pos ⟨⟩]

/-- What is read from the inside of a written text is the text. -/
theorem readText_write : ∀ {fuel : Nat} {s : List Char} {r : List Char × List Char},
    readText fuel (s.flatMap escape ++ '"' :: rest) = some r → r = (s, rest)
  | 0, s, r, h => by
    unfold readText at h
    cases h
  | fuel + 1, [], r, h => by
    cases h
    rfl
  | fuel + 1, c :: s, r, h => by
    rw [List.flatMap_cons, List.append_assoc, readText_escape] at h
    obtain ⟨q, hq, h⟩ := Option.bind_eq_some_iff.1 h
    cases readText_write hq
    cases h
    rfl

/-! ## Numbers -/

theorem reading_bind {α β : Type} {x : Reading α} {f : α → Reading β} {r : β} :
    (x >>= f).run = .ok (some r) ↔ ∃ a, x.run = .ok (some a) ∧ (f a).run = .ok (some r) := by
  rw [OptionT.run_bind, Option.elimM, bind_ok]
  constructor
  · rintro ⟨a?, ha, h⟩
    cases a? with
    | none => cases h
    | some a => exact ⟨a, ha, h⟩
  · rintro ⟨a, ha, h⟩
    exact ⟨some a, ha, h⟩

/-- What may follow a number: nothing that goes on with it. -/
def Closes (rest : List Char) : Prop := rest.head?.all fun c => !isAsciiDigit c

/-- The digits of a number that is not zero do not start with a zero. -/
theorem toDigits_head (n : Nat) (hn : 0 < n) : ∃ d ds, Nat.toDigits 10 n = d :: ds ∧ d ≠ '0' := by
  by_cases hlt : n < 10
  · refine ⟨n.digitChar, [], Nat.toDigits_of_lt_base hlt, ?_⟩
    interval_cases n <;> decide
  · obtain ⟨d, ds, hds, hne⟩ := toDigits_head (n / 10) (by omega)
    exact ⟨d, ds ++ [(n % 10).digitChar], by rw [Nat.toDigits_of_base_le (by decide) (by omega), hds]; rfl, hne⟩

theorem digitsValue_toDigits (n : Nat) : digitsValue (Nat.toDigits 10 n) = n := by
  have h := Nat.ofDigitChars_ten_toDigits (n := n)
  rw [Nat.ofDigitChars_eq_foldl] at h
  exact h

theorem takeWhile_digits {ds : List Char} (hd : ∀ c ∈ ds, isAsciiDigit c = true) (hr : Closes rest) :
    (ds ++ rest).takeWhile isAsciiDigit = ds ∧ (ds ++ rest).dropWhile isAsciiDigit = rest := by
  induction ds with
  | nil =>
    cases rest with
    | nil => exact ⟨rfl, rfl⟩
    | cons c cs =>
      have hc : isAsciiDigit c = false := by simpa [Closes] using hr
      simp [hc]
  | cons d ds ih =>
    obtain ⟨ht, hdrop⟩ := ih fun c hc => hd c (List.mem_cons_of_mem _ hc)
    have hdigit := hd d (List.mem_cons_self ..)
    simp [hdigit, ht, hdrop]

theorem readNat_write {n : Nat} {r : Nat × List Char} (hr : Closes rest)
    (h : (readNat (Nat.toDigits 10 n ++ rest)).run = .ok (some r)) : r = (n, rest) := by
  rcases Nat.eq_zero_or_pos n with rfl | hn
  · rw [Nat.toDigits_zero] at h
    cases h
    rfl
  · obtain ⟨d, ds, hds, hne⟩ := toDigits_head n hn
    have hall : ∀ c ∈ Nat.toDigits 10 n, isAsciiDigit c = true := fun c hc =>
      Nat.isDigit_of_mem_toDigits (by decide) (by decide) hc
    obtain ⟨htake, hdrop⟩ := takeWhile_digits hall hr
    have hvalue := digitsValue_toDigits n
    rw [hds] at h htake hdrop hvalue
    rw [readNat.eq_def] at h
    split at h
    · rename_i heq
      cases heq
      exact absurd rfl hne
    · rw [htake, hdrop] at h
      simp only at h
      split at h
      · cases h
      · rw [hvalue] at h
        cases h
        rfl

theorem readInt_write {n : Int} {r : Int × List Char} (hr : Closes rest)
    (h : (readInt ((toString n).toList ++ rest)).run = .ok (some r)) : r = (n, rest) := by
  cases n with
  | ofNat m =>
    have htext : (toString (Int.ofNat m)).toList = Nat.toDigits 10 m := Nat.toList_repr
    have hsign : ∀ cs, Nat.toDigits 10 m ++ rest ≠ '-' :: cs := by
      intro cs he
      obtain ⟨d, ds, hds⟩ := List.exists_cons_of_ne_nil (Nat.toDigits_ne_nil (n := m) (b := 10))
      have hd : isAsciiDigit d = true :=
        Nat.isDigit_of_mem_toDigits (b := 10) (n := m) (by decide) (by decide) (by rw [hds]; exact List.mem_cons_self ..)
      rw [hds] at he
      cases he
      cases hd
    rw [htext, readInt.eq_def] at h
    split at h
    · rename_i heq
      exact absurd heq (hsign _)
    · obtain ⟨q, hq, h⟩ := reading_bind.1 h
      cases readNat_write hr hq
      cases h
      rfl
  | negSucc m =>
    have htext : (toString (Int.negSucc m)).toList = '-' :: Nat.toDigits 10 (m + 1) := by
      show ("-" ++ (m + 1).repr).toList = _
      rw [String.toList_append, Nat.toList_repr]
      rfl
    rw [htext] at h
    obtain ⟨q, hq, h⟩ := reading_bind.1 h
    cases readNat_write hr hq
    cases h
    rfl

/-! ## Values -/

mutual
/-- A value with the fields of each record put into a table one after the other. -/
def normal : Json → Json
  | arr xs => arr (normalItems xs)
  | obj fs => obj (normalFields [] fs)
  | v => v

/-- The items of a list, each normal. -/
def normalItems : List Json → List Json
  | [] => []
  | x :: xs => x.normal :: normalItems xs

/-- A table after some more fields have been put into it. -/
def normalFields (read : Keyed String Json) : List (String × Json) → Keyed String Json
  | [] => read
  | (k, x) :: fs => normalFields (read.put k x.normal) fs
end

/-- A written value starts with no space and with no closing bracket. -/
theorem write_head (level : Nat) (v : Json) : ∃ c cs, write level v = c :: cs ∧ isSpace c = false ∧ c ≠ ']' ∧ c ≠ '\x7d' := by
  cases v with
  | null => exact ⟨'n', _, rfl, rfl, by decide, by decide⟩
  | bool b => cases b <;> exact ⟨_, _, rfl, rfl, by decide, by decide⟩
  | int n =>
    have hdigits : ∀ m : Nat, ∃ d ds, Nat.toDigits 10 m = d :: ds ∧ isSpace d = false ∧ d ≠ ']' ∧ d ≠ '\x7d' := by
      intro m
      obtain ⟨d, ds, hds⟩ := List.exists_cons_of_ne_nil (Nat.toDigits_ne_nil (n := m) (b := 10))
      have hd : d.isDigit = true :=
        Nat.isDigit_of_mem_toDigits (b := 10) (n := m) (by decide) (by decide) (by rw [hds]; exact List.mem_cons_self ..)
      refine ⟨d, ds, hds, ?_, ?_, ?_⟩
      · by_contra hs
        simp only [isSpace, Bool.not_eq_false, Bool.or_eq_true, beq_iff_eq] at hs
        rcases hs with ((rfl | rfl) | rfl) | rfl <;> cases hd
      · rintro rfl
        cases hd
      · rintro rfl
        cases hd
    cases n with
    | ofNat m =>
      obtain ⟨d, ds, hds, hrest⟩ := hdigits m
      exact ⟨d, ds, (Nat.toList_repr : (toString (Int.ofNat m)).toList = _).trans hds, hrest⟩
    | negSucc m =>
      refine ⟨'-', (m + 1).repr.toList, ?_, rfl, by decide, by decide⟩
      show ("-" ++ (m + 1).repr).toList = _
      rw [String.toList_append]
      rfl
  | str s => exact ⟨'"', _, rfl, rfl, by decide, by decide⟩
  | arr xs => cases xs <;> exact ⟨'[', _, rfl, rfl, by decide, by decide⟩
  | obj fs => rcases fs with _ | ⟨⟨k, x⟩, fs⟩ <;> exact ⟨'\x7b', _, rfl, rfl, by decide, by decide⟩

theorem skipSpace_newLine (level : Nat) : skipSpace (newLine level ++ cs) = skipSpace cs := by
  have hblanks : ∀ n, skipSpace (List.replicate n ' ' ++ cs) = skipSpace cs := by
    intro n
    induction n with
    | zero => rfl
    | succ n ih => exact ih
  exact hblanks (2 * level)

theorem skipSpace_write (level : Nat) (v : Json) (cs : List Char) : skipSpace (write level v ++ cs) = write level v ++ cs := by
  obtain ⟨c, cs', hv, hs, -⟩ := write_head level v
  rw [hv]
  show (c :: (cs' ++ cs)).dropWhile isSpace = _
  rw [List.dropWhile_cons, hs]
  rfl

theorem closes_writeItems {l : Nat} {xs : List Json} : Closes (writeItems level xs ++ (newLine l ++ cs)) := by
  cases xs <;> rfl

theorem closes_writeFields {l : Nat} {fs : List (String × Json)} :
    Closes (writeFields level fs ++ (newLine l ++ cs)) := by
  rcases fs with _ | ⟨⟨k, x⟩, fs⟩ <;> rfl

theorem write_arr {x : Json} {xs : List Json} : write level (.arr (x :: xs)) ++ rest =
    '[' :: (newLine (level + 1) ++ (write (level + 1) x ++
      (writeItems (level + 1) xs ++ (newLine level ++ ']' :: rest)))) := by
  rw [write]
  simp only [List.append_assoc, List.cons_append, List.nil_append]

theorem write_obj {k : String} {x : Json} {fs : List (String × Json)} : write level (.obj ((k, x) :: fs)) ++ rest =
    '\x7b' :: (newLine (level + 1) ++ (writeText k ++ ':' :: ' ' :: (write (level + 1) x ++
      (writeFields (level + 1) fs ++ (newLine level ++ '\x7d' :: rest))))) := by
  rw [write]
  simp only [List.append_assoc, List.cons_append, List.nil_append]

theorem writeText_append {s : String} : writeText s ++ rest = '"' :: (s.toList.flatMap escape ++ '"' :: rest) := by
  unfold writeText
  simp only [List.append_assoc, List.cons_append, List.nil_append]

theorem run_ofOption {α : Type} {result? : Option α} {r : α} (h : (Reading.ofOption result?).run = .ok (some r)) :
    result? = some r := Except.ok.inj h

theorem readConstant_write {word : String} {value : Json} {r : Json × List Char}
    (h : (readConstant word value (word.toList ++ rest)).run = .ok (some r)) : r = (value, rest) := by
  have hword : readWord word.toList (word.toList ++ rest) = some rest := by
    unfold readWord
    rw [if_pos (List.isPrefixOf_iff_prefix.2 (List.prefix_append ..)), List.drop_left]
  have hr := run_ofOption h
  rw [hword] at hr
  cases hr
  rfl

theorem readValue_quote : readValue (fuel + 1) depth ('"' :: cs) =
    Reading.ofOption (readText (cs.length + 1) cs) >>= fun r => pure (.str (String.ofList r.1), r.2) := rfl

theorem readValue_array : readValue (fuel + 1) (depth + 1) ('[' :: cs) =
    match skipSpace cs with
    | ']' :: tail => (pure (.arr [], tail) : Reading (Json × List Char))
    | rest => readItems fuel depth rest >>= fun r => pure (.arr r.1, r.2) := rfl

theorem readValue_object : readValue (fuel + 1) (depth + 1) ('\x7b' :: cs) =
    match skipSpace cs with
    | '\x7d' :: tail => (pure (.obj [], tail) : Reading (Json × List Char))
    | rest => readFields fuel depth [] rest >>= fun r => pure (.obj r.1, r.2) := rfl

theorem readValue_bracket {c : Char} (hs : skipSpace cs = c :: rest) (hc : c ≠ ']') :
    readValue (fuel + 1) (depth + 1) ('[' :: cs) =
      readItems fuel depth (c :: rest) >>= fun r => pure (.arr r.1, r.2) := by
  rw [readValue_array, hs]
  split
  · rename_i heq
    cases heq
    exact absurd rfl hc
  · rfl

theorem readValue_brace {c : Char} (hs : skipSpace cs = c :: rest) (hc : c ≠ '\x7d') :
    readValue (fuel + 1) (depth + 1) ('\x7b' :: cs) =
      readFields fuel depth [] (c :: rest) >>= fun r => pure (.obj r.1, r.2) := by
  rw [readValue_object, hs]
  split
  · rename_i heq
    cases heq
    exact absurd rfl hc
  · rfl

theorem readItems_succ : readItems (fuel + 1) depth cs = readValue fuel depth cs >>= fun r =>
    match skipSpace r.2 with
    | ']' :: tail => pure ([r.1], tail)
    | ',' :: rest => readItems fuel depth (skipSpace rest) >>= fun q => pure (r.1 :: q.1, q.2)
    | _ => failure :=
  (readItems.eq_def ..).trans rfl

theorem readFields_quote {read : List (String × Json)} : readFields (fuel + 1) depth read ('"' :: cs) =
    Reading.ofOption (readText (cs.length + 1) cs) >>= fun k =>
      match skipSpace k.2 with
      | ':' :: rest => readValue fuel depth (skipSpace rest) >>= fun r =>
        match skipSpace r.2 with
        | '\x7d' :: tail => pure (Keyed.put read (String.ofList k.1) r.1, tail)
        | ',' :: rest => readFields fuel depth (Keyed.put read (String.ofList k.1) r.1) (skipSpace rest)
        | _ => failure
      | _ => failure :=
  (readFields.eq_def ..).trans rfl

theorem readValue_number {c : Char} (hc : c = '-' ∨ c.isDigit = true) :
    readValue (fuel + 1) depth (c :: cs) = readInt (c :: cs) >>= fun r => pure (.int r.1, r.2) := by
  have hother : c ≠ '"' ∧ ¬ (c = '[' ∨ c = '\x7b') ∧ c ≠ 'n' ∧ c ≠ 't' ∧ c ≠ 'f' := by
    refine ⟨?_, ?_, ?_, ?_, ?_⟩
    · rintro rfl; rcases hc with h | h <;> cases h
    · rintro (rfl | rfl) <;> rcases hc with h | h <;> cases h
    · rintro rfl; rcases hc with h | h <;> cases h
    · rintro rfl; rcases hc with h | h <;> cases h
    · rintro rfl; rcases hc with h | h <;> cases h
  obtain ⟨hquote, hopen, hn, ht, hf⟩ := hother
  rw [readValue.eq_def]
  simp only [hquote, hopen, hn, ht, hf, if_false]

theorem toString_head (n : Int) : ∃ c cs, (toString n).toList = c :: cs ∧ (c = '-' ∨ c.isDigit = true) := by
  cases n with
  | ofNat m =>
    obtain ⟨d, ds, hds⟩ := List.exists_cons_of_ne_nil (Nat.toDigits_ne_nil (n := m) (b := 10))
    refine ⟨d, ds, (Nat.toList_repr : (toString (Int.ofNat m)).toList = _).trans hds, .inr ?_⟩
    exact Nat.isDigit_of_mem_toDigits (b := 10) (n := m) (by decide) (by decide) (by rw [hds]; exact List.mem_cons_self ..)
  | negSucc m =>
    refine ⟨'-', (m + 1).repr.toList, ?_, .inl rfl⟩
    show ("-" ++ (m + 1).repr).toList = _
    rw [String.toList_append]
    rfl

-- The induction is on the fuel, which every part of a value has less of than the value.
mutual
/-- What is read from a written value is the value. -/
theorem readValue_write : ∀ {fuel depth level : Nat} {v : Json} {rest : List Char} {r : Json × List Char},
    Closes rest → (readValue fuel depth (write level v ++ rest)).run = .ok (some r) → r = (v.normal, rest)
  | 0, depth, level, v, rest, r, _, h => by
    rw [readValue] at h
    cases h
  | fuel + 1, depth, level, .null, rest, r, _, h => readConstant_write h
  | fuel + 1, depth, level, .bool true, rest, r, _, h => readConstant_write h
  | fuel + 1, depth, level, .bool false, rest, r, _, h => readConstant_write h
  | fuel + 1, depth, level, .int n, rest, r, hr, h => by
    obtain ⟨c, cs, hcs, hc⟩ := toString_head n
    rw [write, hcs, List.cons_append, readValue_number hc, ← List.cons_append, ← hcs] at h
    obtain ⟨q, hq, h⟩ := reading_bind.1 h
    cases readInt_write hr hq
    cases h
    rfl
  | fuel + 1, depth, level, .str s, rest, r, _, h => by
    rw [write, writeText_append, readValue_quote] at h
    obtain ⟨q, hq, h⟩ := reading_bind.1 h
    cases readText_write (run_ofOption hq)
    cases h
    rw [String.ofList_toList]
    rfl
  | fuel + 1, 0, level, .arr [], rest, r, _, h => by cases h
  | fuel + 1, depth + 1, level, .arr [], rest, r, _, h => by
    cases h
    rfl
  | fuel + 1, 0, level, .arr (x :: xs), rest, r, _, h => by
    rw [write_arr] at h
    cases h
  | fuel + 1, depth + 1, level, .arr (x :: xs), rest, r, hr, h => by
    obtain ⟨c, cs, hx, -, hc, -⟩ := write_head (level + 1) x
    have hskip := skipSpace_write (level + 1) x (writeItems (level + 1) xs ++ (newLine level ++ ']' :: rest))
    rw [← skipSpace_newLine (level + 1), hx, List.cons_append] at hskip
    rw [write_arr, hx, List.cons_append, readValue_bracket hskip hc, ← List.cons_append, ← hx] at h
    obtain ⟨q, hq, h⟩ := reading_bind.1 h
    cases readItems_write hq
    cases h
    rfl
  | fuel + 1, 0, level, .obj [], rest, r, _, h => by cases h
  | fuel + 1, depth + 1, level, .obj [], rest, r, _, h => by
    cases h
    rfl
  | fuel + 1, 0, level, .obj ((k, x) :: fs), rest, r, _, h => by
    rw [write_obj] at h
    cases h
  | fuel + 1, depth + 1, level, .obj ((k, x) :: fs), rest, r, hr, h => by
    rw [write_obj, writeText_append] at h
    rw [readValue_brace ((skipSpace_newLine _).trans rfl) (by decide)] at h
    obtain ⟨q, hq, h⟩ := reading_bind.1 h
    cases readFields_write hq
    cases h
    rfl

theorem readItems_write : ∀ {fuel depth level l : Nat} {x : Json} {xs : List Json} {rest : List Char}
    {r : List Json × List Char},
    (readItems fuel depth (write level x ++ (writeItems level xs ++ (newLine l ++ ']' :: rest)))).run = .ok (some r) →
      r = (normalItems (x :: xs), rest)
  | 0, depth, level, l, x, xs, rest, r, h => by
    rw [readItems] at h
    cases h
  | fuel + 1, depth, level, l, x, xs, rest, r, h => by
    rw [readItems_succ] at h
    obtain ⟨q, hq, h⟩ := reading_bind.1 h
    cases readValue_write closes_writeItems hq
    cases xs with
    | nil =>
      rw [writeItems, List.nil_append, skipSpace_newLine] at h
      cases h
      rfl
    | cons y ys =>
      rw [writeItems] at h
      simp only [List.append_assoc, List.cons_append] at h
      have hcomma : ∀ cs : List Char, skipSpace (',' :: cs) = ',' :: cs := fun _ => rfl
      rw [hcomma] at h
      simp only [skipSpace_newLine, skipSpace_write] at h
      obtain ⟨p, hp, h⟩ := reading_bind.1 h
      cases readItems_write hp
      cases h
      rfl

theorem readFields_write : ∀ {fuel depth level l : Nat} {k : String} {x : Json} {read fs : List (String × Json)}
    {rest : List Char} {r : List (String × Json) × List Char},
    (readFields fuel depth read ('"' :: (k.toList.flatMap escape ++ '"' :: ':' :: ' ' :: (write level x ++
      (writeFields level fs ++ (newLine l ++ '\x7d' :: rest)))))).run = .ok (some r) →
      r = (normalFields read ((k, x) :: fs), rest)
  | 0, depth, level, l, k, x, read, fs, rest, r, h => by
    rw [readFields] at h
    cases h
  | fuel + 1, depth, level, l, k, x, read, fs, rest, r, h => by
    rw [readFields_quote] at h
    obtain ⟨p, hp, h⟩ := reading_bind.1 h
    cases readText_write (run_ofOption hp)
    have hcolon : ∀ cs : List Char, skipSpace (':' :: cs) = ':' :: cs := fun _ => rfl
    have hblank : skipSpace (' ' :: (write level x ++ (writeFields level fs ++ (newLine l ++ '\x7d' :: rest)))) = _ :=
      skipSpace_write level x _
    simp only [hcolon, hblank] at h
    obtain ⟨q, hq, h⟩ := reading_bind.1 h
    cases readValue_write closes_writeFields hq
    rw [String.ofList_toList] at h
    rcases fs with _ | ⟨⟨k', y⟩, fs⟩
    · rw [writeFields, List.nil_append, skipSpace_newLine] at h
      cases h
      rfl
    · rw [writeFields] at h
      simp only [List.append_assoc, List.cons_append] at h
      have hcomma : ∀ cs : List Char, skipSpace (',' :: cs) = ',' :: cs := fun _ => rfl
      have hquote : ∀ cs : List Char, skipSpace ('"' :: cs) = '"' :: cs := fun _ => rfl
      rw [hcomma] at h
      simp only [skipSpace_newLine, writeText_append, hquote] at h
      cases readFields_write h
      rfl
end

/-- What is read from the text of a value is the value. -/
theorem parse_toText {v v' : Json} (h : parse v.toText = .ok (some v')) : v' = v.normal := by
  have hskip : skipSpace (write 0 v) = write 0 v := by
    simpa using skipSpace_write 0 v []
  unfold parse toText Reading.whole? at h
  simp only [String.toList_ofList, hskip] at h
  rcases hread : (readValue (2 * (write 0 v).length + 1) maxDepth (write 0 v)).run with e | r?
  · rw [hread] at h
    cases h
  · rw [hread] at h
    have hmap := Except.ok.inj h
    obtain ⟨r, hfilter, rfl⟩ := Option.map_eq_some_iff.1 hmap
    obtain ⟨rfl, -⟩ := Option.filter_eq_some_iff.1 hfilter
    rw [← List.append_nil (write 0 v)] at hread
    rw [readValue_write (by rfl) hread]

end SimUnix.Json
