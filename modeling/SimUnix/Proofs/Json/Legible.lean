/-
Which values can be read back from their text. Reading gives up on values that are nested too deeply and
on numbers that are too long; every other text that was written for a value is read to its end.
-/
import SimUnix.Proofs.Tree.Record

namespace SimUnix.Json

open Text (Reading)

variable {fuel depth level : Nat} {cs rest : List Char}

/-- A number that reading does not find too long. -/
def Short (n : Int) : Prop := (Nat.toDigits 10 n.natAbs).length ≤ Text.maxDigits

/-- A value that is nested in at most so many levels, with no number that is too long. -/
def Fits : Nat → Json → Prop
  | _, .null | _, .bool _ | _, .str _ => True
  | _, .int n => Short n
  | 0, .arr _ | 0, .obj _ => False
  | depth + 1, .arr xs => ∀ x ∈ xs, Fits depth x
  | depth + 1, .obj fs => ∀ f ∈ fs, Fits depth f.2

/-! ## Texts and numbers -/

theorem length_escape_pos (c : Char) : 0 < (escape c).length := by
  unfold escape unitEscape
  split_ifs <;> simp

theorem length_le_escaped : ∀ s : List Char, s.length ≤ (s.flatMap escape).length
  | [] => Nat.le_refl _
  | c :: s => by
    have hc := length_escape_pos c
    have hs := length_le_escaped s
    rw [List.flatMap_cons, List.length_append, List.length_cons]
    omega

theorem readText_total : ∀ {fuel : Nat} {s : List Char}, s.length < fuel →
    ∃ r, readText fuel (s.flatMap escape ++ '"' :: rest) = some r
  | fuel + 1, [], _ => ⟨_, rfl⟩
  | fuel + 1, c :: s, h => by
    obtain ⟨r, hr⟩ := readText_total (s := s) (by simpa using h)
    rw [List.flatMap_cons, List.append_assoc, readText_escape, hr]
    exact ⟨_, rfl⟩

/-- The inside of a written text is read back. -/
theorem readText_written {s : List Char} (h : (s.flatMap escape ++ '"' :: rest).length < fuel) :
    readText fuel (s.flatMap escape ++ '"' :: rest) = some (s, rest) := by
  have hlen := length_le_escaped s
  rw [List.length_append, List.length_cons] at h
  obtain ⟨r, hr⟩ : ∃ r, readText fuel (s.flatMap escape ++ '"' :: rest) = some r := readText_total (by omega)
  rw [hr, readText_write hr]

theorem readNat_total {n : Nat} (hr : Closes rest) (hn : (Nat.toDigits 10 n).length ≤ Text.maxDigits) :
    ∃ r, (readNat (Nat.toDigits 10 n ++ rest)).run = .ok (some r) := by
  rcases Nat.eq_zero_or_pos n with rfl | hpos
  · exact ⟨_, rfl⟩
  · obtain ⟨d, ds, hds, hne⟩ := toDigits_head n hpos
    have hall : ∀ c ∈ Nat.toDigits 10 n, isAsciiDigit c = true := fun c hc =>
      Nat.isDigit_of_mem_toDigits (by decide) (by decide) hc
    obtain ⟨htake, -⟩ := takeWhile_digits hall hr
    rw [hds] at hn htake ⊢
    rw [readNat.eq_def]
    split
    · rename_i heq
      cases heq
      exact absurd rfl hne
    · rw [htake]
      simp only
      rw [if_neg (Nat.not_lt.2 hn)]
      exact ⟨_, rfl⟩

theorem readInt_total {n : Int} (hr : Closes rest) (hn : Short n) :
    ∃ r, (readInt ((toString n).toList ++ rest)).run = .ok (some r) := by
  cases n with
  | ofNat m =>
    obtain ⟨r, hread⟩ := readNat_total (n := m) hr hn
    have htext : (toString (Int.ofNat m)).toList = Nat.toDigits 10 m := Nat.toList_repr
    rw [htext, readInt.eq_def]
    split
    · rename_i heq
      obtain ⟨d, ds, hds⟩ := List.exists_cons_of_ne_nil (Nat.toDigits_ne_nil (n := m) (b := 10))
      have hd : isAsciiDigit d = true :=
        Nat.isDigit_of_mem_toDigits (b := 10) (n := m) (by decide) (by decide) (by rw [hds]; exact List.mem_cons_self ..)
      rw [hds] at heq
      cases heq
      cases hd
    · exact ⟨_, reading_bind.2 ⟨r, hread, rfl⟩⟩
  | negSucc m =>
    obtain ⟨r, hread⟩ := readNat_total (n := m + 1) hr hn
    have htext : (toString (Int.negSucc m)).toList = '-' :: Nat.toDigits 10 (m + 1) := by
      show ("-" ++ (m + 1).repr).toList = _
      rw [String.toList_append, Nat.toList_repr]
      rfl
    rw [htext]
    exact ⟨_, reading_bind.2 ⟨r, hread, rfl⟩⟩

theorem readConstant_total {word : String} {value : Json} :
    ∃ r, (readConstant word value (word.toList ++ rest)).run = .ok (some r) := by
  have hword : readWord word.toList (word.toList ++ rest) = some rest := by
    unfold readWord
    rw [if_pos (List.isPrefixOf_iff_prefix.2 (List.prefix_append ..)), List.drop_left]
  unfold readConstant
  rw [hword]
  exact ⟨_, rfl⟩

/-! ## Values -/

theorem length_write_pos (level : Nat) (v : Json) : 0 < (write level v).length := by
  obtain ⟨c, cs, hv, -⟩ := write_head level v
  rw [hv]
  exact Nat.succ_pos _

-- The induction is on the fuel. Two for each character are enough: one for the value that starts there,
-- one for the list of which it is an item.
mutual
theorem readValue_total : ∀ {fuel depth level : Nat} {v : Json} {rest : List Char}, Closes rest → v.Fits depth →
    2 * (write level v).length ≤ fuel → ∃ r, (readValue fuel depth (write level v ++ rest)).run = .ok (some r)
  | 0, depth, level, v, rest, _, _, h => by
    have hpos := length_write_pos level v
    omega
  | fuel + 1, depth, level, .null, rest, _, _, _ => readConstant_total
  | fuel + 1, depth, level, .bool true, rest, _, _, _ => readConstant_total
  | fuel + 1, depth, level, .bool false, rest, _, _, _ => readConstant_total
  | fuel + 1, depth, level, .int n, rest, hr, hf, _ => by
    obtain ⟨c, cs, hcs, hc⟩ := toString_head n
    have hn : Short n := by cases depth <;> exact hf
    obtain ⟨r, hread⟩ := readInt_total hr hn
    rw [hcs, List.cons_append] at hread
    rw [write, hcs, List.cons_append, readValue_number hc]
    exact ⟨_, reading_bind.2 ⟨r, hread, rfl⟩⟩
  | fuel + 1, depth, level, .str s, rest, _, _, _ => by
    rw [write, writeText_append, readValue_quote, readText_written (Nat.lt_succ_self _)]
    exact ⟨_, rfl⟩
  | fuel + 1, 0, level, .arr _, rest, _, hf, _ => absurd hf id
  | fuel + 1, depth + 1, level, .arr [], rest, _, _, _ => ⟨_, rfl⟩
  | fuel + 1, depth + 1, level, .arr (x :: xs), rest, hr, hf, h => by
    obtain ⟨c, cs, hx, -, hc, -⟩ := write_head (level + 1) x
    have hskip := skipSpace_write (level + 1) x (writeItems (level + 1) xs ++ (newLine level ++ ']' :: rest))
    rw [← skipSpace_newLine (level + 1), hx, List.cons_append] at hskip
    have htext : write level (.arr (x :: xs)) ++ [] = _ := write_arr
    have hlen := congrArg List.length htext
    simp only [List.length_append, List.length_cons, List.length_nil] at hlen
    obtain ⟨r, hread⟩ := @readItems_total fuel depth (level + 1) level x xs rest
      (hf x (List.mem_cons_self ..)) (fun y hy => hf y (List.mem_cons_of_mem _ hy)) (by omega)
    rw [write_arr, hx, List.cons_append, readValue_bracket hskip hc, ← List.cons_append, ← hx]
    exact ⟨_, reading_bind.2 ⟨r, hread, rfl⟩⟩
  | fuel + 1, 0, level, .obj _, rest, _, hf, _ => absurd hf id
  | fuel + 1, depth + 1, level, .obj [], rest, _, _, _ => ⟨_, rfl⟩
  | fuel + 1, depth + 1, level, .obj ((k, x) :: fs), rest, hr, hf, h => by
    have htext : write level (.obj ((k, x) :: fs)) ++ [] = _ := write_obj
    have hlen := congrArg List.length htext
    simp only [List.length_append, List.length_cons, List.length_nil] at hlen
    obtain ⟨r, hread⟩ := @readFields_total fuel depth (level + 1) level k x [] fs rest
      (hf (k, x) (List.mem_cons_self ..)) (fun y hy => hf y (List.mem_cons_of_mem _ hy)) (by omega)
    rw [write_obj, writeText_append, readValue_brace ((skipSpace_newLine _).trans rfl) (by decide)]
    exact ⟨_, reading_bind.2 ⟨r, hread, rfl⟩⟩

theorem readItems_total : ∀ {fuel depth level l : Nat} {x : Json} {xs : List Json} {rest : List Char}, x.Fits depth →
    (∀ y ∈ xs, Fits depth y) → 2 * ((write level x).length + (writeItems level xs).length) + 1 ≤ fuel →
      ∃ r, (readItems fuel depth (write level x ++ (writeItems level xs ++ (newLine l ++ ']' :: rest)))).run = .ok (some r)
  | fuel + 1, depth, level, l, x, xs, rest, hx, hxs, h => by
    obtain ⟨r, hread⟩ := @readValue_total fuel depth level x (writeItems level xs ++ (newLine l ++ ']' :: rest))
      closes_writeItems hx (by omega)
    cases readValue_write closes_writeItems hread
    rw [readItems_succ]
    cases xs with
    | nil =>
      refine ⟨([x.normal], rest), reading_bind.2 ⟨_, hread, ?_⟩⟩
      rw [writeItems, List.nil_append, skipSpace_newLine]
      rfl
    | cons y ys =>
      rw [writeItems] at h
      simp only [List.length_append, List.length_cons] at h
      obtain ⟨q, hq⟩ := @readItems_total fuel depth level l y ys rest (hxs y (List.mem_cons_self ..))
        (fun z hz => hxs z (List.mem_cons_of_mem _ hz)) (by omega)
      refine ⟨(x.normal :: q.1, q.2), reading_bind.2 ⟨_, hread, ?_⟩⟩
      have hcomma : ∀ cs : List Char, skipSpace (',' :: cs) = ',' :: cs := fun _ => rfl
      rw [writeItems]
      simp only [List.append_assoc, List.cons_append]
      rw [hcomma]
      simp only [skipSpace_newLine, skipSpace_write]
      exact reading_bind.2 ⟨q, hq, rfl⟩

theorem readFields_total : ∀ {fuel depth level l : Nat} {k : String} {x : Json} {read fs : List (String × Json)}
    {rest : List Char}, x.Fits depth → (∀ f ∈ fs, Fits depth f.2) →
      2 * ((write level x).length + (writeFields level fs).length) + 1 ≤ fuel →
        ∃ r, (readFields fuel depth read ('"' :: (k.toList.flatMap escape ++ '"' :: ':' :: ' ' :: (write level x ++
          (writeFields level fs ++ (newLine l ++ '\x7d' :: rest)))))).run = .ok (some r)
  | fuel + 1, depth, level, l, k, x, read, fs, rest, hx, hfs, h => by
    obtain ⟨r, hread⟩ := @readValue_total fuel depth level x (writeFields level fs ++ (newLine l ++ '\x7d' :: rest))
      closes_writeFields hx (by omega)
    cases readValue_write closes_writeFields hread
    rw [readFields_quote, readText_written (Nat.lt_succ_self _)]
    have hcolon : ∀ cs : List Char, skipSpace (':' :: cs) = ':' :: cs := fun _ => rfl
    have hblank : skipSpace (' ' :: (write level x ++ (writeFields level fs ++ (newLine l ++ '\x7d' :: rest)))) = _ :=
      skipSpace_write level x _
    rcases fs with _ | ⟨⟨k', y⟩, fs⟩
    · refine ⟨(Keyed.put read (String.ofList k.toList) x.normal, rest), reading_bind.2 ⟨_, rfl, ?_⟩⟩
      simp only [hcolon, hblank]
      refine reading_bind.2 ⟨_, hread, ?_⟩
      rw [writeFields, List.nil_append, skipSpace_newLine]
      rfl
    · rw [writeFields] at h
      simp only [List.length_append, List.length_cons] at h
      obtain ⟨q, hq⟩ := @readFields_total fuel depth level l k' y (Keyed.put read (String.ofList k.toList) x.normal) fs rest
        (hfs (k', y) (List.mem_cons_self ..))
        (fun z hz => hfs z (List.mem_cons_of_mem _ hz)) (by omega)
      refine ⟨q, reading_bind.2 ⟨_, rfl, ?_⟩⟩
      simp only [hcolon, hblank]
      refine reading_bind.2 ⟨_, hread, ?_⟩
      rw [writeFields]
      have hcomma : ∀ cs : List Char, skipSpace (',' :: cs) = ',' :: cs := fun _ => rfl
      have hquote : ∀ cs : List Char, skipSpace ('"' :: cs) = '"' :: cs := fun _ => rfl
      simp only [List.append_assoc, List.cons_append, hcomma, skipSpace_newLine, writeText_append, hquote]
      exact hq
end

/-- A value is read back from its text. -/
theorem parse_written {v : Json} (h : v.Fits maxDepth) : parse v.toText = .ok (some v.normal) := by
  have hskip : skipSpace (write 0 v) = write 0 v := by
    simpa using skipSpace_write 0 v []
  obtain ⟨r, hread⟩ : ∃ r, (readValue (2 * (write 0 v).length + 1) maxDepth (write 0 v ++ [])).run = .ok (some r) :=
    readValue_total (by rfl) h (Nat.le_succ _)
  cases readValue_write (by rfl) hread
  rw [List.append_nil] at hread
  unfold parse toText Reading.whole?
  simp only [String.toList_ofList, hskip, hread]
  rfl

/-! ## Numbers that are too long -/

/-- A value that is nested in at most so many levels. -/
def Shallow : Nat → Json → Prop
  | _, .null | _, .bool _ | _, .str _ | _, .int _ => True
  | 0, .arr _ | 0, .obj _ => False
  | depth + 1, .arr xs => ∀ x ∈ xs, Shallow depth x
  | depth + 1, .obj fs => ∀ f ∈ fs, Shallow depth f.2

/-- A fault by which reading gives up on a number with too many digits. -/
def TooLong (e : Fault) : Prop := ∃ count, e = .badValue (.digits count)

theorem reading_error {α β : Type} {x : Reading α} {f : α → Reading β} {e : Fault} (h : (x >>= f).run = .error e) :
    x.run = .error e ∨ ∃ a, x.run = .ok (some a) ∧ (f a).run = .error e := by
  rcases hx : x.run with e' | _ | a
  · left
    have hbind : (x >>= f).run = .error e' := by
      show x.run >>= _ = _
      rw [hx]
      rfl
    cases hbind.symm.trans h
    rfl
  · have hbind : (x >>= f).run = .ok none := by
      show x.run >>= _ = _
      rw [hx]
      rfl
    rw [hbind] at h
    cases h
  · have hbind : (x >>= f).run = (f a).run := by
      show x.run >>= _ = _
      rw [hx]
      rfl
    exact .inr ⟨a, rfl, hbind ▸ h⟩

theorem readNat_fault {e : Fault} (h : (readNat cs).run = .error e) : TooLong e := by
  rw [readNat.eq_def] at h
  split at h
  · cases h
  · split at h
    · cases h
    · split at h
      · cases h
        exact ⟨_, rfl⟩
      · cases h

theorem readInt_fault {e : Fault} (h : (readInt cs).run = .error e) : TooLong e := by
  rw [readInt.eq_def] at h
  split at h <;> rcases reading_error h with h | ⟨_, _, h⟩
  · exact readNat_fault h
  · cases h
  · exact readNat_fault h
  · cases h

-- The induction is on the fuel, as for what is read.
mutual
theorem readValue_fault : ∀ {fuel depth level : Nat} {v : Json} {rest : List Char} {e : Fault}, Closes rest → v.Shallow depth →
    (readValue fuel depth (write level v ++ rest)).run = .error e → TooLong e
  | 0, depth, level, v, rest, e, _, _, h => by
    rw [readValue] at h
    cases h
  | fuel + 1, depth, level, .null, rest, e, _, _, h => by cases h
  | fuel + 1, depth, level, .bool true, rest, e, _, _, h => by cases h
  | fuel + 1, depth, level, .bool false, rest, e, _, _, h => by cases h
  | fuel + 1, depth, level, .int n, rest, e, hr, _, h => by
    obtain ⟨c, cs, hcs, hc⟩ := toString_head n
    rw [write, hcs, List.cons_append, readValue_number hc] at h
    rcases reading_error h with h | ⟨_, _, h⟩
    · exact readInt_fault h
    · cases h
  | fuel + 1, depth, level, .str s, rest, e, _, _, h => by
    rw [write, writeText_append, readValue_quote] at h
    rcases reading_error h with h | ⟨_, _, h⟩ <;> cases h
  | fuel + 1, 0, level, .arr _, rest, e, _, hv, _ => hv.elim
  | fuel + 1, depth + 1, level, .arr [], rest, e, _, _, h => by cases h
  | fuel + 1, depth + 1, level, .arr (x :: xs), rest, e, hr, hv, h => by
    obtain ⟨c, cs, hx, -, hc, -⟩ := write_head (level + 1) x
    have hskip := skipSpace_write (level + 1) x (writeItems (level + 1) xs ++ (newLine level ++ ']' :: rest))
    rw [← skipSpace_newLine (level + 1), hx, List.cons_append] at hskip
    rw [write_arr, hx, List.cons_append, readValue_bracket hskip hc, ← List.cons_append, ← hx] at h
    rcases reading_error h with h | ⟨_, _, h⟩
    · exact readItems_fault (hv x (List.mem_cons_self ..)) (fun y hy => hv y (List.mem_cons_of_mem _ hy)) h
    · cases h
  | fuel + 1, 0, level, .obj _, rest, e, _, hv, _ => hv.elim
  | fuel + 1, depth + 1, level, .obj [], rest, e, _, _, h => by cases h
  | fuel + 1, depth + 1, level, .obj ((k, x) :: fs), rest, e, hr, hv, h => by
    rw [write_obj, writeText_append] at h
    rw [readValue_brace ((skipSpace_newLine _).trans rfl) (by decide)] at h
    rcases reading_error h with h | ⟨_, _, h⟩
    · exact readFields_fault (hv (k, x) (List.mem_cons_self ..)) (fun y hy => hv y (List.mem_cons_of_mem _ hy)) h
    · cases h

theorem readItems_fault : ∀ {fuel depth level l : Nat} {x : Json} {xs : List Json} {rest : List Char} {e : Fault},
    x.Shallow depth → (∀ y ∈ xs, Shallow depth y) →
      (readItems fuel depth (write level x ++ (writeItems level xs ++ (newLine l ++ ']' :: rest)))).run = .error e → TooLong e
  | 0, depth, level, l, x, xs, rest, e, _, _, h => by
    rw [readItems] at h
    cases h
  | fuel + 1, depth, level, l, x, xs, rest, e, hx, hxs, h => by
    rw [readItems_succ] at h
    rcases reading_error h with h | ⟨q, hq, h⟩
    · exact readValue_fault closes_writeItems hx h
    cases readValue_write closes_writeItems hq
    cases xs with
    | nil =>
      rw [writeItems, List.nil_append, skipSpace_newLine] at h
      cases h
    | cons y ys =>
      rw [writeItems] at h
      simp only [List.append_assoc, List.cons_append] at h
      have hcomma : ∀ cs : List Char, skipSpace (',' :: cs) = ',' :: cs := fun _ => rfl
      rw [hcomma] at h
      simp only [skipSpace_newLine, skipSpace_write] at h
      rcases reading_error h with h | ⟨_, _, h⟩
      · exact readItems_fault (hxs y (List.mem_cons_self ..)) (fun z hz => hxs z (List.mem_cons_of_mem _ hz)) h
      · cases h

theorem readFields_fault : ∀ {fuel depth level l : Nat} {k : String} {x : Json} {read fs : List (String × Json)}
    {rest : List Char} {e : Fault}, x.Shallow depth → (∀ f ∈ fs, Shallow depth f.2) →
      (readFields fuel depth read ('"' :: (k.toList.flatMap escape ++ '"' :: ':' :: ' ' :: (write level x ++
        (writeFields level fs ++ (newLine l ++ '\x7d' :: rest)))))).run = .error e → TooLong e
  | 0, depth, level, l, k, x, read, fs, rest, e, _, _, h => by
    rw [readFields] at h
    cases h
  | fuel + 1, depth, level, l, k, x, read, fs, rest, e, hx, hfs, h => by
    rw [readFields_quote] at h
    rcases reading_error h with h | ⟨p, hp, h⟩
    · cases h
    cases readText_write (run_ofOption hp)
    have hcolon : ∀ cs : List Char, skipSpace (':' :: cs) = ':' :: cs := fun _ => rfl
    have hblank : skipSpace (' ' :: (write level x ++ (writeFields level fs ++ (newLine l ++ '\x7d' :: rest)))) = _ :=
      skipSpace_write level x _
    simp only [hcolon, hblank] at h
    rcases reading_error h with h | ⟨q, hq, h⟩
    · exact readValue_fault closes_writeFields hx h
    cases readValue_write closes_writeFields hq
    rcases fs with _ | ⟨⟨k', y⟩, fs⟩
    · rw [writeFields, List.nil_append, skipSpace_newLine] at h
      cases h
    · rw [writeFields] at h
      simp only [List.append_assoc, List.cons_append] at h
      have hcomma : ∀ cs : List Char, skipSpace (',' :: cs) = ',' :: cs := fun _ => rfl
      have hquote : ∀ cs : List Char, skipSpace ('"' :: cs) = '"' :: cs := fun _ => rfl
      rw [hcomma] at h
      simp only [skipSpace_newLine, writeText_append, hquote] at h
      exact readFields_fault (hfs (k', y) (List.mem_cons_self ..)) (fun z hz => hfs z (List.mem_cons_of_mem _ hz)) h
end

/-- Reading the text of a value that is not nested too deeply gives up on nothing but numbers that are too long. -/
theorem parse_shallow {v : Json} (h : v.Shallow maxDepth) {e : Fault} (hparse : parse v.toText = .error e) : TooLong e := by
  have hskip : skipSpace (write 0 v) = write 0 v := by
    simpa using skipSpace_write 0 v []
  unfold parse toText Reading.whole? at hparse
  simp only [String.toList_ofList, hskip] at hparse
  rcases hread : (readValue (2 * (write 0 v).length + 1) maxDepth (write 0 v)).run with e' | r?
  · rw [hread] at hparse
    cases hparse
    rw [← List.append_nil (write 0 v)] at hread
    exact readValue_fault (by rfl) h hread
  · rw [hread] at hparse
    cases hparse
end SimUnix.Json
