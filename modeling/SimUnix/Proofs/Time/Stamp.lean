/-
Stamps come back from their written form. The date of a numbered day is numbered like that day again,
and whatever a clock at universal time may show is read as what was written.
-/
import SimUnix.Time.Iso8601
import Mathlib.Data.List.TakeWhile
import Mathlib.Tactic.IntervalCases

namespace SimUnix.Time

/-! ## Days -/

/-- The year of an era that a day of it lies in: it has begun before that day, and ends after it. -/
theorem yearOfEra_bounds {d y : Int} (hlo : 0 ≤ d) (hhi : d < 146097)
    (hy : y = (d - d / 1460 + d / 36524 - d / 146096) / 365) :
    0 ≤ y ∧ y ≤ 399 ∧ 365 * y + y / 4 - y / 100 ≤ d ∧ d ≤ 365 * y + y / 4 - y / 100 + 365 := by
  have hcentury : d / 36524 = 0 ∨ d / 36524 = 1 ∨ d / 36524 = 2 ∨ d / 36524 = 3 ∨ d / 36524 = 4 := by omega
  have hlast : d / 146096 = 0 ∨ d / 146096 = 1 := by omega
  rcases hlast with hlast | hlast
  · rcases hcentury with hc | hc | hc | hc | hc
    · have : y / 100 = 0 := by omega
      refine ⟨by omega, by omega, by omega, by omega⟩
    · have : y / 100 = 1 := by omega
      refine ⟨by omega, by omega, by omega, by omega⟩
    · have : y / 100 = 2 := by omega
      refine ⟨by omega, by omega, by omega, by omega⟩
    · have : y / 100 = 3 := by omega
      refine ⟨by omega, by omega, by omega, by omega⟩
    · omega
  · -- the leap day at the end of the era
    have hd : d = 146096 := by omega
    subst hd
    omega

/-- Only the last day of a leap year comes after 365 others. -/
theorem yearOfEra_leap {d y : Int} (hlo : 0 ≤ d) (hhi : d < 146097)
    (hy : y = (d - d / 1460 + d / 36524 - d / 146096) / 365) (hlast : d - (365 * y + y / 4 - y / 100) = 365) :
    y % 4 = 3 ∧ (y % 100 ≠ 99 ∨ y = 399) := by
  have hcentury : d / 36524 = 0 ∨ d / 36524 = 1 ∨ d / 36524 = 2 ∨ d / 36524 = 3 ∨ d / 36524 = 4 := by omega
  have hend : d / 146096 = 0 ∨ d / 146096 = 1 := by omega
  rcases hend with hend | hend
  · rcases hcentury with hc | hc | hc | hc | hc
    · have : y / 100 = 0 := by omega
      omega
    · have : y / 100 = 1 := by omega
      omega
    · have : y / 100 = 2 := by omega
      omega
    · have : y / 100 = 3 := by omega
      omega
    · omega
  · have hd : d = 146096 := by omega
    subst hd
    omega

/-- A numbered day, split into its era, year and month, with the year starting in March. -/
theorem ofDayNumber_spec (n : Int) : ∃ era year day month : Int,
    0 ≤ year ∧ year ≤ 399 ∧ 0 ≤ day ∧ day ≤ 365 ∧ 0 ≤ month ∧ month ≤ 11 ∧ month = (5 * day + 2) / 153 ∧
      (day = 365 → year % 4 = 3 ∧ (year % 100 ≠ 99 ∨ year = 399)) ∧
      n = era * 146097 + (365 * year + year / 4 - year / 100 + day) - 719468 ∧
      ofDayNumber n =
        { year := if (if month < 10 then month + 3 else month - 9) ≤ 2 then year + era * 400 + 1 else year + era * 400
          month := (if month < 10 then month + 3 else month - 9).toNat
          day := (day - (153 * month + 2) / 5 + 1).toNat } := by
  obtain ⟨d, hd⟩ : ∃ d, d = n + 719468 - (n + 719468) / 146097 * 146097 := ⟨_, rfl⟩
  obtain ⟨y, hy⟩ : ∃ y, y = (d - d / 1460 + d / 36524 - d / 146096) / 365 := ⟨_, rfl⟩
  obtain ⟨h₁, h₂, h₃, h₄⟩ := yearOfEra_bounds (by omega) (by omega) hy
  refine ⟨(n + 719468) / 146097, y, d - (365 * y + y / 4 - y / 100), _, h₁, h₂, by omega, by omega, by omega, by omega, rfl,
    ?_, by omega, ?_⟩
  · intro hday
    exact yearOfEra_leap (by omega) (by omega) hy (by omega)
  · unfold ofDayNumber
    simp only [hd, hy]

/-- The date of a numbered day is that of the day. -/
theorem dayNumber_ofDayNumber (n : Int) : dayNumber (ofDayNumber n) = n := by
  obtain ⟨era, year, day, month, hy₁, hy₂, hd₁, hd₂, hm₁, hm₂, hmonth, -, hn, hof⟩ := ofDayNumber_spec n
  rw [hof, hn]
  unfold dayNumber
  simp only
  by_cases hlate : month < 10
  · simp only [if_pos hlate, if_neg (show ¬ month + 3 ≤ 2 by omega), if_neg (show ¬ (month + 3).toNat ≤ 2 by omega)]
    have hcast : ((month + 3).toNat : Int) = month + 3 := by omega
    have hcast' : ((day - (153 * month + 2) / 5 + 1).toNat : Int) = day - (153 * month + 2) / 5 + 1 := by omega
    rw [hcast, hcast']
    have hera : (year + era * 400) / 400 = era := by omega
    rw [hera, show year + era * 400 - era * 400 = year by omega, show month + 3 - 3 = month by omega]
    omega
  · simp only [if_neg hlate, if_pos (show month - 9 ≤ 2 by omega), if_pos (show (month - 9).toNat ≤ 2 by omega)]
    have hcast : ((month - 9).toNat : Int) = month - 9 := by omega
    have hcast' : ((day - (153 * month + 2) / 5 + 1).toNat : Int) = day - (153 * month + 2) / 5 + 1 := by omega
    rw [hcast, hcast']
    rw [show year + era * 400 + 1 - 1 = year + era * 400 by omega]
    have hera : (year + era * 400) / 400 = era := by omega
    rw [hera, show year + era * 400 - era * 400 = year by omega, show month - 9 + 9 = month by omega]
    omega

/-- The date of a numbered day has a month of its year, and a day of that month. -/
theorem ofDayNumber_valid (n : Int) : 1 ≤ (ofDayNumber n).month ∧ (ofDayNumber n).month ≤ 12 ∧ 1 ≤ (ofDayNumber n).day ∧
    (ofDayNumber n).day ≤ daysInMonth (ofDayNumber n).year (ofDayNumber n).month := by
  obtain ⟨era, year, day, month, hy₁, hy₂, hd₁, hd₂, hm₁, hm₂, hmonth, hleap, hn, hof⟩ := ofDayNumber_spec n
  rw [hof]
  simp only
  have hmonths : month = 0 ∨ month = 1 ∨ month = 2 ∨ month = 3 ∨ month = 4 ∨ month = 5 ∨ month = 6 ∨ month = 7 ∨
      month = 8 ∨ month = 9 ∨ month = 10 ∨ month = 11 := by omega
  unfold daysInMonth
  rcases hmonths with h | h | h | h | h | h | h | h | h | h | h | h <;> rw [h] at hmonth ⊢ <;> norm_num
  all_goals try omega
  -- February, which may have a leap day
  unfold isLeap
  by_cases hday : day = 365
  · obtain ⟨h4, h100⟩ := hleap hday
    have hleap : (year + era * 400 + 1) % 4 == 0 && ((year + era * 400 + 1) % 100 != 0 || (year + era * 400 + 1) % 400 == 0) := by
      simp only [Bool.and_eq_true, Bool.or_eq_true, beq_iff_eq, bne_iff_ne]
      omega
    rw [if_pos hleap]
    omega
  · split <;> omega

namespace Stamp

/-! ## Numbers of a fixed width -/

variable {width n : Nat} {rest cs : List Char}

theorem toList_zeroPadded : (zeroPadded width n).toList =
    List.replicate (width - (Nat.toDigits 10 n).length) '0' ++ Nat.toDigits 10 n := by
  have hlist : (toString n).toList = Nat.toDigits 10 n := Nat.toList_repr
  unfold zeroPadded
  rw [String.toList_append, String.toList_ofList, ← String.length_toList, hlist]

theorem length_zeroPadded (hw : 0 < width) (hn : n < 10 ^ width) : (zeroPadded width n).toList.length = width := by
  have hlen : (Nat.toDigits 10 n).length ≤ width := (Nat.length_toDigits_le_iff (by decide) hw).2 hn
  rw [toList_zeroPadded, List.length_append, List.length_replicate]
  omega

theorem digits_zeroPadded : ∀ c ∈ (zeroPadded width n).toList, isPlainDigit c = true := by
  intro c hc
  rw [toList_zeroPadded, List.mem_append] at hc
  rcases hc with hc | hc
  · rw [(List.mem_replicate.1 hc).2]
    rfl
  · exact Nat.isDigit_of_mem_toDigits (by decide) (by decide) hc

/-- A number of a fixed width is read back. -/
theorem readDigits_zeroPadded {w n : Nat} {r : List Char} (hw : 0 < w) (hn : n < 10 ^ w) :
    readDigits w ((zeroPadded w n).toList ++ r) = some (n, r) := by
  have hlen := length_zeroPadded hw hn
  have hzeros : ∀ k, (List.replicate k '0').foldl (fun n d => 10 * n + (d.toNat - 48)) 0 = 0 := by
    intro k
    induction k with
    | zero => rfl
    | succ k ih => exact ih
  have hvalue : (zeroPadded w n).toList.foldl (fun n d => 10 * n + (d.toNat - 48)) 0 = n := by
    have hdigits := Nat.ofDigitChars_ten_toDigits (n := n)
    rw [Nat.ofDigitChars_eq_foldl] at hdigits
    rw [toList_zeroPadded, List.foldl_append, hzeros]
    exact hdigits
  unfold readDigits
  simp only [List.take_left' hlen, List.drop_left' hlen, hlen, hvalue, true_and]
  rw [if_pos (List.all_eq_true.2 digits_zeroPadded)]

/-- A number of a fixed width starts with a digit. -/
theorem zeroPadded_head {w n : Nat} (hw : 0 < w) (hn : n < 10 ^ w) :
    ∃ c cs, (zeroPadded w n).toList = c :: cs ∧ isPlainDigit c = true := by
  rcases hz : (zeroPadded w n).toList with _ | ⟨c, cs⟩
  · have hlen := length_zeroPadded hw hn
    rw [hz] at hlen
    simp at hlen
    omega
  · exact ⟨c, cs, rfl, digits_zeroPadded c (hz ▸ List.mem_cons_self)⟩

/-! ## Dates -/

theorem toList_dash : "-".toList = ['-'] := by decide

theorem toList_colon : ":".toList = [':'] := by decide

theorem toList_point : ".".toList = ['.'] := by decide

theorem toList_letter : "T".toList = ['T'] := by decide

theorem readDate_of {cs tail later : List Char} {m : Char} {year month day : Nat} (hyear : readDigits 4 cs = some (year, '-' :: m :: tail))
    (hweek : m ≠ 'W') (hmonth : readDigits 2 (m :: tail) = some (month, '-' :: later)) (hday : readDigits 2 later = some (day, rest)) :
    readDate cs = some ({ year, month, day }, rest) := by
  unfold readDate
  rw [hyear]
  simp only [Option.bind_eq_bind, Option.bind_some]
  split
  · rename_i heq
    simp only [List.cons.injEq] at heq
    exact absurd heq.2.1 hweek
  · rename_i heq
    cases heq
  · rename_i heq
    cases heq
    simp only [hmonth, hday, Option.bind_some]
  · rename_i hno
    exact absurd rfl (hno _)

/-- A written date is read back. -/
theorem readDate_dateText {d : Date} (hyear : 0 ≤ d.year ∧ d.year ≤ 9999) (hmonth : d.month < 100) (hday : d.day < 100) :
    readDate ((dateText d).toList ++ rest) = some (d, rest) := by
  have htext : (dateText d).toList ++ rest = (zeroPadded 4 d.year.toNat).toList ++
      ('-' :: ((zeroPadded 2 d.month).toList ++ ('-' :: ((zeroPadded 2 d.day).toList ++ rest)))) := by
    unfold dateText
    simp only [String.toList_append, List.append_assoc, toList_dash, List.cons_append, List.nil_append]
  obtain ⟨m, ms, hm, hdigit⟩ := zeroPadded_head (w := 2) (by decide) hmonth
  have hweek : m ≠ 'W' := by
    rintro rfl
    cases hdigit
  have hcast : (d.year.toNat : Int) = d.year := Int.toNat_of_nonneg hyear.1
  have hthen := readDigits_zeroPadded (w := 2) (r := '-' :: ((zeroPadded 2 d.day).toList ++ rest)) (by decide) hmonth
  have hfirst := readDigits_zeroPadded (w := 4) (n := d.year.toNat)
    (r := '-' :: ((zeroPadded 2 d.month).toList ++ ('-' :: ((zeroPadded 2 d.day).toList ++ rest)))) (by decide) (by omega)
  rw [← htext] at hfirst
  rw [hm, List.cons_append] at hthen hfirst
  rw [readDate_of hfirst hweek hthen (readDigits_zeroPadded (by decide) hday), hcast]

/-! ## Times of day -/

theorem afterNumber_colon {c : Char} : afterNumber true (':' :: c :: rest) = some (.number (c :: rest)) := rfl

theorem afterNumber_point {c : Char} : afterNumber true ('.' :: c :: rest) = some (.fraction (c :: rest)) := rfl

theorem readFraction_zeroPadded (hn : n < 1000000) : readFraction (zeroPadded 6 n).toList = some (n, true) := by
  have hlen : (zeroPadded 6 n).toList.length = 6 := length_zeroPadded (by decide) hn
  have hread : readDigits 6 (zeroPadded 6 n).toList = some (n, []) := by
    have h := readDigits_zeroPadded (w := 6) (r := []) (by decide) hn
    rwa [List.append_nil] at h
  unfold readFraction
  simp only [hlen, Nat.min_self, hread, Option.bind_eq_bind, Option.bind_some, Nat.sub_self, List.replicate_zero,
    List.append_nil]
  rfl

/-- A written time of day is read back. -/
theorem readClock_clockText {seconds micros : Nat} (hs : seconds < 86400) (hm : micros < 1000000) :
    readClock ((clockText seconds).toList ++ (fractionText micros).toList) =
      some ({ hour := seconds / 3600, minute := seconds / 60 % 60, second := seconds % 60, micros }, true) := by
  have htext : (clockText seconds).toList ++ (fractionText micros).toList =
      (zeroPadded 2 (seconds / 3600)).toList ++ (':' :: ((zeroPadded 2 (seconds / 60 % 60)).toList ++
        (':' :: ((zeroPadded 2 (seconds % 60)).toList ++ (fractionText micros).toList)))) := by
    unfold clockText
    simp only [String.toList_append, List.append_assoc, toList_colon, List.cons_append, List.nil_append]
  obtain ⟨a, as, ha, -⟩ := zeroPadded_head (w := 2) (n := seconds / 60 % 60) (by decide) (by omega)
  obtain ⟨b, bs, hb, -⟩ := zeroPadded_head (w := 2) (n := seconds % 60) (by decide) (by omega)
  have hminute : afterNumber true (':' :: ((zeroPadded 2 (seconds / 60 % 60)).toList ++
      (':' :: ((zeroPadded 2 (seconds % 60)).toList ++ (fractionText micros).toList)))) =
      some (.number ((zeroPadded 2 (seconds / 60 % 60)).toList ++
        (':' :: ((zeroPadded 2 (seconds % 60)).toList ++ (fractionText micros).toList)))) := by
    rw [ha, List.cons_append]
    exact afterNumber_colon
  have hsecond : afterNumber true (':' :: ((zeroPadded 2 (seconds % 60)).toList ++ (fractionText micros).toList)) =
      some (.number ((zeroPadded 2 (seconds % 60)).toList ++ (fractionText micros).toList)) := by
    rw [hb, List.cons_append]
    exact afterNumber_colon
  rw [htext]
  unfold readClock
  simp only [readDigits_zeroPadded (w := 2) (n := seconds / 3600) (by decide) (by omega), Option.bind_eq_bind,
    Option.bind_some, List.head?_cons, beq_self_eq_true, hminute,
    readDigits_zeroPadded (w := 2) (n := seconds / 60 % 60) (by decide) (by omega), hsecond,
    readDigits_zeroPadded (w := 2) (n := seconds % 60) (by decide) (by omega)]
  by_cases hzero : micros = 0
  · subst hzero
    rfl
  · obtain ⟨c, cs, hc, -⟩ := zeroPadded_head (w := 6) (by decide) hm
    have hfraction : (fractionText micros).toList = '.' :: (zeroPadded 6 micros).toList := by
      unfold fractionText
      rw [if_neg hzero, String.toList_append, toList_point, List.singleton_append]
    have hpoint : afterNumber true ('.' :: (zeroPadded 6 micros).toList) = some (.fraction (zeroPadded 6 micros).toList) := by
      rw [hc]
      exact afterNumber_point
    simp only [hfraction, hpoint, Option.bind_some, readFraction_zeroPadded hm]

/-! ## Stamps -/

/-- What a clock at universal time may show: a whole number of microseconds in a year of four digits. -/
structure Proper (s : Stamp) : Prop where
  universal : s.offset? = some 0
  micros : s.micros < 1000000
  year : 1 ≤ s.date.year ∧ s.date.year ≤ 9999

theorem not_mark_of_digit {c : Char} (h : isPlainDigit c = true) : (c == '-' || c == '+' || c == 'Z') = false := by
  by_contra hmark
  simp only [Bool.not_eq_false, Bool.or_eq_true, beq_iff_eq] at hmark
  rcases hmark with (rfl | rfl) | rfl <;> cases h

/-- No mark of an offset stands in a time of day. -/
theorem not_mark {seconds micros : Nat} : ∀ c ∈ (clockText seconds).toList ++ (fractionText micros).toList,
    (!(c == '-' || c == '+' || c == 'Z')) = true := by
  have hdigits : ∀ {width n : Nat} {c : Char}, c ∈ (zeroPadded width n).toList → (!(c == '-' || c == '+' || c == 'Z')) = true := by
    intro width n c hc
    rw [not_mark_of_digit (digits_zeroPadded c hc)]
    rfl
  intro c hc
  unfold clockText fractionText at hc
  simp only [String.toList_append, List.mem_append] at hc
  rcases hc with ((((hc | hc) | hc) | hc) | hc) | hc
  · exact hdigits hc
  · rw [List.mem_singleton.1 (show c ∈ [':'] from hc)]
    rfl
  · exact hdigits hc
  · rw [List.mem_singleton.1 (show c ∈ [':'] from hc)]
    rfl
  · exact hdigits hc
  · split at hc
    · cases hc
    · rw [String.toList_append, List.mem_append] at hc
      rcases hc with hc | hc
      · rw [List.mem_singleton.1 (show c ∈ ['.'] from hc)]
        rfl
      · exact hdigits hc

theorem readTime_text {seconds micros : Nat} (hs : seconds < 86400) (hm : micros < 1000000) :
    readTime ((clockText seconds).toList ++ (fractionText micros).toList ++ "+00:00".toList) =
      some ({ hour := seconds / 3600, minute := seconds / 60 % 60, second := seconds % 60, micros }, some 0) := by
  have hplus : "+00:00".toList = '+' :: "00:00".toList := by decide
  have hzone : readClock "00:00".toList = some ({ hour := 0 }, true) := by
    have hclock : "00:00".toList = ['0', '0', ':', '0', '0'] := by decide
    rw [hclock]
    rfl
  have htake : ((clockText seconds).toList ++ (fractionText micros).toList ++ "+00:00".toList).takeWhile
      (fun c => !(c == '-' || c == '+' || c == 'Z')) = (clockText seconds).toList ++ (fractionText micros).toList := by
    rw [List.takeWhile_append_of_pos not_mark, hplus, List.takeWhile_cons_of_neg (by decide), List.append_nil]
  have hdrop : ((clockText seconds).toList ++ (fractionText micros).toList ++ "+00:00".toList).dropWhile
      (fun c => !(c == '-' || c == '+' || c == 'Z')) = '+' :: "00:00".toList := by
    rw [List.dropWhile_append_of_pos not_mark, hplus, List.dropWhile_cons_of_neg (by decide)]
  unfold readTime
  simp only [htake, hdrop, readClock_clockText hs hm, Option.bind_eq_bind, Option.bind_some]
  split
  · rename_i heq
    cases heq
  · rename_i heq
    cases heq
  · rename_i heq
    cases heq
    simp only [hzone, Option.bind_some]
    rfl

/-- What a clock shows is read back from its written form. -/
theorem parse_toText {s : Stamp} (h : s.Proper) : parse s.toText = .ok s := by
  obtain ⟨huniversal, hmicros, hyear⟩ := h
  obtain ⟨hmonth, hmonth', hday, hday'⟩ := ofDayNumber_valid (s.seconds / 86400)
  have hlong : daysInMonth s.date.year s.date.month ≤ 31 := by
    unfold daysInMonth
    split_ifs <;> decide
  have hmonth : 1 ≤ s.date.month := hmonth
  have hmonth' : s.date.month ≤ 12 := hmonth'
  have hday : 1 ≤ s.date.day := hday
  have hday' : s.date.day ≤ daysInMonth s.date.year s.date.month := hday'
  have hsecond : s.secondOfDay < 86400 := by
    unfold secondOfDay
    omega
  have htext : s.toText.toList = (dateText s.date).toList ++
      'T' :: ((clockText s.secondOfDay).toList ++ (fractionText s.micros).toList ++ "+00:00".toList) := by
    have hoffset : offsetText 0 = "+00:00" := by decide +kernel
    unfold toText
    rw [huniversal]
    simp only [String.toList_append, List.append_assoc, toList_letter, hoffset, List.cons_append, List.nil_append]
  unfold parse
  rw [htext, readDate_dateText (by omega) (by omega) (by omega)]
  simp only [readTime_text hsecond hmicros]
  unfold checked
  simp only [Option.getD_some]
  rw [if_neg (by decide), if_neg (by omega), if_neg (by omega), if_neg (by omega), if_neg (by omega), if_neg (by omega),
    if_neg (by omega)]
  have hdate : dayNumber s.date = s.seconds / 86400 := dayNumber_ofDayNumber _
  have hseconds : dayNumber s.date * 86400 + (((s.secondOfDay / 3600 * 60 + s.secondOfDay / 60 % 60) * 60 +
      s.secondOfDay % 60 : Nat) : Int) = s.seconds := by
    rw [hdate]
    unfold secondOfDay
    omega
  rw [hseconds, ← huniversal]

end Stamp

end SimUnix.Time
