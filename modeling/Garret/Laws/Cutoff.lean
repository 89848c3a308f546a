import Garret.Admin.Cutoff

/-!
# What the cutoff of a prune means

* `parsesAges_iff`: an age is read as its grammar says, without a panic, when its last character is
  one byte.
* `cutoff_calendar`: a date is read by the calendar.
-/

namespace Garret.Admin

open Garret.Lib

/-! ## Ages -/

/-- `text` spells the age `n`: a number, with or without a plus sign, and a unit. -/
def IsAge (text : List Char) (n : Int) : Prop :=
  ∃ sign digits unit scale, text = sign ++ digits ++ [unit] ∧ (sign = [] ∨ sign = ['+']) ∧
    digits.all Char.isDigit = true ∧
    (unit, scale) ∈ [('s', (1 : Int)), ('m', 60), ('h', 3600), ('d', 86400)] ∧
    0 < Nat.ofDigitChars 10 digits 0 ∧ IsI64 (Nat.ofDigitChars 10 digits 0) ∧
    n = Nat.ofDigitChars 10 digits 0 * scale ∧ IsI64 n

/-- What the two parsers owe a text: they return, and they read ages as `IsAge` says. -/
structure ParsesAges (text : List Char) (now : Int) : Prop where
  duration_returns : ∀ p, parseDuration text ≠ .error (.panic p)
  cutoff_returns : ∀ p, parseCutoff text now ≠ .error (.panic p)
  duration : ∀ n, parseDuration text = .ok n ↔ IsAge text n
  cutoff : '-' ∉ text → ∀ c, parseCutoff text now = .ok c ↔
    ∃ n, parseDuration text = .ok n ∧ c = now - n ∧ IsI64 (now - n)

/-- A number without a minus sign may have a plus sign. -/
theorem splitSign_false {text digits : List Char} (h : splitSign text = (false, digits)) :
    ∃ sign, text = sign ++ digits ∧ (sign = [] ∨ sign = ['+']) := by
  unfold splitSign at h
  split at h
  · simp at h
  · obtain rfl := (Prod.mk.inj h).2
    exact ⟨['+'], rfl, Or.inr rfl⟩
  · obtain rfl := (Prod.mk.inj h).2
    exact ⟨[], rfl, Or.inl rfl⟩

/-- The positive numbers `i64::from_str` reads. -/
theorem parseI64_pos {text : List Char} {n : Int} :
    parseI64 text = some n ∧ 0 < n ↔
      ∃ sign digits, text = sign ++ digits ∧ (sign = [] ∨ sign = ['+']) ∧
        digits.all Char.isDigit = true ∧ 0 < Nat.ofDigitChars 10 digits 0 ∧
        IsI64 (Nat.ofDigitChars 10 digits 0) ∧ n = Nat.ofDigitChars 10 digits 0 := by
  constructor
  · rintro ⟨h, hpos⟩
    obtain ⟨negative, digits, hsign⟩ : ∃ b d, splitSign text = (b, d) := ⟨_, _, rfl⟩
    simp only [parseI64, hsign, Option.ite_none_left_eq_some, Option.ite_none_right_eq_some,
      Option.some.injEq, Bool.or_eq_true, not_or, Bool.not_eq_true', Bool.not_eq_false] at h
    obtain ⟨⟨-, hall⟩, hfits, hn⟩ := h
    cases negative with
    | true =>
      simp only [if_true] at hn
      omega
    | false =>
      simp only [Bool.false_eq_true, if_false] at hn hfits
      obtain ⟨sign, htext, hs⟩ := splitSign_false hsign
      exact ⟨sign, digits, htext, hs, hall, by omega, hfits, hn.symm⟩
  · rintro ⟨sign, digits, rfl, hsign, hall, hpos, hfits, rfl⟩
    have hsplit : splitSign (sign ++ digits) = (false, digits) := by
      rcases hsign with rfl | rfl
      · exact splitSign_digits hall
      · rfl
    have hne : digits.isEmpty = false := by
      cases digits with
      | nil => exact absurd hpos (by decide)
      | cons c cs => rfl
    refine ⟨?_, by omega⟩
    simp [parseI64, hsplit, hne, hall, hfits]

/-- The units there are. -/
theorem scale?_eq_some {unit : Char} {scale : Int} :
    scale? [unit] = some scale ↔
      (unit, scale) ∈ [('s', (1 : Int)), ('m', 60), ('h', 3600), ('d', 86400)] := by
  unfold scale?
  simp only [List.cons.injEq, and_true, List.mem_cons, Prod.mk.injEq, List.not_mem_nil, or_false]
  split_ifs <;> simp_all [eq_comm]

/-- A text that ends in one byte is a number and a unit, or an error. -/
theorem parseDuration_last {a : List Char} {c : Char} (hc : c.utf8Size = 1) (n : Int) :
    parseDuration (a ++ [c]) = .ok n ↔
      ∃ scale v, scale? [c] = some scale ∧ (parseI64 a = some v ∧ 0 < v) ∧ n = v * scale ∧
        IsI64 n := by
  have hread : ∀ v, (parseI64 a = some v ∧ 0 < v) ↔
      (parseI64 a).filter (fun n => decide (0 < n)) = some v := by
    intro v
    rw [Option.filter_eq_some_iff, decide_eq_true_eq]
  unfold parseDuration
  rw [splitAt_last hc]
  simp only [bind, Except.bind, hread]
  cases scale? [c] with
  | none => simp
  | some scale =>
    cases (parseI64 a).filter (fun n => decide (0 < n)) with
    | none => simp
    | some v =>
      by_cases hfits : IsI64 (v * scale)
      · simp only [hfits, if_true, Except.ok.injEq, Option.some.injEq, exists_eq_left',
          exists_and_left]
        constructor
        · rintro rfl
          exact ⟨rfl, hfits⟩
        · exact fun h => h.1.symm
      · simp only [hfits, if_false, reduceCtorEq, Option.some.injEq, false_iff]
        rintro ⟨_, _, rfl, rfl, rfl, h⟩
        exact hfits h

/-- The cut is the only place where `parse_duration` can panic. -/
theorem parseDuration_panic {text : List Char} {p : Panic}
    (h : parseDuration text = .error (.panic p)) :
    splitAt (utf8Len text - 1) text = .error (.panic p) := by
  unfold parseDuration at h
  cases hcut : splitAt (utf8Len text - 1) text with
  | error e =>
    rw [hcut] at h
    simp only [bind, Except.bind, Except.error.injEq] at h
    rw [h]
  | ok parts =>
    rw [hcut] at h
    simp only [bind, Except.bind] at h
    split at h
    · simp at h
    · split at h
      · simp at h
      · split at h <;> simp at h

/-- An age without a dash is counted back from the clock. -/
theorem parseCutoff_age {text : List Char} (h : '-' ∉ text) (now c : Int) :
    parseCutoff text now = .ok c ↔
      ∃ n, parseDuration text = .ok n ∧ c = now - n ∧ IsI64 (now - n) := by
  have hdash : ¬ text.contains '-' = true := by simpa using h
  unfold parseCutoff
  rw [if_pos hdash]
  cases parseDuration text with
  | error e => simp [bind, Except.bind]
  | ok n =>
    simp only [bind, Except.bind, Except.ok.injEq, exists_eq_left']
    by_cases hfits : IsI64 (now - n)
    · simp only [hfits, if_true, Except.ok.injEq, and_true]
      exact eq_comm
    · simp [hfits]

/-! ## Dates -/

/-- The formula in one piece. -/
theorem daysFromCivil_formula (y m d : Int) :
    daysFromCivil y m d =
      let y' := if m ≤ 2 then y - 1 else y
      let yoe := y' - y' / 400 * 400
      y' / 400 * 146097 + (yoe * 365 + yoe.tdiv 4 - yoe.tdiv 100 +
        ((153 * ((m + 9).tmod 12) + 2).tdiv 5 + d - 1)) - 719468 := by
  unfold daysFromCivil daysFromCivilM
  split_ifs <;> rfl

/-- In a month of the year no division is of a negative number. -/
theorem daysFromCivil_eq (y d : Int) {m : Int} (hm : 1 ≤ m) :
    daysFromCivil y m d =
      let y' := if m ≤ 2 then y - 1 else y
      let yoe := y' - y' / 400 * 400
      y' / 400 * 146097 + (yoe * 365 + yoe / 4 - yoe / 100 +
        ((153 * ((m + 9) % 12) + 2) / 5 + d - 1)) - 719468 := by
  have hmod : (m + 9).tmod 12 = (m + 9) % 12 := Int.tmod_eq_emod_of_nonneg (by omega)
  rw [daysFromCivil_formula]
  simp only [hmod]
  split_ifs <;> simp (disch := omega) only [Int.tdiv_eq_ediv_of_nonneg]

/-- **From the first of a month to the first of the next are the days of the month.** -/
theorem daysFromCivil_month {y m : Int} (h₁ : 1 ≤ m) (h₂ : m ≤ 12) :
    daysFromCivil (nextMonth y m).1 (nextMonth y m).2 1 =
      daysFromCivil y m 1 + monthLength y m := by
  have hnext : 1 ≤ (nextMonth y m).2 := by
    unfold nextMonth
    split_ifs <;> simp only <;> omega
  rw [daysFromCivil_eq _ _ hnext, daysFromCivil_eq _ _ h₁]
  unfold nextMonth monthLength IsLeap
  obtain rfl | rfl | rfl | rfl | rfl | rfl | rfl | rfl | rfl | rfl | rfl | rfl :
    m = 1 ∨ m = 2 ∨ m = 3 ∨ m = 4 ∨ m = 5 ∨ m = 6 ∨ m = 7 ∨ m = 8 ∨ m = 9 ∨ m = 10 ∨ m = 11 ∨
      m = 12 := by omega
  all_goals
    simp only [Int.reduceAdd, Int.reduceEq, Int.reduceLE, if_true, if_false, Int.reduceMul,
      Int.reduceMod, Int.reduceDiv, or_false, or_true]
  all_goals omega

/-- No number of a date is near the ends of `i64`. -/
theorem i64_small {n : Int} (h₁ : -1000000000000 ≤ n) (h₂ : n ≤ 1000000000000) :
    i64 n = .ok n := by
  have hr : IsI64 n := by
    unfold IsI64 i64Min i64Max
    omega
  exact if_pos hr

/-- In the years a cutoff can name nothing overflows. -/
theorem daysFromCivilM_i64 {y m : Int} (hy : 0 ≤ y ∧ y ≤ 10000) (hm : 1 ≤ m ∧ m ≤ 12) :
    daysFromCivilM i64 y m 1 = .ok (daysFromCivil y m 1) := by
  obtain ⟨y', hy', hle⟩ : ∃ y', (if m ≤ 2 then i64 (y - 1) else pure y) = .ok y' ∧
      (y' = if m ≤ 2 then y - 1 else y) := by
    split_ifs
    · exact ⟨y - 1, i64_small (by omega) (by omega), rfl⟩
    · exact ⟨y, rfl, rfl⟩
  have hb : -1 ≤ y' ∧ y' ≤ 10000 := by split_ifs at hle <;> omega
  have hmod : (m + 9).tmod 12 = (m + 9) % 12 := Int.tmod_eq_emod_of_nonneg (by omega)
  rw [daysFromCivil_eq y 1 hm.1, ← hle]
  unfold daysFromCivilM
  rw [hy']
  simp only [bind, Except.bind]
  simp (disch := omega) only [i64_small, hmod, Int.tdiv_eq_ediv_of_nonneg]

/-- Within a month the days are counted. -/
theorem daysFromCivil_day (y m d : Int) :
    daysFromCivil y m d = daysFromCivil y m 1 + (d - 1) := by
  rw [daysFromCivil_formula y m d, daysFromCivil_formula y m 1]
  simp only
  omega

/-- The count of the calendar. -/
theorem daysFromCivil_calendar (y d : Int) {m : Int} (h₁ : 1 ≤ m) (h₂ : m ≤ 12) :
    daysFromCivil y m d = daysSince 1970 y m d := by
  have hepoch : daysFromCivil 1970 1 1 = 0 := by decide
  have hcount := daysSince_unique (fun _ _ => daysFromCivil_month) daysFromCivil_day 1970 y d h₁ h₂
  rw [hepoch, zero_add] at hcount
  exact hcount

theorem daysFromCivil_bounds {y m : Int} (hy : 1 ≤ y ∧ y ≤ 9999) (hm : 1 ≤ m ∧ m ≤ 12) :
    -1000000 ≤ daysFromCivil y m 1 ∧ daysFromCivil y m 1 ≤ 4000000 := by
  rw [daysFromCivil_eq y 1 hm.1]
  simp only
  split_ifs <;> omega

/-- The first of the next month. -/
theorem nextFirst_eq {y m : Int} (hy : 1 ≤ y ∧ y ≤ 9999) (hm : 1 ≤ m ∧ m ≤ 12) :
    (if m = 12 then do daysFromCivilM i64 (← i64 (y + 1)) 1 1
      else do daysFromCivilM i64 y (← i64 (m + 1)) 1) =
      .ok (daysFromCivil (nextMonth y m).1 (nextMonth y m).2 1) := by
  unfold nextMonth
  split_ifs with h12
  · simp only [i64_small (by omega : -1000000000000 ≤ y + 1) (by omega), bind, Except.bind]
    exact daysFromCivilM_i64 (by omega) (by omega)
  · simp only [i64_small (by omega : -1000000000000 ≤ m + 1) (by omega), bind, Except.bind]
    exact daysFromCivilM_i64 (by omega) (by omega)

/-- Given the first of the month and of the next, the rest is small numbers. -/
theorem dateCutoff_of_first {y m d first length : Int} (hy : 1 ≤ y ∧ y ≤ 9999)
    (hm : 1 ≤ m ∧ m ≤ 12) (hd : 1 ≤ d) (hfirst : -1000000 ≤ first ∧ first ≤ 4000000)
    (hlen : 28 ≤ length ∧ length ≤ 31) (hthis : daysFromCivilM i64 y m 1 = .ok first)
    (hnext : (if m = 12 then do daysFromCivilM i64 (← i64 (y + 1)) 1 1
      else do daysFromCivilM i64 y (← i64 (m + 1)) 1) = .ok (first + length)) :
    dateCutoff y m d = if d ≤ length then .ok ((first + (d - 1)) * 86400)
      else .error (.bail .badDate) := by
  unfold dateCutoff
  rw [if_neg (by omega), hthis, hnext]
  simp only [bind, Except.bind, add_sub_cancel_left]
  rw [i64_small (by omega) (by omega)]
  by_cases hlast : d ≤ length
  · rw [if_pos hlast]
    simp only [not_lt.mpr hlast, if_false]
    rw [i64_small (by omega) (by omega)]
    simp only
    rw [i64_small (by omega) (by omega)]
    simp only
    rw [i64_small (by omega) (by omega), add_sub_assoc]
  · rw [if_neg hlast]
    simp only [not_le.mp hlast, if_true]

/-- **A date of the calendar is accepted, and nothing else; nothing overflows.** -/
theorem dateCutoff_eq (y m d : Int) :
    dateCutoff y m d = if (1 ≤ y ∧ y ≤ 9999) ∧ IsDate y m d then .ok (daysFromCivil y m d * 86400)
      else .error (.bail .badDate) := by
  by_cases hrange : ¬ (1 ≤ y ∧ y ≤ 9999) ∨ ¬ (1 ≤ m ∧ m ≤ 12) ∨ d < 1
  · have hnot : ¬ ((1 ≤ y ∧ y ≤ 9999) ∧ IsDate y m d) := by
      rintro ⟨hy, hdate⟩
      rcases hrange with h | h | h
      · exact h hy
      · exact h hdate.month
      · exact absurd hdate.day.1 (by omega)
    unfold dateCutoff
    rw [if_pos hrange, if_neg hnot]
  · simp only [not_or, not_not, not_lt] at hrange
    obtain ⟨hy, hm, hd⟩ := hrange
    have hnext := nextFirst_eq hy hm
    rw [daysFromCivil_month hm.1 hm.2] at hnext
    rw [dateCutoff_of_first hy hm hd (daysFromCivil_bounds hy hm) (monthLength_bounds y m)
      (daysFromCivilM_i64 (by omega) hm) hnext, ← daysFromCivil_day]
    refine if_congr ?_ rfl rfl
    exact ⟨fun hlast => ⟨hy, hm, hd, hlast⟩, fun hdate => hdate.2.day.2⟩

/-! ## The parts of a date -/

theorem splitn_cons {c : Char} {a : List Char} (h : c ∉ a) (n : ℕ) (rest : List Char) :
    splitn c (n + 2) (a ++ c :: rest) = a :: splitn c (n + 1) rest := by
  rw [splitn, dropWhile_bne h, takeWhile_bne h]

theorem splitn_single {c : Char} {text : List Char} (h : c ∉ text) (n : ℕ) :
    splitn c (n + 1) text = [text] := by
  cases n with
  | zero => rfl
  | succ n =>
    have hdrop := @List.dropWhile_append_of_pos _ _ _ [] (bne_of_notMem h)
    rw [List.append_nil] at hdrop
    rw [splitn, hdrop]
    rfl

/-- A number of a date is a positive one, and its text has no dash. -/
theorem not_mem_of_parseI64 {text : List Char} {n : Int} (h : parseI64 text = some n)
    (hn : 0 < n) : '-' ∉ text := by
  obtain ⟨sign, digits, rfl, hsign, hall, -⟩ := parseI64_pos.mp ⟨h, hn⟩
  intro hmem
  rcases List.mem_append.mp hmem with hmem | hmem
  · rcases hsign with rfl | rfl
    · exact absurd hmem List.not_mem_nil
    · exact absurd (List.mem_singleton.mp hmem) (by decide)
  · exact absurd (List.all_eq_true.mp hall _ hmem) (by decide)

/-- `splitn` cuts as often as it is told, a text of three parts the way `split` would. -/
theorem splitn_three (text : List Char) :
    splitn '-' 3 text = text.splitOn '-' ∨
      ∃ a b e, splitn '-' 3 text = [a, b, e] ∧ '-' ∈ e ∧ 4 ≤ (text.splitOn '-').length := by
  by_cases h : '-' ∈ text
  · obtain ⟨a, rest, rfl, ha⟩ := List.eq_append_cons_of_mem h
    rw [splitn_cons ha, List.splitOn_append_cons_self, List.splitOn_eq_singleton ha]
    by_cases hrest : '-' ∈ rest
    · obtain ⟨b, e, rfl, hb⟩ := List.eq_append_cons_of_mem hrest
      rw [splitn_cons hb, List.splitOn_append_cons_self, List.splitOn_eq_singleton hb]
      by_cases he : '-' ∈ e
      · obtain ⟨x, y, rfl, -⟩ := List.eq_append_cons_of_mem he
        refine Or.inr ⟨a, b, _, rfl, he, ?_⟩
        rw [List.splitOn_append_cons_self]
        have hx := List.length_pos_iff.mpr (List.splitOn_ne_nil '-' x)
        have hy := List.length_pos_iff.mpr (List.splitOn_ne_nil '-' y)
        simp only [List.length_append, List.length_singleton]
        omega
      · rw [List.splitOn_eq_singleton he]
        exact Or.inl rfl
    · rw [splitn_single hrest, List.splitOn_eq_singleton hrest]
      exact Or.inl rfl
  · rw [splitn_single h, List.splitOn_eq_singleton h]
    exact Or.inl rfl

/-- The three parts of a date are all the parts there are. -/
theorem date_parts {y m d : Int} (hdate : IsDate y m d) (text : List Char) :
    (splitn '-' 3 text).map parseI64 = [some y, some m, some d] ↔
      (text.splitOn '-').map parseI64 = [some y, some m, some d] := by
  rcases splitn_three text with heq | ⟨a, b, e, heq, he, hlen⟩
  · rw [heq]
  · constructor
    · intro h
      simp only [heq, List.map_cons, List.map_nil, List.cons.injEq, and_true] at h
      exact absurd he (not_mem_of_parseI64 h.2.2 hdate.day.1)
    · intro h
      have hthree := congrArg List.length h
      rw [List.length_map] at hthree
      simp only [List.length_cons, List.length_nil] at hthree
      omega

/-- **A text is accepted when its parts are the numbers of a date.** -/
theorem parseCutoff_date {text : List Char} (h : '-' ∈ text) (now c : Int) :
    parseCutoff text now = .ok c ↔
      ∃ y m d, (text.splitOn '-').map parseI64 = [some y, some m, some d] ∧
        (1 ≤ y ∧ y ≤ 9999) ∧ IsDate y m d ∧ c = daysFromCivil y m d * 86400 := by
  have hdash : ¬ ¬ text.contains '-' = true := by simpa using h
  unfold parseCutoff
  rw [if_neg hdash]
  constructor
  · intro hok
    split at hok
    · rename_i y m d hparts
      rw [dateCutoff_eq] at hok
      split_ifs at hok with hdate
      exact ⟨y, m, d, (date_parts hdate.2 text).mp hparts, hdate.1, hdate.2,
        (Except.ok.inj hok).symm⟩
    · exact absurd hok (by simp)
  · rintro ⟨y, m, d, hparts, hy, hdate, rfl⟩
    rw [(date_parts hdate text).mpr hparts]
    simp only [dateCutoff_eq, hy, hdate, and_self, if_true]

theorem parseCutoff_date_panic {text : List Char} (h : '-' ∈ text) (now : Int) (p : Panic) :
    parseCutoff text now ≠ .error (.panic p) := by
  have hdash : ¬ ¬ text.contains '-' = true := by simpa using h
  unfold parseCutoff
  rw [if_neg hdash]
  split
  · rw [dateCutoff_eq]
    split_ifs <;> simp
  · simp

/-- **A cutoff that names a date is midnight of that date**, counted in days of the calendar: the
formula is the day count of the calendar, and a text with a dash is read exactly when its parts are
the numbers of a date of a year from 1 to 9999. -/
theorem cutoff_calendar :
    daysFromCivil 1970 1 1 = 0 ∧
    (∀ y m : Int, 1 ≤ m → m ≤ 12 →
      daysFromCivil (nextMonth y m).1 (nextMonth y m).2 1 - daysFromCivil y m 1 = monthLength y m) ∧
    (∀ y m d : Int, IsDate y m d → daysFromCivil y m d = daysSince 1970 y m d) ∧
    ∀ (text : List Char) (now : Int), '-' ∈ text →
      (∀ p, parseCutoff text now ≠ .error (.panic p)) ∧
      ∀ c, parseCutoff text now = .ok c ↔
        ∃ y m d, (text.splitOn '-').map parseI64 = [some y, some m, some d] ∧
          (1 ≤ y ∧ y ≤ 9999) ∧ IsDate y m d ∧ c = 86400 * daysSince 1970 y m d := by
  refine ⟨by decide, ?_, ?_, ?_⟩
  · intro y m h₁ h₂
    rw [daysFromCivil_month h₁ h₂, add_sub_cancel_left]
  · intro y m d h
    exact daysFromCivil_calendar y d h.month.1 h.month.2
  · intro text now hdash
    refine ⟨parseCutoff_date_panic hdash now, fun c => ?_⟩
    rw [parseCutoff_date hdash now c]
    constructor
    · rintro ⟨y, m, d, hparts, hy, hdate, rfl⟩
      refine ⟨y, m, d, hparts, hy, hdate, ?_⟩
      rw [daysFromCivil_calendar y d hdate.month.1 hdate.month.2, mul_comm]
    · rintro ⟨y, m, d, hparts, hy, hdate, rfl⟩
      refine ⟨y, m, d, hparts, hy, hdate, ?_⟩
      rw [daysFromCivil_calendar y d hdate.month.1 hdate.month.2, mul_comm]

/-- The leap day of 2024. -/
theorem cutoff_calendar_leapDay :
    daysFromCivil 2024 3 1 - daysFromCivil 2024 2 1 = 29 ∧
      parseCutoff "2024-02-29".toList 0 = .ok (86400 * daysSince 1970 2024 2 29) := by
  obtain ⟨-, hmonth, -, hparse⟩ := cutoff_calendar
  refine ⟨hmonth 2024 2 (by decide) (by decide), ?_⟩
  have hdash : '-' ∈ "2024-02-29".toList := List.contains_iff_mem.mp (by decide)
  refine ((hparse "2024-02-29".toList 0 hdash).2 _).mpr ⟨2024, 2, 29, ?_, ?_, ?_, rfl⟩
  · decide
  · decide
  · decide

/-! ## The claim on ages -/

/-- A text that ends in one byte is an age or refused. -/
theorem parseDuration_isAge {a : List Char} {c : Char} (hc : c.utf8Size = 1) (n : Int) :
    parseDuration (a ++ [c]) = .ok n ↔ IsAge (a ++ [c]) n := by
  rw [parseDuration_last hc]
  constructor
  · rintro ⟨scale, v, hscale, hv, hn, hfits⟩
    obtain ⟨sign, digits, rfl, hsign, hall, hpos, hsmall, rfl⟩ := parseI64_pos.mp hv
    exact ⟨sign, digits, c, scale, rfl, hsign, hall, scale?_eq_some.mp hscale, hpos, hsmall, hn,
      hfits⟩
  · rintro ⟨sign, digits, unit, scale, htext, hsign, hall, hscale, hpos, hv, hn, hfits⟩
    obtain ⟨rfl, hunit⟩ := List.append_inj' htext rfl
    obtain rfl := List.singleton_inj.mp hunit
    exact ⟨scale, _, scale?_eq_some.mpr hscale,
      parseI64_pos.mpr ⟨sign, digits, rfl, hsign, hall, hpos, hv, rfl⟩, hn, hfits⟩

/-- Where the cut succeeds, neither parser panics. -/
theorem returns_of_cut {text : List Char} {parts : List Char × List Char}
    (hcut : splitAt (utf8Len text - 1) text = .ok parts) (now : Int) (p : Panic) :
    parseDuration text ≠ .error (.panic p) ∧ parseCutoff text now ≠ .error (.panic p) := by
  have hduration : parseDuration text ≠ .error (.panic p) := by
    intro h
    rw [parseDuration_panic h] at hcut
    exact absurd hcut (by simp)
  refine ⟨hduration, ?_⟩
  by_cases hdash : '-' ∈ text
  · exact parseCutoff_date_panic hdash now p
  · have hnot : ¬ text.contains '-' = true := by simpa using hdash
    unfold parseCutoff
    rw [if_pos hnot]
    cases h : parseDuration text with
    | error e =>
      rw [h] at hduration
      simp only [bind, Except.bind, ne_eq, Except.error.injEq] at hduration ⊢
      exact hduration
    | ok n =>
      simp only [bind, Except.bind]
      split_ifs <;> simp

/-- **An age is read as its grammar says, unless its last character is wider than a byte**: the cut
before the last byte is then inside the character, and the process stops. -/
theorem parsesAges_iff (text : List Char) (now : Int) :
    ParsesAges text now ↔ ∀ c, text.getLast? = some c → c.utf8Size = 1 := by
  constructor
  · intro h c hlast
    by_contra hwide
    obtain ⟨a, rfl⟩ := List.getLast?_eq_some_iff.mp hlast
    refine h.duration_returns .charBoundary ?_
    unfold parseDuration
    rw [splitAt_wide hwide]
    rfl
  · intro h
    cases hlast : text.getLast? with
    | none =>
      obtain rfl := List.getLast?_eq_none_iff.mp hlast
      have hcut : splitAt (utf8Len [] - 1) [] = .ok ([], []) := rfl
      refine ⟨fun p => (returns_of_cut hcut now p).1, fun p => (returns_of_cut hcut now p).2, ?_,
        fun hdash c => parseCutoff_age hdash now c⟩
      intro n
      have hbad : parseDuration [] = .error (.bail .badDuration) := rfl
      rw [hbad]
      constructor
      · intro h
        exact absurd h (by simp)
      · rintro ⟨sign, digits, unit, scale, htext, -⟩
        exact absurd htext.symm (List.append_ne_nil_of_right_ne_nil _ (List.cons_ne_nil _ _))
    | some c =>
      obtain ⟨a, rfl⟩ := List.getLast?_eq_some_iff.mp hlast
      have hc := h c hlast
      have hcut := splitAt_last (a := a) hc
      exact ⟨fun p => (returns_of_cut hcut now p).1, fun p => (returns_of_cut hcut now p).2,
        parseDuration_isAge hc, fun hdash c => parseCutoff_age hdash now c⟩

/-- An age with a wide last character stops the process: `é` is two bytes. -/
theorem parsesAges_not_all :
    ¬ ∀ (text : List Char) (now : Int), IsI64 now → ParsesAges text now := by
  intro h
  have hp : parseDuration ['3', '0', 'é'] = .error (.panic .charBoundary) := by decide
  exact (h ['3', '0', 'é'] 0 (by decide)).duration_returns .charBoundary hp

end Garret.Admin
