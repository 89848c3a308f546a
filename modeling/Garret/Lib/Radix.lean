import Mathlib.Data.Nat.Digits.Lemmas

/-!
# Numerals of a fixed length

A list of words is the numeral of a number, least word first (`Nat.ofDigits`). Read in another base
that is a power of two, its digits straddle the words: `window` is such a digit, put together from
the two words it meets, and enough of them are a numeral of the number again
(`ofDigits_map_range`).
-/

namespace Garret.Lib

/-- The `l` least digits of a number below `b ^ l` are a numeral of it. -/
theorem ofDigits_map_range {b : ℕ} : ∀ (l : ℕ) {n : ℕ}, n < b ^ l →
    Nat.ofDigits b ((List.range l).map fun i => n / b ^ i % b) = n
  | 0, n, h => by
    rw [pow_zero, Nat.lt_one_iff] at h
    simp [h]
  | l + 1, n, h => by
    have hrest : n / b < b ^ l := by
      rw [pow_succ'] at h
      exact Nat.div_lt_of_lt_mul h
    have htail : ((List.range l).map Nat.succ).map (fun i => n / b ^ i % b) =
        (List.range l).map fun i => n / b / b ^ i % b := by
      rw [List.map_map]
      refine List.map_congr_left fun i _ => ?_
      rw [Function.comp_apply, Nat.succ_eq_add_one, pow_succ', Nat.div_div_eq_div_mul]
    rw [List.range_succ_eq_map, List.map_cons, htail, Nat.ofDigits_cons, ofDigits_map_range l hrest,
      pow_zero, Nat.div_one]
    exact Nat.mod_add_div n b

/-- A bit of a numeral is a bit of one of its words. -/
theorem testBit_ofDigits {c : ℕ} (hc : 0 < c) {words : List ℕ} (h : ∀ x ∈ words, x < 2 ^ c) :
    ∀ k, (Nat.ofDigits (2 ^ c) words).testBit k = (words.getD (k / c) 0).testBit (k % c) := by
  induction words with
  | nil => simp
  | cons x words ih =>
    intro k
    have ih := ih fun y hy => h y (List.mem_cons_of_mem _ hy)
    have hx : x < 2 ^ c := h x List.mem_cons_self
    rw [Nat.ofDigits_cons, Nat.add_comm, Nat.testBit_two_pow_mul_add _ hx]
    by_cases hk : k < c
    · rw [if_pos hk, Nat.div_eq_of_lt hk, Nat.mod_eq_of_lt hk, List.getD_cons_zero]
    · have hle : c ≤ k := Nat.le_of_not_lt hk
      have hdiv : k / c = (k - c) / c + 1 := by
        rw [← Nat.sub_add_cancel hle, Nat.add_div_right _ hc, Nat.add_sub_cancel]
      have hmod : k % c = (k - c) % c := Nat.mod_eq_sub_mod hle
      rw [if_neg hk, ih, hdiv, hmod, List.getD_cons_succ]

theorem getD_lt {b : ℕ} (hb : 0 < b) {words : List ℕ} (h : ∀ x ∈ words, x < b) (i : ℕ) :
    words.getD i 0 < b := by
  rw [List.getD_eq_getElem?_getD]
  cases hi : words[i]? with
  | none => exact hb
  | some x => exact h x (List.mem_of_getElem? hi)

/-- **A digit across two words**: what is left of the word at `i` above its low `j` bits, with the
next word on top. -/
theorem window {c w : ℕ} (hw : w ≤ c) {words : List ℕ} (h : ∀ x ∈ words, x < 2 ^ c) {i j : ℕ}
    (hj : j < c) :
    (words.getD i 0 >>> j ||| words.getD (i + 1) 0 <<< (c - j)) % 2 ^ w =
      Nat.ofDigits (2 ^ c) words / 2 ^ (c * i + j) % 2 ^ w := by
  have hc : 0 < c := Nat.zero_lt_of_lt hj
  apply Nat.eq_of_testBit_eq
  intro t
  rw [Nat.testBit_mod_two_pow, Nat.testBit_mod_two_pow, Nat.testBit_or, Nat.testBit_shiftRight,
    Nat.testBit_shiftLeft, Nat.testBit_div_two_pow, testBit_ofDigits hc h]
  by_cases ht : t < w
  · have hsum : c * i + j + t = j + t + c * i := by omega
    rw [Nat.add_comm t, hsum, Nat.add_mul_div_left _ _ hc, Nat.add_mul_mod_self_left]
    by_cases hlow : j + t < c
    · -- the bit is in the word at `i`
      have hnot : ¬ c - j ≤ t := by omega
      rw [Nat.div_eq_of_lt hlow, Nat.mod_eq_of_lt hlow, Nat.zero_add]
      simp [hnot]
    · -- it is in the next one
      have hdiv : (j + t) / c = 1 := by
        rw [Nat.div_eq_iff hc]
        omega
      have hmod : (j + t) % c = t - (c - j) := by
        rw [Nat.mod_eq_sub_mod (Nat.le_of_not_lt hlow), Nat.mod_eq_of_lt (by omega)]
        omega
      have hpast : (words.getD i 0).testBit (j + t) = false :=
        Nat.testBit_lt_two_pow ((getD_lt (Nat.two_pow_pos c) h i).trans_le
          (Nat.pow_le_pow_right (by omega) (Nat.le_of_not_lt hlow)))
      have hle : c - j ≤ t := by omega
      rw [hdiv, hmod, hpast, Nat.add_comm 1 i]
      simp [hle]
  · simp [ht]

end Garret.Lib
