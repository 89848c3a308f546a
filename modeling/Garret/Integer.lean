import Mathlib.Algebra.Order.Ring.Int
import Mathlib.Data.String.Basic

/-!
# `i64` as text

Model of `i64::from_str` and of `Display` for `i64`. A sign is optional, at least one digit is
required and nothing else is allowed; a value outside the type is refused. `Display` is `toString`
of the integer. What is written is read back (`parseI64_toString`).
-/

namespace Garret

/-- The least value of an `i64`. -/
def i64Min : Int := -9223372036854775808

/-- The largest value of an SQLite integer and of an `i64`. -/
def i64Max : Int := 9223372036854775807

/-- A value of type `i64`. -/
def IsI64 (n : Int) : Prop := i64Min ≤ n ∧ n ≤ i64Max

instance (n : Int) : Decidable (IsI64 n) := inferInstanceAs (Decidable (_ ∧ _))

/-- The sign of a number and what follows it. -/
def splitSign : List Char → Bool × List Char
  | '-' :: digits => (true, digits)
  | '+' :: digits => (false, digits)
  | digits => (false, digits)

/-- `text.parse::<i64>()`. -/
def parseI64 (text : List Char) : Option Int :=
  let (negative, digits) := splitSign text
  if digits.isEmpty || !digits.all Char.isDigit then none
  else
    let n : Int := Nat.ofDigitChars 10 digits 0
    let n := if negative then -n else n
    if IsI64 n then some n else none

/-- Text without a sign is all digits, or refused. -/
theorem splitSign_digits {digits : List Char} (h : digits.all Char.isDigit = true) :
    splitSign digits = (false, digits) := by
  cases digits with
  | nil => rfl
  | cons c cs =>
    have hc : c.isDigit = true := List.all_eq_true.mp h c List.mem_cons_self
    unfold splitSign
    split
    · rename_i heq
      obtain ⟨rfl, -⟩ := List.cons.inj heq
      exact absurd hc (by decide)
    · rename_i heq
      obtain ⟨rfl, -⟩ := List.cons.inj heq
      exact absurd hc (by decide)
    · rfl

theorem all_isDigit_toDigits (n : ℕ) : (Nat.toDigits 10 n).all Char.isDigit = true :=
  List.all_eq_true.mpr fun _ hc => Nat.isDigit_of_mem_toDigits (by decide) (by decide) hc

theorem toList_toString_negSucc (m : ℕ) :
    (toString (Int.negSucc m)).toList = '-' :: Nat.toDigits 10 (m + 1) := by
  have hrepr : toString (Int.negSucc m) = "-" ++ (m + 1).repr := rfl
  rw [hrepr, String.toList_append, Nat.toList_repr]
  rfl

/-- The text of an integer is a sign and digits. -/
theorem toList_toString_int (n : Int) :
    (toString n).toList = Nat.toDigits 10 n.toNat ∨
      ∃ m, (toString n).toList = '-' :: Nat.toDigits 10 m := by
  cases n with
  | ofNat m => exact Or.inl Nat.toList_repr
  | negSucc m => exact Or.inr ⟨m + 1, toList_toString_negSucc m⟩

theorem not_mem_toString_int {c : Char} (hsign : c ≠ '-') (hdigit : c.isDigit = false) (n : Int) :
    c ∉ (toString n).toList := by
  intro hc
  have hnot : ∀ m, c ∉ Nat.toDigits 10 m := by
    intro m hm
    rw [Nat.isDigit_of_mem_toDigits (by decide) (by decide) hm] at hdigit
    exact absurd hdigit (by decide)
  rcases toList_toString_int n with h | ⟨m, h⟩
  · exact hnot _ (h ▸ hc)
  · rw [h] at hc
    rcases List.mem_cons.mp hc with h | h
    · exact hsign h
    · exact hnot m h

/-- A signed number whose digits are those of `n`. -/
theorem parseI64_digits {text : List Char} {negative : Bool} {n : ℕ}
    (h : splitSign text = (negative, Nat.toDigits 10 n))
    (hrange : IsI64 (if negative then -(n : Int) else n)) :
    parseI64 text = some (if negative then -(n : Int) else n) := by
  unfold parseI64
  rw [h]
  simp only [List.isEmpty_eq_false_iff.mpr Nat.toDigits_ne_nil, all_isDigit_toDigits,
    Nat.ofDigitChars_ten_toDigits, Bool.not_true, Bool.or_self, Bool.false_eq_true, if_false,
    hrange, if_true]

/-- **An `i64` is read back from its text.** -/
theorem parseI64_toString {n : Int} (h : IsI64 n) : parseI64 (toString n).toList = some n := by
  cases n with
  | ofNat m =>
    have htext : (toString (Int.ofNat m)).toList = Nat.toDigits 10 m := Nat.toList_repr
    rw [htext]
    exact parseI64_digits (splitSign_digits (all_isDigit_toDigits m)) h
  | negSucc m =>
    have htext := toList_toString_negSucc m
    have hsign : splitSign ('-' :: Nat.toDigits 10 (m + 1)) = (true, Nat.toDigits 10 (m + 1)) := rfl
    rw [htext]
    exact parseI64_digits hsign h

end Garret
