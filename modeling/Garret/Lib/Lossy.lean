import Garret.Lib.Utf8
import Mathlib.Data.Char

/-!
# Bytes shown as text

`fromUtf8Lossy` reads bytes as UTF-8 and puts a replacement character for whatever is none: one for
each longest beginning of a character that does not go on as one. `trim` takes white space off both
ends. A text comes out of its own bytes as it was (`fromUtf8Lossy_utf8`).
-/

namespace Garret.Lib.Lossy

/-- A byte that goes on with a character. -/
def goesOn (b : ℕ) : Bool := 0x80 ≤ b && b ≤ 0xBF

/-- A second byte, after the first of three or four: none that would make the character one of fewer
bytes, a surrogate or too large. -/
def goesOnAfter (a b : ℕ) : Bool :=
  (if a = 0xE0 then 0xA0 else if a = 0xF0 then 0x90 else 0x80) ≤ b &&
    b ≤ if a = 0xED then 0x9F else if a = 0xF4 then 0x8F else 0xBF

/-- The first character, or `none` for a replacement, and how many bytes after the first it has. -/
def firstChar (a : ℕ) (rest : List ℕ) : Option Char × ℕ :=
  if a < 0x80 then (some (Char.ofNat a), 0)
  else if 0xC2 ≤ a ∧ a ≤ 0xDF then
    match rest with
    | b :: _ =>
      if goesOn b then (some (Char.ofNat (a % 32 * 64 + b % 64)), 1) else (none, 0)
    | [] => (none, 0)
  else if 0xE0 ≤ a ∧ a ≤ 0xEF then
    match rest with
    | b :: c :: _ =>
      if !goesOnAfter a b then (none, 0)
      else if !goesOn c then (none, 1)
      else (some (Char.ofNat (a % 16 * 4096 + b % 64 * 64 + c % 64)), 2)
    | [b] => (none, if goesOnAfter a b then 1 else 0)
    | [] => (none, 0)
  else if 0xF0 ≤ a ∧ a ≤ 0xF4 then
    match rest with
    | b :: c :: d :: _ =>
      if !goesOnAfter a b then (none, 0)
      else if !goesOn c then (none, 1)
      else if !goesOn d then (none, 2)
      else (some (Char.ofNat (a % 8 * 262144 + b % 64 * 4096 + c % 64 * 64 + d % 64)), 3)
    | [b, c] => (none, if !goesOnAfter a b then 0 else if !goesOn c then 1 else 2)
    | [b] => (none, if goesOnAfter a b then 1 else 0)
    | [] => (none, 0)
  else (none, 0)

/-- The characters of bytes, of which the first `n` belong to the character before. -/
def lossyFrom : ℕ → List ℕ → List Char
  | _, [] => []
  | n + 1, _ :: rest => lossyFrom n rest
  | 0, a :: rest => (firstChar a rest).1.getD '\uFFFD' :: lossyFrom (firstChar a rest).2 rest

/-- `String::from_utf8_lossy`. -/
def fromUtf8Lossy (bytes : List UInt8) : List Char := lossyFrom 0 (bytes.map UInt8.toNat)

/-- `char::is_whitespace`. -/
def isWhiteSpace (c : Char) : Bool :=
  c == ' ' || ('\t' ≤ c && c ≤ '\r') || c == '\u0085' || c == '\u00A0' || c == '\u1680' ||
    ('\u2000' ≤ c && c ≤ '\u200A') || c == '\u2028' || c == '\u2029' || c == '\u202F' ||
    c == '\u205F' || c == '\u3000'

/-- `str::trim`. -/
def trim (text : List Char) : List Char :=
  ((text.dropWhile isWhiteSpace).reverse.dropWhile isWhiteSpace).reverse

/-! ## Texts -/

theorem lossyFrom_append : ∀ (xs rest : List ℕ), lossyFrom xs.length (xs ++ rest) = lossyFrom 0 rest
  | [], _ => rfl
  | _ :: xs, rest => lossyFrom_append xs rest

theorem goesOn_low (v : ℕ) : goesOn (v % 64 + 0x80) = true := by
  simp only [goesOn, Bool.and_eq_true, decide_eq_true_eq]
  omega

/-! By how many bytes a character has, it is the first of them, whatever follows. -/

theorem firstChar_one {v : ℕ} (hv : v ≤ 0x7f) (rest : List ℕ) :
    firstChar v rest = (some (Char.ofNat v), 0) := by
  have h : v < 0x80 := by omega
  simp only [firstChar, if_pos h]

theorem firstChar_two {v : ℕ} (hv : 0x7f < v) (hv' : v ≤ 0x7ff) (rest : List ℕ) :
    firstChar (v / 64 + 0xC0) ((v % 64 + 0x80) :: rest) = (some (Char.ofNat v), 1) := by
  have h₁ : ¬v / 64 + 0xC0 < 0x80 := by omega
  have h₂ : 0xC2 ≤ v / 64 + 0xC0 ∧ v / 64 + 0xC0 ≤ 0xDF := by omega
  have hsum : (v / 64 + 0xC0) % 32 * 64 + (v % 64 + 0x80) % 64 = v := by omega
  simp only [firstChar, if_neg h₁, if_pos h₂, goesOn_low v, if_true, hsum]

theorem firstChar_three {v : ℕ} (hv : 0x7ff < v) (hv' : v ≤ 0xffff) (hs : v < 55296 ∨ 57343 < v)
    (rest : List ℕ) :
    firstChar (v / 4096 + 0xE0) ((v / 64 % 64 + 0x80) :: (v % 64 + 0x80) :: rest) =
      (some (Char.ofNat v), 2) := by
  have h₁ : ¬v / 4096 + 0xE0 < 0x80 := by omega
  have h₂ : ¬(0xC2 ≤ v / 4096 + 0xE0 ∧ v / 4096 + 0xE0 ≤ 0xDF) := by omega
  have h₃ : 0xE0 ≤ v / 4096 + 0xE0 ∧ v / 4096 + 0xE0 ≤ 0xEF := by omega
  have hb : goesOnAfter (v / 4096 + 0xE0) (v / 64 % 64 + 0x80) = true := by
    simp only [goesOnAfter, Bool.and_eq_true, decide_eq_true_eq]
    split_ifs <;> omega
  have hsum : (v / 4096 + 0xE0) % 16 * 4096 + (v / 64 % 64 + 0x80) % 64 * 64 +
      (v % 64 + 0x80) % 64 = v := by omega
  simp only [firstChar, if_neg h₁, if_neg h₂, if_pos h₃, hb, goesOn_low v, Bool.not_true,
    Bool.false_eq_true, if_false, hsum]

theorem firstChar_four {v : ℕ} (hv : 0xffff < v) (hv' : v < 1114112) (rest : List ℕ) :
    firstChar (v / 262144 + 0xF0)
        ((v / 4096 % 64 + 0x80) :: (v / 64 % 64 + 0x80) :: (v % 64 + 0x80) :: rest) =
      (some (Char.ofNat v), 3) := by
  have h₁ : ¬v / 262144 + 0xF0 < 0x80 := by omega
  have h₂ : ¬(0xC2 ≤ v / 262144 + 0xF0 ∧ v / 262144 + 0xF0 ≤ 0xDF) := by omega
  have h₃ : ¬(0xE0 ≤ v / 262144 + 0xF0 ∧ v / 262144 + 0xF0 ≤ 0xEF) := by omega
  have h₄ : 0xF0 ≤ v / 262144 + 0xF0 ∧ v / 262144 + 0xF0 ≤ 0xF4 := by omega
  have hb : goesOnAfter (v / 262144 + 0xF0) (v / 4096 % 64 + 0x80) = true := by
    simp only [goesOnAfter, Bool.and_eq_true, decide_eq_true_eq]
    split_ifs <;> omega
  have hsum : (v / 262144 + 0xF0) % 8 * 262144 + (v / 4096 % 64 + 0x80) % 64 * 4096 +
      (v / 64 % 64 + 0x80) % 64 * 64 + (v % 64 + 0x80) % 64 = v := by omega
  simp only [firstChar, if_neg h₁, if_neg h₂, if_neg h₃, if_pos h₄, hb, goesOn_low v,
    goesOn_low (v / 64), Bool.not_true, Bool.false_eq_true, if_false, hsum]

theorem firstChar_encode (c : Char) (rest : List ℕ) :
    ∃ a bs, (String.utf8EncodeChar c).map UInt8.toNat = a :: bs ∧
      firstChar a (bs ++ rest) = (some c, bs.length) := by
  have hmax : c.toNat < 1114112 ∧ (c.toNat < 55296 ∨ 57343 < c.toNat) := by
    rcases c.valid with h | ⟨h, h'⟩
    · exact ⟨Nat.lt_trans h (by decide), Or.inl h⟩
    · exact ⟨h', Or.inr h⟩
  have hc := Char.ofNat_toNat c
  unfold String.utf8EncodeChar
  rw [show c.val.toNat = c.toNat from rfl]
  generalize c.toNat = v at hc hmax
  subst hc
  by_cases h₁ : v ≤ 0x7f
  · refine ⟨v, [], ?_, firstChar_one h₁ rest⟩
    simp [h₁]
    omega
  by_cases h₂ : v ≤ 0x7ff
  · refine ⟨v / 64 + 0xC0, [v % 64 + 0x80], ?_, firstChar_two (by omega) h₂ rest⟩
    simp [h₁, h₂]
    omega
  by_cases h₃ : v ≤ 0xffff
  · refine ⟨v / 4096 + 0xE0, [v / 64 % 64 + 0x80, v % 64 + 0x80], ?_,
      firstChar_three (by omega) h₃ hmax.2 rest⟩
    simp [h₁, h₂, h₃]
    omega
  · refine ⟨v / 262144 + 0xF0, [v / 4096 % 64 + 0x80, v / 64 % 64 + 0x80, v % 64 + 0x80], ?_,
      firstChar_four (by omega) hmax.1 rest⟩
    simp [h₁, h₂, h₃]
    omega

/-- **A text is what its bytes show.** -/
theorem fromUtf8Lossy_utf8 : ∀ text : List Char, fromUtf8Lossy (utf8 text) = text
  | [] => rfl
  | c :: text => by
    obtain ⟨a, bs, henc, hfirst⟩ := firstChar_encode c ((utf8 text).map UInt8.toNat)
    have htext := fromUtf8Lossy_utf8 text
    unfold fromUtf8Lossy at htext ⊢
    rw [utf8_cons, List.map_append, henc, List.cons_append, lossyFrom, hfirst, lossyFrom_append,
      htext]
    rfl

/-- Three bytes of a character that wants four are one replacement. -/
example : fromUtf8Lossy [0xF0, 0x90, 0x80, 0x57] = ['\uFFFD', 'W'] := by decide

end Garret.Lib.Lossy
