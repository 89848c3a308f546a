import Mathlib.Data.List.TakeDrop
import Mathlib.Data.String.Basic

/-!
# Base64

The standard alphabet with padding: three bytes are four characters, and one or two bytes at the end
are two or three characters filled up with `=`. `decode` takes exactly what `encode` writes: the
padding must be there and the bits it stands for must be zero.
-/

namespace Garret.Lib.Base64

/-- The characters of the values from 0 to 63. -/
def alphabet : List Char :=
  "ABCDEFGHIJKLMNOPQRSTUVWXYZabcdefghijklmnopqrstuvwxyz0123456789+/".toList

/-- The character of six bits. -/
def char (n : ℕ) : Char := alphabet.getD n '='

/-- The six bits of a character. -/
def value (c : Char) : Option ℕ := if c ∈ alphabet then some (alphabet.idxOf c) else none

/-- Three bytes at a time, the rest padded. -/
def encode : List UInt8 → List Char
  | a :: b :: c :: rest =>
    char (a.toNat / 4) :: char (a.toNat % 4 * 16 + b.toNat / 16) ::
      char (b.toNat % 16 * 4 + c.toNat / 64) :: char (c.toNat % 64) :: encode rest
  | [a, b] => [char (a.toNat / 4), char (a.toNat % 4 * 16 + b.toNat / 16),
      char (b.toNat % 16 * 4), '=']
  | [a] => [char (a.toNat / 4), char (a.toNat % 4 * 16), '=', '=']
  | [] => []

/-- The byte whose value is `n`. -/
def byte (n : ℕ) : UInt8 := UInt8.ofNat n

/-- Four characters at a time; `none` where `encode` would have written something else. -/
def decode : List Char → Option (List UInt8)
  | w :: x :: y :: z :: rest => do
    let w ← value w
    let x ← value x
    if z = '=' ∧ rest = [] then
      if y = '=' then
        if x % 16 = 0 then some [byte (w * 4 + x / 16)] else none
      else
        let y ← value y
        if y % 4 = 0 then some [byte (w * 4 + x / 16), byte (x % 16 * 16 + y / 4)] else none
    else
      let y ← value y
      let z ← value z
      let rest ← decode rest
      some (byte (w * 4 + x / 16) :: byte (x % 16 * 16 + y / 4) :: byte (y % 4 * 64 + z) :: rest)
  | [] => some []
  | _ => none

/-! ## What these compute -/

theorem char_eq_getElem {n : ℕ} (h : n < alphabet.length) : char n = alphabet[n] :=
  (List.getElem_eq_getD '=').symm

theorem value_char {n : ℕ} (h : n < 64) : value (char n) = some n := by
  have hnodup : alphabet.Nodup := by decide
  have hlen : n < alphabet.length := h
  rw [char_eq_getElem hlen, value, if_pos (List.getElem_mem hlen), hnodup.idxOf_getElem]

/-- The padding is not a character of the alphabet. -/
theorem char_ne {n : ℕ} (h : n < 64) : char n ≠ '=' := by
  have hlen : n < alphabet.length := h
  intro he
  have hmem : '=' ∈ alphabet := by
    rw [← he, char_eq_getElem hlen]
    exact List.getElem_mem hlen
  exact absurd hmem (by decide)

/-- **Four characters for three bytes or less.** -/
theorem length_encode (bytes : List UInt8) :
    (encode bytes).length = (bytes.length + 2) / 3 * 4 := by
  induction bytes using encode.induct with
  | case1 a b c rest ih =>
    simp only [encode, List.length_cons, ih]
    omega
  | case2 a b => simp [encode]
  | case3 a => simp [encode]
  | case4 => rfl

theorem byte_eq {n : ℕ} {a : UInt8} (h : n = a.toNat) : byte n = a := by
  rw [h, byte, UInt8.ofNat_toNat]

/-- **What is encoded is decoded.** -/
theorem decode_encode (bytes : List UInt8) : decode (encode bytes) = some bytes := by
  induction bytes using encode.induct with
  | case1 a b c rest ih =>
    have ha := a.toNat_lt
    have hb := b.toNat_lt
    have hc := c.toNat_lt
    have hlast : char (c.toNat % 64) ≠ '=' := char_ne (by omega)
    have first : byte (a.toNat / 4 * 4 + (a.toNat % 4 * 16 + b.toNat / 16) / 16) = a :=
      byte_eq (by omega)
    have second : byte ((a.toNat % 4 * 16 + b.toNat / 16) % 16 * 16 +
        (b.toNat % 16 * 4 + c.toNat / 64) / 4) = b := byte_eq (by omega)
    have third : byte ((b.toNat % 16 * 4 + c.toNat / 64) % 4 * 64 + c.toNat % 64) = c :=
      byte_eq (by omega)
    rw [encode, decode, value_char (by omega), value_char (by omega), value_char (by omega),
      value_char (by omega), ih]
    simp only [Option.bind_eq_bind, Option.bind_some, hlast, false_and, if_false, first, second,
      third]
  | case2 a b =>
    have ha := a.toNat_lt
    have hb := b.toNat_lt
    have hlast : char (b.toNat % 16 * 4) ≠ '=' := char_ne (by omega)
    have first : byte (a.toNat / 4 * 4 + (a.toNat % 4 * 16 + b.toNat / 16) / 16) = a :=
      byte_eq (by omega)
    have second : byte ((a.toNat % 4 * 16 + b.toNat / 16) % 16 * 16 + b.toNat % 16 * 4 / 4) = b :=
      byte_eq (by omega)
    have hzero : b.toNat % 16 * 4 % 4 = 0 := by omega
    rw [encode, decode, value_char (by omega), value_char (by omega), value_char (by omega)]
    simp only [Option.bind_eq_bind, Option.bind_some, and_self, if_true, if_neg hlast, if_pos hzero,
      first, second]
  | case3 a =>
    have ha := a.toNat_lt
    have first : byte (a.toNat / 4 * 4 + a.toNat % 4 * 16 / 16) = a := byte_eq (by omega)
    have hzero : a.toNat % 4 * 16 % 16 = 0 := by omega
    rw [encode, decode, value_char (by omega), value_char (by omega)]
    simp only [Option.bind_eq_bind, Option.bind_some, and_self, if_true, if_pos hzero, first]
  | case4 => rfl

end Garret.Lib.Base64
