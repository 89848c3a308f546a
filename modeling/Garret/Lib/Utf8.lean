import Mathlib.Data.String.Basic

/-!
# Byte order of strings

The order of the UTF-8 encodings of two strings, byte by byte, is the order of their characters
(`utf8_le_iff`). A list of strings sorted by one is sorted by the other, so a sort in byte order may
be stated with the order of `String`.
-/

namespace Garret.Lib

/-- The UTF-8 encoding of a list of characters. -/
def utf8 (l : List Char) : List UInt8 := l.flatMap String.utf8EncodeChar

@[simp] theorem utf8_nil : utf8 [] = [] := rfl

@[simp] theorem utf8_cons (c : Char) (l : List Char) :
    utf8 (c :: l) = String.utf8EncodeChar c ++ utf8 l := rfl

/-- The first byte that differs decides as the characters do, whatever follows. -/
theorem encode_lt {c d : Char} (h : c < d) (r s : List UInt8) :
    String.utf8EncodeChar c ++ r < String.utf8EncodeChar d ++ s := by
  have hlt : c.val.toNat < d.val.toNat := h
  have hmax : d.val.toNat < 1114112 := by
    rcases d.valid with hd | hd
    · exact Nat.lt_trans hd (by decide)
    · exact hd.2
  have h2 : ∀ n, n / 4096 = n / 64 / 64 := by omega
  have h3 : ∀ n, n / 262144 = n / 64 / 64 / 64 := by omega
  unfold String.utf8EncodeChar
  simp only [h2, h3]
  -- a longer encoding starts with a larger byte; equal lengths compare group by group
  split_ifs <;>
    simp only [List.cons_append, List.nil_append, List.cons_lt_cons_iff, UInt8.lt_iff_toNat_lt,
      ← UInt8.toNat_inj, UInt8.toNat_ofNat', Nat.reducePow] <;>
    omega

theorem utf8_lt {a : List Char} : ∀ {b : List Char}, a < b → utf8 a < utf8 b := by
  induction a with
  | nil =>
    intro b hb
    cases b with
    | nil => exact absurd hb (lt_irrefl _)
    | cons d b =>
      rw [utf8_nil, utf8_cons]
      cases henc : String.utf8EncodeChar d with
      | nil => exact absurd (congrArg List.length henc) (by simp [d.utf8Size_pos.ne'])
      | cons x xs => exact List.nil_lt_cons _ _
  | cons c a ih =>
    intro b hb
    cases b with
    | nil => exact absurd hb (List.not_lt_nil _)
    | cons d b =>
      rw [utf8_cons, utf8_cons]
      rcases List.cons_lt_cons_iff.mp hb with hlt | ⟨rfl, hlt⟩
      · exact encode_lt hlt _ _
      · exact List.append_left_lt (ih hlt)

/-- **Byte order is the order of strings.** -/
theorem utf8_le_iff {a b : String} : utf8 a.toList ≤ utf8 b.toList ↔ a ≤ b := by
  rw [String.le_iff_toList_le]
  constructor
  · intro h
    by_contra hlt
    exact h (utf8_lt (not_le.mp hlt))
  · intro h hlt
    rcases h.lt_or_eq with h | h
    · exact List.lt_asymm hlt (utf8_lt h)
    · exact List.lt_irrefl _ (h ▸ hlt)

/-! ## Sizes -/

theorem utf8ByteSize_ofList : ∀ {l : List Char}, (∀ c ∈ l, c.utf8Size = 1) →
    (String.ofList l).utf8ByteSize = l.length
  | [], _ => rfl
  | c :: l, h => by
    have hc : (String.ofList [c]).utf8ByteSize = 1 := by
      rw [← String.singleton_eq_ofList, String.utf8ByteSize_singleton, h c List.mem_cons_self]
    rw [← List.singleton_append, String.ofList_append, String.utf8ByteSize_append, hc,
      utf8ByteSize_ofList fun d hd => h d (List.mem_cons_of_mem _ hd), List.length_append,
      List.length_singleton]

/-- A text of one-byte characters has as many bytes as characters. -/
theorem utf8ByteSize_eq_length {s : String} (h : ∀ c ∈ s.toList, c.utf8Size = 1) :
    s.utf8ByteSize = s.length := by
  have hsize := utf8ByteSize_ofList h
  rwa [String.ofList_toList, String.length_toList] at hsize

end Garret.Lib
