import Garret.Upload.Storage
import Mathlib.Data.Nat.Log

/-!
# The byte budget in permits

Model of the arithmetic of `UploadLimits` (`crates/garret-server/src/storage.rs`): `budget`,
`units_ceil` and `units_for`. A `usize` is 64 bits wide; the counts are natural numbers, and
`Budget.InRange` says that none of them leaves the machine's range.

* `unitsFor_covers`: a reservation covers the buffer it is made for.
* `budget_bytes_lt`: the whole budget is less than one unit above the configured cap.
-/

namespace Garret

/-- `MIN_PART_SIZE` (`crates/garret-server/src/config.rs`). -/
def minPartSize : ℕ := 5 * 1024 * 1024

/-- `MAX_PART_SIZE`. -/
def maxPartSize : ℕ := 5 * 1024 * 1024 * 1024

/-- `usize::MAX`. -/
def usizeMax : ℕ := 2 ^ 64 - 1

/-- `units_ceil`. -/
def unitsCeil (bytes shift : ℕ) : ℕ :=
  (bytes >>> shift) + if bytes &&& ((1 <<< shift) - 1) ≠ 0 then 1 else 0

/-- `usize::trailing_zeros`. -/
def trailingZeros (n : ℕ) : ℕ := ((List.range 64).find? fun k => n.testBit k).getD 64

/-- The shift of `budget`: `ilog2` of the clamped `part_size >> 8`. -/
def unitShift (partSize : ℕ) : ℕ := Nat.log2 (min (max (partSize >>> 8) 1) (64 * 1024))

/-- `budget`: `(unit, part_units, total_units)`. -/
def budget (partSize maxInFlightBytes : ℕ) : ℕ × ℕ × ℕ :=
  let shift := unitShift partSize
  let unit := 1 <<< shift
  let partUnits := unitsCeil partSize shift
  let totalUnits := max (maxInFlightBytes >>> shift) partUnits
  (unit, partUnits, totalUnits)

/-- `units_for`: at least one permit, at most a part's. -/
def unitsFor (bytes unit partUnits : ℕ) : ℕ :=
  min (max (unitsCeil bytes (trailingZeros unit)) 1) partUnits

/-- `UploadLimits` with its budget. -/
structure Budget extends UploadLimits where
  unit : ℕ
  partUnits : ℕ
  totalUnits : ℕ

namespace Budget

/-- `UploadLimits::new`. -/
def new (limits : UploadLimits) (maxInFlightBytes : ℕ) : Budget :=
  let b := budget limits.partSize maxInFlightBytes
  { limits with unit := b.1, partUnits := b.2.1, totalUnits := b.2.2 }

/-- The permits `acquire` asks for. -/
def units (b : Budget) (bytes : ℕ) : ℕ := unitsFor bytes b.unit b.partUnits

/-- Every buffer of up to one part is paid for by the permits `acquire` asks for. -/
def Covers (b : Budget) : Prop := ∀ bytes ≤ b.partSize, bytes ≤ b.units bytes * b.unit

/-- No permit count leaves its type: the `u32` of `acquire_many_owned`, tokio's bound on the
permits of a semaphore, the `usize` products and sums. -/
structure InRange (b : Budget) : Prop where
  part : b.partUnits < 2 ^ 32
  total : b.totalUnits ≤ usizeMax >>> 3
  bytes : ∀ n ≤ b.partSize, b.units n * b.unit ≤ usizeMax
  ceil : ∀ n ≤ b.partSize, unitsCeil n (trailingZeros b.unit) ≤ usizeMax

theorem units_le (b : Budget) (bytes : ℕ) : b.units bytes ≤ b.partUnits := Nat.min_le_right ..

end Budget

/-! ## Rounding up to units -/

theorem unitsCeil_eq (bytes shift : ℕ) :
    unitsCeil bytes shift = bytes / 2 ^ shift + if bytes % 2 ^ shift ≠ 0 then 1 else 0 := by
  simp only [unitsCeil, Nat.shiftRight_eq_div_pow, Nat.one_shiftLeft,
    Nat.and_two_pow_sub_one_eq_mod]

theorem le_unitsCeil_mul (bytes shift : ℕ) : bytes ≤ unitsCeil bytes shift * 2 ^ shift := by
  have hdiv := Nat.div_add_mod bytes (2 ^ shift)
  have hmod := Nat.mod_lt bytes (Nat.two_pow_pos shift)
  rw [unitsCeil_eq, Nat.add_mul, Nat.mul_comm (bytes / 2 ^ shift)]
  split <;> omega

theorem unitsCeil_mul_lt (bytes shift : ℕ) :
    unitsCeil bytes shift * 2 ^ shift < bytes + 2 ^ shift := by
  have hdiv := Nat.div_add_mod bytes (2 ^ shift)
  have hpos := Nat.two_pow_pos shift
  rw [unitsCeil_eq, Nat.add_mul, Nat.mul_comm (bytes / 2 ^ shift)]
  split <;> omega

theorem unitsCeil_mono {a b : ℕ} (h : a ≤ b) (shift : ℕ) :
    unitsCeil a shift ≤ unitsCeil b shift := by
  have hpos := Nat.two_pow_pos shift
  have hlt := (unitsCeil_mul_lt a shift).trans_le
    (Nat.add_le_add_right (h.trans (le_unitsCeil_mul b shift)) _)
  rw [← Nat.succ_mul] at hlt
  exact Nat.lt_succ_iff.mp (Nat.lt_of_mul_lt_mul_right hlt)

theorem unitsCeil_pos {bytes : ℕ} (h : 0 < bytes) (shift : ℕ) : 0 < unitsCeil bytes shift := by
  have := le_unitsCeil_mul bytes shift
  exact Nat.pos_of_ne_zero fun h0 => by simp [h0] at this; omega

theorem trailingZeros_two_pow {shift : ℕ} (h : shift < 64) : trailingZeros (2 ^ shift) = shift := by
  have hfind : (List.range 64).find? (fun k => (2 ^ shift).testBit k) = some shift := by
    rw [List.find?_range_eq_some]
    refine ⟨by simp, List.mem_range.mpr h, fun k hk => ?_⟩
    simp only [Nat.testBit_two_pow, Bool.not_eq_eq_eq_not, Bool.not_true, decide_eq_false_iff_not]
    omega
  rw [trailingZeros, hfind, Option.getD_some]

/-! ## The configured budget -/

theorem unitShift_le (partSize : ℕ) : unitShift partSize ≤ 16 := by
  have hpos : min (max (partSize >>> 8) 1) (64 * 1024) ≠ 0 := by omega
  have hlt : unitShift partSize < 17 := by
    rw [unitShift, Nat.log2_lt hpos]
    omega
  omega

/-- From S3's smallest part on, a unit is at least 16 KiB. -/
theorem le_unitShift {partSize : ℕ} (h : minPartSize ≤ partSize) : 14 ≤ unitShift partSize := by
  have hpos : min (max (partSize >>> 8) 1) (64 * 1024) ≠ 0 := by omega
  rw [unitShift, Nat.le_log2 hpos, Nat.shiftRight_eq_div_pow]
  simp only [minPartSize] at h
  omega

section

variable (limits : UploadLimits) (cap : ℕ)

theorem new_unit : (Budget.new limits cap).unit = 2 ^ unitShift limits.partSize :=
  Nat.one_shiftLeft _

theorem new_partUnits :
    (Budget.new limits cap).partUnits = unitsCeil limits.partSize (unitShift limits.partSize) := rfl

theorem new_trailingZeros :
    trailingZeros (Budget.new limits cap).unit = unitShift limits.partSize := by
  rw [new_unit]
  exact trailingZeros_two_pow (by have := unitShift_le limits.partSize; omega)

/-- Up to a part, `units_for` is the rounded count. -/
theorem new_units {bytes : ℕ} (h : bytes ≤ limits.partSize) :
    (Budget.new limits cap).units bytes = max (unitsCeil bytes (unitShift limits.partSize)) 1 := by
  have hmono := unitsCeil_mono h (unitShift limits.partSize)
  have hpos := unitsCeil_pos limits.partSize_pos (unitShift limits.partSize)
  rw [Budget.units, unitsFor, new_trailingZeros, new_partUnits]
  omega

/-- **A reservation covers the buffer it is made for.** -/
theorem unitsFor_covers : (Budget.new limits cap).Covers := by
  intro bytes h
  have h' : bytes ≤ limits.partSize := h
  calc bytes ≤ unitsCeil bytes (unitShift limits.partSize) * 2 ^ unitShift limits.partSize :=
        le_unitsCeil_mul ..
    _ ≤ max (unitsCeil bytes (unitShift limits.partSize)) 1 * 2 ^ unitShift limits.partSize :=
        Nat.mul_le_mul_right _ (Nat.le_max_left ..)
    _ = (Budget.new limits cap).units bytes * (Budget.new limits cap).unit := by
        rw [new_units limits cap h', new_unit]

variable {limits} {cap}

/-- **The budget is less than one unit above the cap.** -/
theorem budget_bytes_lt (h : limits.partSize ≤ cap) :
    (Budget.new limits cap).totalUnits * (Budget.new limits cap).unit <
      cap + (Budget.new limits cap).unit := by
  have htotal : (Budget.new limits cap).totalUnits =
      max (cap / 2 ^ unitShift limits.partSize)
        (unitsCeil limits.partSize (unitShift limits.partSize)) := by
    rw [← Nat.shiftRight_eq_div_pow]
    rfl
  have hcap : cap / 2 ^ unitShift limits.partSize * 2 ^ unitShift limits.partSize ≤ cap :=
    Nat.div_mul_le_self ..
  have hpart := unitsCeil_mul_lt limits.partSize (unitShift limits.partSize)
  have hpos := Nat.two_pow_pos (unitShift limits.partSize)
  rw [htotal, new_unit, ← Nat.mul_max_mul_right]
  omega

theorem new_inRange (hmin : minPartSize ≤ limits.partSize) (hmax : limits.partSize ≤ maxPartSize)
    (hcap : cap ≤ usizeMax) : (Budget.new limits cap).InRange := by
  have hshift : unitShift limits.partSize = 14 ∨ unitShift limits.partSize = 15 ∨
      unitShift limits.partSize = 16 := by
    have := le_unitShift hmin
    have := unitShift_le limits.partSize
    omega
  have htotal : (Budget.new limits cap).totalUnits =
      max (cap >>> unitShift limits.partSize) (Budget.new limits cap).partUnits := rfl
  have hpart : (Budget.new limits cap).partUnits < 2 ^ 32 := by
    have := unitsCeil_mul_lt limits.partSize (unitShift limits.partSize)
    rw [new_partUnits]
    simp only [maxPartSize] at hmax
    rcases hshift with hs | hs | hs <;> rw [hs] at this ⊢ <;> omega
  refine ⟨hpart, ?_, fun n hn => ?_, fun n hn => ?_⟩
  · rw [htotal, Nat.shiftRight_eq_div_pow, Nat.shiftRight_eq_div_pow]
    simp only [usizeMax] at hcap ⊢
    rcases hshift with hs | hs | hs <;> rw [hs] <;> omega
  · have hn' : n ≤ limits.partSize := hn
    have hceil := unitsCeil_mul_lt n (unitShift limits.partSize)
    rw [new_units limits cap hn', new_unit, ← Nat.mul_max_mul_right]
    simp only [maxPartSize] at hmax
    simp only [usizeMax]
    rcases hshift with hs | hs | hs <;> rw [hs] at hceil ⊢ <;> omega
  · have hn' : n ≤ limits.partSize := hn
    have hceil := unitsCeil_mono hn' (unitShift limits.partSize)
    rw [new_trailingZeros]
    rw [new_partUnits] at hpart
    simp only [usizeMax]
    omega

end

end Garret
