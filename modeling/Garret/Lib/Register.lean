import Mathlib.Data.Set.Insert
import Mathlib.Logic.Function.Basic
import Mathlib.Logic.Relation

/-!
# A register written whole

The abstract register of files that are replaced and never written in place. Any number of writers
write to it at a time; a write that has begun takes effect in one step, or gives up without a trace.
After a crash no write is under way, and the register is back at a value it has had since the last
one.

`Run.mem` is what a reader can rely on: the value is one the register started from, or one that a
write was begun with.
-/

namespace Garret.Lib

/-- Where a write stands. -/
inductive Writing (α : Type) where
  | pending (a : α)
  | done
  | failed

/-- The register and those who write to it. -/
structure Register (α : Type) where
  value : α
  /-- The values a crash can leave. -/
  kept : Set α
  writers : ℕ → Option (Writing α)

namespace Register

variable {α : Type}

/-- The steps of a register that values of `W` are written to. -/
inductive Step (W : Set α) (r : Register α) : Register α → Prop
  | begins {i : ℕ} {a : α} (ha : a ∈ W) (hi : r.writers i = none) :
    Step W r { r with writers := Function.update r.writers i (some (.pending a)) }
  | takes {i : ℕ} {a : α} (hi : r.writers i = some (.pending a)) :
    Step W r ⟨a, insert a r.kept, Function.update r.writers i (some .done)⟩
  | gives {i : ℕ} {a : α} (hi : r.writers i = some (.pending a)) :
    Step W r { r with writers := Function.update r.writers i (some .failed) }
  | falls {a : α} (ha : a ∈ r.kept) : Step W r ⟨a, {a}, fun _ => none⟩

/-- A run of the register. -/
abbrev Run (W : Set α) : Register α → Register α → Prop := Relation.ReflTransGen (Step W)

/-- All values about are of `K`. -/
structure Within (K : Set α) (r : Register α) : Prop where
  value : r.value ∈ K
  kept : r.kept ⊆ K
  pending : ∀ i a, r.writers i = some (.pending a) → a ∈ K

variable {W K : Set α} {r r' : Register α}

theorem Within.step (hW : W ⊆ K) (h : Within K r) (hs : Step W r r') : Within K r' := by
  have hupdate : ∀ {i : ℕ} {x : Writing α}, (∀ a, x = .pending a → a ∈ K) →
      ∀ j a, Function.update r.writers i (some x) j = some (.pending a) → a ∈ K := by
    intro i x hx j a hj
    by_cases hji : j = i
    · rw [hji, Function.update_self] at hj
      exact hx a (Option.some.inj hj)
    · rw [Function.update_of_ne hji] at hj
      exact h.pending j a hj
  cases hs with
  | begins ha hi => exact ⟨h.value, h.kept, hupdate fun b hb => Writing.pending.inj hb ▸ hW ha⟩
  | takes hi =>
    have ha := h.pending _ _ hi
    exact ⟨ha, Set.insert_subset ha h.kept, hupdate fun b hb => absurd hb (by simp)⟩
  | gives hi => exact ⟨h.value, h.kept, hupdate fun b hb => absurd hb (by simp)⟩
  | falls ha =>
    exact ⟨h.kept ha, Set.singleton_subset_iff.mpr (h.kept ha), fun _ _ hi => absurd hi (by simp)⟩

/-- **What is read was there at the start, or is the whole of a write.** -/
theorem Run.mem (h : Run W r r') (hr : ∀ i, r.writers i = none) (hv : r.value ∈ r.kept) :
    r'.value ∈ r.kept ∪ W := by
  have hwithin : Within (r.kept ∪ W) r' := by
    induction h with
    | refl =>
      exact ⟨Or.inl hv, Set.subset_union_left, fun i a hi => absurd ((hr i).symm.trans hi) (by simp)⟩
    | tail _ hs ih => exact ih.step Set.subset_union_right hs
  exact hwithin.value

end Register

end Garret.Lib
