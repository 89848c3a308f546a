import Mathlib.Data.List.AList
import Mathlib.Algebra.Order.Group.Int
import Mathlib.Algebra.Order.BigOperators.Group.List
import Mathlib.Tactic.Abel

/-!
# Tables with a primary key

`Table κ α` is Mathlib's association list with distinct keys, used as the contents of a table
with a primary key of type `κ`. Added here is what the storage proofs need beyond `AList`:

* `Table.filter`, the rows a predicate keeps, and `Table.eraseAll`, with their `lookup` equations;
* `Table.sum`, a column's total, and how it changes under `insert` and `erase`.
-/

namespace Garret.Lib

/-- A table with a primary key: an association list with distinct keys. -/
abbrev Table (κ α : Type) := AList (fun _ : κ => α)

namespace Table

variable {κ α : Type}

theorem nodup_keys_filter {l : List (Sigma fun _ : κ => α)} (h : l.NodupKeys)
    (p : (Sigma fun _ : κ => α) → Bool) : (l.filter p).NodupKeys :=
  List.Nodup.sublist (List.Sublist.map _ List.filter_sublist) h

/-- The rows satisfying `p`. -/
def filter (p : κ → α → Bool) (t : Table κ α) : Table κ α where
  entries := t.entries.filter fun e => p e.1 e.2
  nodupKeys := nodup_keys_filter t.nodupKeys _

variable [DecidableEq κ]

theorem lookup_eq_some_iff {t : Table κ α} {k : κ} {v : α} :
    t.lookup k = some v ↔ (⟨k, v⟩ : Sigma fun _ : κ => α) ∈ t.entries := by
  rw [← Option.mem_def]
  exact AList.mem_lookup_iff

theorem mem_iff_lookup {t : Table κ α} {k : κ} : k ∈ t ↔ ∃ v, t.lookup k = some v := by
  rw [← AList.lookup_isSome, Option.isSome_iff_exists]

theorem lookup_filter_eq_some {p : κ → α → Bool} {t : Table κ α} {k : κ} {v : α} :
    (filter p t).lookup k = some v ↔ t.lookup k = some v ∧ p k v = true := by
  rw [lookup_eq_some_iff, lookup_eq_some_iff]
  simp only [filter, List.mem_filter]

theorem lookup_insert_eq {t : Table κ α} {k k' : κ} {v : α} :
    (t.insert k v).lookup k' = if k' = k then some v else t.lookup k' := by
  split
  · rename_i h
    subst h
    exact AList.lookup_insert t
  · rename_i h
    exact AList.lookup_insert_ne h

theorem lookup_erase_eq {t : Table κ α} {k k' : κ} :
    (t.erase k).lookup k' = if k' = k then none else t.lookup k' := by
  split
  · rename_i h
    subst h
    exact AList.lookup_erase k' t
  · rename_i h
    exact AList.lookup_erase_ne h

/-- Drop every row whose key is listed. -/
def eraseAll (t : Table κ α) (ks : List κ) : Table κ α := ks.foldl (fun t k => t.erase k) t

theorem lookup_eraseAll {ks : List κ} : ∀ {t : Table κ α} {k : κ},
    (eraseAll t ks).lookup k = if k ∈ ks then none else t.lookup k := by
  induction ks with
  | nil => intro t k; simp [eraseAll]
  | cons x ks ih =>
    intro t k
    have hx : eraseAll t (x :: ks) = eraseAll (t.erase x) ks := rfl
    rw [hx, ih, lookup_erase_eq]
    by_cases h : k ∈ ks
    · simp [h]
    · by_cases hk : k = x <;> simp [h, hk]

/-! ## Totals of a column -/

omit [DecidableEq κ] in
/-- The total of the column `f`. -/
def sum (f : α → ℤ) (t : Table κ α) : ℤ := (t.entries.map fun e => f e.2).sum

theorem sum_kerase (f : α → ℤ) (k : κ) :
    ∀ (l : List (Sigma fun _ : κ => α)), l.NodupKeys →
      ((l.kerase k).map fun e => f e.2).sum =
        (l.map fun e => f e.2).sum - ((l.dlookup k).elim 0 f)
  | [], _ => by simp
  | ⟨k', v⟩ :: l, h => by
    have hl : l.NodupKeys := (List.nodupKeys_cons.mp h).2
    by_cases hk : k = k'
    · subst hk
      simp
    · rw [List.kerase_cons_ne (by simpa using hk), List.dlookup_cons_ne _ _ hk, List.map_cons,
        List.map_cons, List.sum_cons, List.sum_cons, sum_kerase f k l hl]
      abel

/-- Erasing a row takes its value off the total. -/
theorem sum_erase (f : α → ℤ) (t : Table κ α) (k : κ) :
    sum f (t.erase k) = sum f t - (t.lookup k).elim 0 f :=
  sum_kerase f k t.entries t.nodupKeys

/-- Writing a row replaces its old value in the total. -/
theorem sum_insert (f : α → ℤ) (t : Table κ α) (k : κ) (v : α) :
    sum f (t.insert k v) = sum f t - (t.lookup k).elim 0 f + f v := by
  have h : sum f (t.insert k v) = f v + sum f (t.erase k) := by
    unfold sum
    rw [AList.entries_insert, List.map_cons, List.sum_cons]
    rfl
  rw [h, sum_erase]
  abel

omit [DecidableEq κ] in
theorem sum_nonneg {f : α → ℤ} {t : Table κ α} (h : ∀ e ∈ t.entries, 0 ≤ f e.2) :
    0 ≤ sum f t := by
  apply List.sum_nonneg
  intro x hx
  obtain ⟨e, he, rfl⟩ := List.mem_map.mp hx
  exact h e he

end Table

end Garret.Lib
