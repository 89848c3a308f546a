import Mathlib.Data.List.Sort
import Mathlib.Data.List.Perm.Subperm
import Mathlib.Data.Set.Insert
import Mathlib.Order.Lex

/-!
# Keyset pagination

A reader walks a set of keys in pages: each page asks for what lies strictly after the last key it
was given, so nothing depends on positions in a set that changes between the pages.

* `IsPage S a p next`: `p` is a page of `S` after `a`. It holds the keys of `S` from `a` up to
  `next`, or all of them past `a` when there is no `next`.
* `Scan start visits stop`: the pages of one walk, each of the set the walk met at that time.
* `Scan.sorted`, `Scan.mem`, `Scan.complete`: whatever the sets were, the walk is strictly
  increasing, holds nothing its sets did not, and skips no key that was in all of them.
* `Scan.length_le`: over one finite set it ends.
-/

namespace Garret.Lib

variable {κ : Type}

/-- The keys of a walk's pages, in order; each comes with the set it was read from. -/
def scanned (visits : List (Set κ × List κ)) : List κ := visits.flatMap Prod.snd

@[simp] theorem scanned_nil : scanned ([] : List (Set κ × List κ)) = [] := rfl

@[simp] theorem scanned_cons (v : Set κ × List κ) (visits : List (Set κ × List κ)) :
    scanned (v :: visits) = v.2 ++ scanned visits := rfl

variable [LinearOrder κ]

/-- `p` is a page of `S` after `a`; `next` is where the following page starts, if there is one. -/
structure IsPage (S : Set κ) (a : κ) (p : List κ) (next : Option κ) : Prop where
  sorted : p.Pairwise (· < ·)
  mem : ∀ k ∈ p, k ∈ S ∧ a < k
  last : ∀ b, next = some b → b ∈ p ∧ ∀ k ∈ p, k ≤ b
  complete : ∀ k ∈ S, a < k → (∀ b, next = some b → k ≤ b) → k ∈ p

/-- Distinct keys come out of a sort by them in increasing order. -/
theorem pairwise_lt_sorted {α : Type} {r : α → α → Prop} [DecidableRel r] (f : α → κ)
    (hr : ∀ a b, r a b ↔ f a ≤ f b) {l : List α} (hnd : (l.map f).Nodup) :
    ((l.insertionSort r).map f).Pairwise (· < ·) := by
  have hmap : (l.insertionSort r).map f = (l.map f).insertionSort (· ≤ ·) :=
    List.map_insertionSort r (· ≤ ·) f l fun a _ b _ => hr a b
  rw [hmap]
  have hle := List.pairwise_insertionSort (· ≤ ·) (l.map f)
  have hne : ((l.map f).insertionSort (· ≤ ·)).Nodup :=
    (List.perm_insertionSort _ _).nodup_iff.mpr hnd
  exact (hle.and hne).imp fun h => lt_of_le_of_ne h.1 h.2

/-- In a sorted list the first `n` are what is at most the last of them. -/
theorem mem_take_of_le {l : List κ} (hl : l.Pairwise (· < ·)) {n : ℕ} {b : κ}
    (hb : (l.take n).getLast? = some b) {k : κ} (hk : k ∈ l) (hkb : k ≤ b) : k ∈ l.take n := by
  rw [← List.take_append_drop n l] at hk hl
  rcases List.mem_append.mp hk with hk | hk
  · exact hk
  · have hlt := (List.pairwise_append.mp hl).2.2 b (List.mem_of_getLast? hb) k hk
    exact absurd hkb (not_le.mpr hlt)

theorem le_getLast {l : List κ} (hl : l.Pairwise (· < ·)) {b : κ} (hb : l.getLast? = some b) {k : κ}
    (hk : k ∈ l) : k ≤ b := by
  obtain ⟨l', rfl⟩ := List.getLast?_eq_some_iff.mp hb
  rcases List.mem_append.mp hk with hk | hk
  · exact ((List.pairwise_append.mp hl).2.2 k hk b (by simp)).le
  · exact (List.mem_singleton.mp hk).le

/-- The first `n` keys past `a` are a page, and one key more than that tells whether another
follows. -/
theorem IsPage.of_take {S : Set κ} {a : κ} {l : List κ} (hl : l.Pairwise (· < ·))
    (hmem : ∀ k, k ∈ l ↔ k ∈ S ∧ a < k) {n : ℕ} (hn : 1 ≤ n) :
    IsPage S a (l.take n) (if n < l.length then (l.take n).getLast? else none) where
  sorted := hl.sublist (List.take_sublist n l)
  mem k hk := (hmem k).mp ((List.take_sublist n l).subset hk)
  last b hb := by
    split at hb
    · exact ⟨List.mem_of_getLast? hb, fun k hk =>
        le_getLast (hl.sublist (List.take_sublist n l)) hb hk⟩
    · exact absurd hb (by simp)
  complete k hk hak hnext := by
    have hkl : k ∈ l := (hmem k).mpr ⟨hk, hak⟩
    by_cases hlen : n < l.length
    · simp only [hlen, if_true] at hnext
      cases hlast : (l.take n).getLast? with
      | none =>
        have hnil := List.getLast?_eq_none_iff.mp hlast
        rw [List.take_eq_nil_iff] at hnil
        rcases hnil with rfl | rfl
        · omega
        · simp at hkl
      | some b => exact mem_take_of_le hl hlast hkl (hnext b hlast)
    · rwa [List.take_of_length_le (by omega)]

/-! ## Walks -/

/-- A walk, page by page: each page of the set met at that time. `none` is the end. -/
inductive Scan : Option κ → List (Set κ × List κ) → Option κ → Prop
  | stop (at' : Option κ) : Scan at' [] at'
  | page {S : Set κ} {a : κ} {p : List κ} {next : Option κ} {visits : List (Set κ × List κ)}
      {stop : Option κ} : IsPage S a p next → Scan next visits stop →
      Scan (some a) ((S, p) :: visits) stop

/-- Nothing follows the end. -/
theorem Scan.nil_of_none {visits : List (Set κ × List κ)} {stop : Option κ}
    (h : Scan none visits stop) : visits = [] := by
  cases h
  rfl

/-- What a walk returns lies strictly after where it starts, in increasing order. -/
theorem Scan.sorted {start stop : Option κ} {visits : List (Set κ × List κ)}
    (h : Scan start visits stop) :
    (scanned visits).Pairwise (· < ·) ∧ ∀ a, start = some a → ∀ k ∈ scanned visits, a < k := by
  induction h with
  | stop at' => simp
  | @page S a p next visits stop hp hscan ih =>
    obtain ⟨hpair, hafter⟩ := ih
    have hlow : ∀ k ∈ p, ∀ k' ∈ scanned visits, k < k' := by
      intro k hk k' hk'
      cases next with
      | none =>
        rw [hscan.nil_of_none] at hk'
        simp at hk'
      | some b => exact lt_of_le_of_lt ((hp.last b rfl).2 k hk) (hafter b rfl k' hk')
    constructor
    · rw [scanned_cons]
      exact List.pairwise_append.mpr ⟨hp.sorted, hpair, hlow⟩
    · rintro _ ⟨⟩ k hk
      rcases List.mem_append.mp hk with hk | hk
      · exact (hp.mem k hk).2
      · cases next with
        | none =>
          rw [hscan.nil_of_none] at hk
          simp at hk
        | some b => exact ((hp.mem b (hp.last b rfl).1).2).trans (hafter b rfl k hk)

/-- Every key returned was in the set its page was read from. -/
theorem Scan.mem {start stop : Option κ} {visits : List (Set κ × List κ)}
    (h : Scan start visits stop) : ∀ v ∈ visits, ∀ k ∈ v.2, k ∈ v.1 := by
  induction h with
  | stop at' => simp
  | page hp _ ih =>
    intro v hv k hk
    rcases List.mem_cons.mp hv with rfl | hv
    · exact (hp.mem k hk).1
    · exact ih v hv k hk

/-- **No key is skipped**: one that was in every set the walk met is returned, once the walk is
past it. -/
theorem Scan.complete {start stop : Option κ} {visits : List (Set κ × List κ)}
    (h : Scan start visits stop) {k : κ} (hk : ∀ v ∈ visits, k ∈ v.1)
    (hstop : ∀ b, stop = some b → k ≤ b) : ∀ a, start = some a → a < k → k ∈ scanned visits := by
  induction h with
  | stop at' =>
    rintro a rfl hak
    exact absurd (hstop a rfl) (not_le.mpr hak)
  | @page S a p next visits stop hp hscan ih =>
    rintro _ ⟨⟩ hak
    rw [scanned_cons, List.mem_append]
    by_cases hin : ∀ b, next = some b → k ≤ b
    · exact Or.inl (hp.complete k (hk _ List.mem_cons_self) hak hin)
    · push Not at hin
      obtain ⟨b, hb, hbk⟩ := hin
      exact Or.inr (ih (fun v hv => hk v (List.mem_cons_of_mem _ hv)) hstop b hb hbk)

/-- Every page but the last holds a key. -/
theorem Scan.length_le_scanned {start stop : Option κ} {visits : List (Set κ × List κ)}
    (h : Scan start visits stop) : visits.length ≤ (scanned visits).length + 1 := by
  induction h with
  | stop at' => simp
  | @page S a p next visits stop hp hscan ih =>
    cases next with
    | none =>
      rw [hscan.nil_of_none]
      simp
    | some b =>
      have hpos : 0 < p.length := List.length_pos_of_mem (hp.last b rfl).1
      simp only [List.length_cons, scanned_cons, List.length_append]
      omega

/-- **Over one finite set a walk ends**: it has at most one page more than the set has keys. -/
theorem Scan.length_le {start stop : Option κ} {visits : List (Set κ × List κ)}
    (h : Scan start visits stop) {l : List κ} (hl : ∀ v ∈ visits, ∀ k ∈ v.1, k ∈ l) :
    visits.length ≤ l.length + 1 := by
  have hnodup : (scanned visits).Nodup := h.sorted.1.imp fun hlt => ne_of_lt hlt
  have hsub : scanned visits ⊆ l := by
    intro k hk
    obtain ⟨v, hv, hkv⟩ := List.mem_flatMap.mp hk
    exact hl v hv k (h.mem v hv k hkv)
  have hlen := (hnodup.subperm hsub).length_le
  have hpages := h.length_le_scanned
  omega

end Garret.Lib
