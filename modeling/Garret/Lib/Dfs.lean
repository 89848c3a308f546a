import Mathlib.Data.Set.Card
import Mathlib.Logic.Relation

/-!
# Depth-first walks with a depth limit

A walk over a directed graph whose nodes list their successors in order, with repetition. A node is
expanded where it is met first, and only so many levels deep; every time it is met is recorded, with
the levels that are left below it and whether it was met before.

* `walk` runs it, `Walks` is its meaning: the rules by which the meetings follow from the nodes to
  visit and the set seen before (`walks_walk`, `Walks.unique`).
* `Walks.firsts_nodup`: no node is met for the first time twice. `Walks.reach`: only what can be
  reached is met. `Walks.closed`: with a level left, every successor is.
* `Walks.left_pos`: a walk with more levels than there are nodes to expand cuts nothing off.
-/

namespace Garret.Lib

variable {α : Type}

/-- One time a node is met: the levels left below it, and whether it was met before. -/
structure Meeting (α : Type) where
  node : α
  left : ℕ
  again : Bool
  deriving DecidableEq, Repr

/-- The nodes of a list of meetings. -/
def met (ms : List (Meeting α)) : Set α := {x | ∃ m ∈ ms, m.node = x}

@[simp] theorem met_nil : met ([] : List (Meeting α)) = ∅ := by simp [met]

@[simp] theorem met_cons (m : Meeting α) (ms : List (Meeting α)) :
    met (m :: ms) = insert m.node (met ms) := by
  ext x
  simp [met, eq_comm]

@[simp] theorem met_append (a b : List (Meeting α)) : met (a ++ b) = met a ∪ met b := by
  ext x
  simp only [met, List.mem_append, Set.mem_ofPred_eq, Set.mem_union]
  constructor
  · rintro ⟨m, h | h, rfl⟩
    · exact Or.inl ⟨m, h, rfl⟩
    · exact Or.inr ⟨m, h, rfl⟩
  · rintro (⟨m, h, rfl⟩ | ⟨m, h, rfl⟩)
    · exact ⟨m, Or.inl h, rfl⟩
    · exact ⟨m, Or.inr h, rfl⟩

/-- The nodes met for the first time, in order. -/
def firsts (ms : List (Meeting α)) : List α := (ms.filter fun m => !m.again).map Meeting.node

theorem mem_firsts {ms : List (Meeting α)} {x : α} :
    x ∈ firsts ms ↔ ∃ m ∈ ms, m.again = false ∧ m.node = x := by
  simp [firsts, and_assoc]

section Walk

variable [DecidableEq α]

/-- Visit some nodes in order; `below` walks what is below a node met for the first time. -/
def visit (below : α → List α → List (Meeting α)) (left : ℕ) :
    List α → List α → List (Meeting α)
  | [], _ => []
  | c :: cs, seen =>
    if c ∈ seen then ⟨c, left, true⟩ :: visit below left cs seen
    else
      let ms := below c (c :: seen)
      ⟨c, left, false⟩ :: (ms ++ visit below left cs (ms.map Meeting.node ++ c :: seen))

/-- What is met below a node, `depth` levels deep. -/
def walk (out : α → List α) : ℕ → α → List α → List (Meeting α)
  | 0, _, _ => []
  | left + 1, x, seen => visit (walk out left) left (out x) seen

/-- The whole walk from a root. -/
def walkFrom (out : α → List α) (depth : ℕ) (root : α) : List (Meeting α) :=
  ⟨root, depth, false⟩ :: walk out depth root [root]

end Walk

/-- The meetings of a walk through some nodes, each with `left` levels below it, after the nodes of
`S` have been seen. -/
inductive Walks (out : α → List α) : ℕ → List α → Set α → List (Meeting α) → Prop
  | nil (left : ℕ) (S : Set α) : Walks out left [] S []
  | again {left : ℕ} {c : α} {cs : List α} {S : Set α} {ms : List (Meeting α)} (hc : c ∈ S)
      (rest : Walks out left cs S ms) : Walks out left (c :: cs) S (⟨c, left, true⟩ :: ms)
  | cut {c : α} {cs : List α} {S : Set α} {ms : List (Meeting α)} (hc : c ∉ S)
      (rest : Walks out 0 cs (insert c S) ms) : Walks out 0 (c :: cs) S (⟨c, 0, false⟩ :: ms)
  | fresh {left : ℕ} {c : α} {cs : List α} {S : Set α} {ls ms : List (Meeting α)} (hc : c ∉ S)
      (below : Walks out left (out c) (insert c S) ls)
      (rest : Walks out (left + 1) cs (met ls ∪ insert c S) ms) :
      Walks out (left + 1) (c :: cs) S (⟨c, left + 1, false⟩ :: (ls ++ ms))

namespace Walks

variable {out : α → List α} {left : ℕ} {cs : List α} {S : Set α} {ms ms' : List (Meeting α)}

/-- The rules decide the meetings. -/
theorem unique (h : Walks out left cs S ms) (h' : Walks out left cs S ms') : ms = ms' := by
  induction h generalizing ms' with
  | nil =>
    cases h'
    rfl
  | again hc _ ih =>
    cases h' with
    | again _ rest => rw [ih rest]
    | cut hno _ => exact absurd hc hno
    | fresh hno _ _ => exact absurd hc hno
  | cut hno _ ih =>
    cases h' with
    | again hc _ => exact absurd hc hno
    | cut _ rest => rw [ih rest]
  | fresh hno _ _ ihb ihr =>
    cases h' with
    | again hc _ => exact absurd hc hno
    | fresh _ below rest =>
      obtain rfl := ihb below
      rw [ihr rest]

/-- Every node to visit is met. -/
theorem visited (h : Walks out left cs S ms) : ∀ c ∈ cs, c ∈ met ms := by
  induction h with
  | nil => exact fun c hc => absurd hc List.not_mem_nil
  | again _ _ ih =>
    intro x hx
    rw [met_cons]
    exact (List.mem_cons.mp hx).imp_right (ih x)
  | cut _ _ ih =>
    intro x hx
    rw [met_cons]
    exact (List.mem_cons.mp hx).imp_right (ih x)
  | fresh _ _ _ _ ih =>
    intro x hx
    rw [met_cons, met_append]
    exact (List.mem_cons.mp hx).imp_right fun hx => Or.inr (ih x hx)

/-- What is met for the first time was not seen before. -/
theorem fresh_notMem (h : Walks out left cs S ms) : ∀ m ∈ ms, m.again = false → m.node ∉ S := by
  induction h with
  | nil => exact fun m hm => absurd hm List.not_mem_nil
  | again _ _ ih =>
    intro m hm hf
    rcases List.mem_cons.mp hm with rfl | hm
    · exact absurd hf (by simp)
    · exact ih m hm hf
  | cut hc _ ih =>
    intro m hm hf
    rcases List.mem_cons.mp hm with rfl | hm
    · exact hc
    · exact fun hS => ih m hm hf (Or.inr hS)
  | fresh hc _ _ ihb ihr =>
    intro m hm hf
    rcases List.mem_cons.mp hm with rfl | hm
    · exact hc
    · rcases List.mem_append.mp hm with hm | hm
      · exact fun hS => ihb m hm hf (Or.inr hS)
      · exact fun hS => ihr m hm hf (Or.inr (Or.inr hS))

/-- **No node is met for the first time twice.** -/
theorem firsts_nodup (h : Walks out left cs S ms) : (firsts ms).Nodup := by
  induction h with
  | nil => exact List.nodup_nil
  | again _ _ ih => exact ih
  | @cut c cs S ms hc rest ih =>
    refine List.nodup_cons.mpr ⟨fun hmem => ?_, ih⟩
    obtain ⟨m, hm, hf, rfl⟩ := mem_firsts.mp hmem
    exact rest.fresh_notMem m hm hf (Or.inl rfl)
  | @fresh left c cs S ls ms hc below rest ihb ihr =>
    have hsplit : firsts (⟨c, left + 1, false⟩ :: (ls ++ ms)) = c :: (firsts ls ++ firsts ms) := by
      simp [firsts]
    rw [hsplit, List.nodup_cons, List.nodup_append, List.mem_append]
    refine ⟨?_, ihb, ihr, ?_⟩
    · rintro (hmem | hmem)
      · obtain ⟨m, hm, hf, rfl⟩ := mem_firsts.mp hmem
        exact below.fresh_notMem m hm hf (Or.inl rfl)
      · obtain ⟨m, hm, hf, rfl⟩ := mem_firsts.mp hmem
        exact rest.fresh_notMem m hm hf (Or.inr (Or.inl rfl))
    · intro x hx y hy hxy
      obtain ⟨m, hm, -, rfl⟩ := mem_firsts.mp hx
      obtain ⟨m', hm', hf', rfl⟩ := mem_firsts.mp hy
      exact rest.fresh_notMem m' hm' hf' (Or.inl ⟨m, hm, hxy⟩)

/-- What is met was seen before, or is met for the first time in the walk. -/
theorem mem_firsts_of_met (h : Walks out left cs S ms) :
    ∀ m ∈ ms, m.node ∈ S ∨ m.node ∈ firsts ms := by
  induction h with
  | nil => exact fun m hm => absurd hm List.not_mem_nil
  | again hc _ ih =>
    intro m hm
    rcases List.mem_cons.mp hm with rfl | hm
    · exact Or.inl hc
    · exact ih m hm
  | cut hc _ ih =>
    intro m hm
    rcases List.mem_cons.mp hm with rfl | hm
    · exact Or.inr List.mem_cons_self
    · rcases ih m hm with (heq | hS) | hf
      · exact Or.inr (heq ▸ List.mem_cons_self)
      · exact Or.inl hS
      · exact Or.inr (List.mem_cons_of_mem _ hf)
  | @fresh left c cs S ls ms hc _ _ ihb ihr =>
    have hsplit : firsts (⟨c, left + 1, false⟩ :: (ls ++ ms)) = c :: (firsts ls ++ firsts ms) := by
      simp [firsts]
    have hls : ∀ m ∈ ls, m.node ∈ S ∨ m.node ∈ c :: (firsts ls ++ firsts ms) := by
      intro m hm
      rcases ihb m hm with (heq | hS) | hf
      · exact Or.inr (heq ▸ List.mem_cons_self)
      · exact Or.inl hS
      · exact Or.inr (List.mem_cons_of_mem _ (List.mem_append_left _ hf))
    intro m hm
    rw [hsplit]
    rcases List.mem_cons.mp hm with rfl | hm
    · exact Or.inr List.mem_cons_self
    · rcases List.mem_append.mp hm with hm | hm
      · exact hls m hm
      · rcases ihr m hm with (⟨m', hm', heq⟩ | heq | hS) | hf
        · rw [← heq]
          exact hls m' hm'
        · exact Or.inr (heq ▸ List.mem_cons_self)
        · exact Or.inl hS
        · exact Or.inr (List.mem_cons_of_mem _ (List.mem_append_right _ hf))

/-- **Only what can be reached is met.** -/
theorem reach (h : Walks out left cs S ms) :
    ∀ m ∈ ms, ∃ c ∈ cs, Relation.ReflTransGen (fun a b => b ∈ out a) c m.node := by
  induction h with
  | nil => exact fun m hm => absurd hm List.not_mem_nil
  | again _ _ ih =>
    intro m hm
    rcases List.mem_cons.mp hm with rfl | hm
    · exact ⟨_, List.mem_cons_self, Relation.ReflTransGen.refl⟩
    · obtain ⟨c, hc, hpath⟩ := ih m hm
      exact ⟨c, List.mem_cons_of_mem _ hc, hpath⟩
  | cut _ _ ih =>
    intro m hm
    rcases List.mem_cons.mp hm with rfl | hm
    · exact ⟨_, List.mem_cons_self, Relation.ReflTransGen.refl⟩
    · obtain ⟨c, hc, hpath⟩ := ih m hm
      exact ⟨c, List.mem_cons_of_mem _ hc, hpath⟩
  | fresh _ _ _ ihb ihr =>
    intro m hm
    rcases List.mem_cons.mp hm with rfl | hm
    · exact ⟨_, List.mem_cons_self, Relation.ReflTransGen.refl⟩
    · rcases List.mem_append.mp hm with hm | hm
      · obtain ⟨d, hd, hpath⟩ := ihb m hm
        exact ⟨_, List.mem_cons_self, Relation.ReflTransGen.head hd hpath⟩
      · obtain ⟨c, hc, hpath⟩ := ihr m hm
        exact ⟨c, List.mem_cons_of_mem _ hc, hpath⟩

/-- Below a node met for the first time, with a level left, every successor is met. -/
theorem closed (h : Walks out left cs S ms) :
    ∀ m ∈ ms, m.again = false → 0 < m.left → ∀ y ∈ out m.node, y ∈ S ∨ y ∈ met ms := by
  induction h with
  | nil => exact fun m hm => absurd hm List.not_mem_nil
  | again _ _ ih =>
    intro m hm hf hleft y hy
    rw [met_cons]
    rcases List.mem_cons.mp hm with rfl | hm
    · exact absurd hf (by simp)
    · exact (ih m hm hf hleft y hy).imp_right Or.inr
  | cut _ _ ih =>
    intro m hm hf hleft y hy
    rw [met_cons]
    rcases List.mem_cons.mp hm with rfl | hm
    · exact absurd hleft (Nat.lt_irrefl 0)
    · rcases ih m hm hf hleft y hy with (heq | hS) | hmet
      · exact Or.inr (Or.inl heq)
      · exact Or.inl hS
      · exact Or.inr (Or.inr hmet)
  | fresh _ below _ ihb ihr =>
    intro m hm hf hleft y hy
    rw [met_cons, met_append]
    rcases List.mem_cons.mp hm with rfl | hm
    · exact Or.inr (Or.inr (Or.inl (below.visited y hy)))
    · rcases List.mem_append.mp hm with hm | hm
      · rcases ihb m hm hf hleft y hy with (heq | hS) | hmet
        · exact Or.inr (Or.inl heq)
        · exact Or.inl hS
        · exact Or.inr (Or.inr (Or.inl hmet))
      · rcases ihr m hm hf hleft y hy with (hmet | heq | hS) | hmet
        · exact Or.inr (Or.inr (Or.inl hmet))
        · exact Or.inr (Or.inl heq)
        · exact Or.inl hS
        · exact Or.inr (Or.inr (Or.inr hmet))

/-- **With more levels than nodes to expand, nothing is cut off.** -/
theorem left_pos {U : Set α} (hU : ∀ x, out x ≠ [] → x ∈ U) (hfin : U.Finite)
    (h : Walks out left cs S ms) (hleft : (U \ S).ncard ≤ left) :
    ∀ m ∈ ms, m.again = false → m.node ∈ U → 0 < m.left := by
  induction h with
  | nil => exact fun m hm => absurd hm List.not_mem_nil
  | again _ _ ih =>
    intro m hm hf hmU
    rcases List.mem_cons.mp hm with rfl | hm
    · exact absurd hf (by simp)
    · exact ih hleft m hm hf hmU
  | @cut c cs S ms hc _ ih =>
    have hfewer : (U \ insert c S).ncard ≤ (U \ S).ncard :=
      Set.ncard_le_ncard (Set.sdiff_subset_sdiff_right (Set.subset_insert c S)) hfin.sdiff
    intro m hm hf hmU
    rcases List.mem_cons.mp hm with rfl | hm
    · -- the node itself would be one that is left
      have hpos : 0 < (U \ S).ncard := (Set.ncard_pos hfin.sdiff).mpr ⟨c, hmU, hc⟩
      omega
    · exact ih (hfewer.trans hleft) m hm hf hmU
  | @fresh left c cs S ls ms hc below rest ihb ihr =>
    have hmore : U \ (met ls ∪ insert c S) ⊆ U \ S :=
      Set.sdiff_subset_sdiff_right ((Set.subset_insert c S).trans Set.subset_union_right)
    intro m hm hf hmU
    rcases List.mem_cons.mp hm with rfl | hm
    · exact Nat.succ_pos left
    · rcases List.mem_append.mp hm with hm | hm
      · -- below `c` one node fewer is left, unless `c` has nothing below it
        by_cases hcU : c ∈ U
        · have hdiff : U \ insert c S = (U \ S) \ {c} := by
            rw [Set.sdiff_sdiff, Set.union_singleton]
          have hless := Set.ncard_sdiff_singleton_lt_of_mem (s := U \ S) ⟨hcU, hc⟩ hfin.sdiff
          rw [← hdiff] at hless
          exact ihb (by omega) m hm hf hmU
        · have hnone : out c = [] := by
            by_contra hne
            exact hcU (hU c hne)
          obtain ⟨d, hd, -⟩ := below.reach m hm
          rw [hnone] at hd
          exact absurd hd List.not_mem_nil
      · exact ihr ((Set.ncard_le_ncard hmore hfin.sdiff).trans hleft) m hm hf hmU

end Walks

section Walk

variable [DecidableEq α] {out : α → List α}

theorem visit_walks {below : α → List α → List (Meeting α)} {left : ℕ}
    (h₀ : left = 0 → ∀ c seen, below c seen = [])
    (hs : ∀ k, left = k + 1 → ∀ c seen,
      Walks out k (out c) {x | x ∈ seen} (below c seen)) :
    ∀ cs seen, Walks out left cs {x | x ∈ seen} (visit below left cs seen)
  | [], seen => Walks.nil left _
  | c :: cs, seen => by
    have ih := visit_walks h₀ hs cs
    rw [visit]
    split
    · exact Walks.again ‹_› (ih seen)
    · rename_i hc
      have hinsert : {x | x ∈ c :: seen} = insert c {x | x ∈ seen} := by
        ext x
        simp
      have hmore : {x | x ∈ (below c (c :: seen)).map Meeting.node ++ c :: seen} =
          met (below c (c :: seen)) ∪ insert c {x | x ∈ seen} := by
        ext x
        simp [met, or_left_comm]
      cases left with
      | zero =>
        have hrest := ih ((below c (c :: seen)).map Meeting.node ++ c :: seen)
        rw [hmore, h₀ rfl, met_nil, Set.empty_union] at hrest
        simp only [h₀ rfl, List.map_nil, List.nil_append] at hrest ⊢
        exact Walks.cut hc hrest
      | succ k =>
        have hrest := ih ((below c (c :: seen)).map Meeting.node ++ c :: seen)
        rw [hmore] at hrest
        have hbelow := hs k rfl c (c :: seen)
        rw [hinsert] at hbelow
        exact Walks.fresh hc hbelow hrest

/-- **The walk follows its rules.** -/
theorem walks_walk (out : α → List α) : ∀ (left : ℕ) (x : α) (seen : List α),
    Walks out left (out x) {y | y ∈ seen} (walk out (left + 1) x seen)
  | 0, x, seen => visit_walks (fun _ _ _ => rfl) (fun k hk => absurd hk (by omega)) (out x) seen
  | left + 1, x, seen =>
    visit_walks (fun hk => absurd hk (by omega))
      (fun k hk c seen => by
        obtain rfl : left = k := by omega
        exact walks_walk out left c seen) (out x) seen

theorem walks_walkFrom (out : α → List α) (depth : ℕ) (root : α) :
    Walks out depth [root] ∅ (walkFrom out depth root) := by
  cases depth with
  | zero => exact Walks.cut (Set.notMem_empty root) (Walks.nil 0 _)
  | succ left =>
    have hbelow := walks_walk out left root [root]
    have hroot : {y | y ∈ [root]} = insert root (∅ : Set α) := by
      ext y
      simp
    rw [hroot] at hbelow
    have h := Walks.fresh (Set.notMem_empty root) hbelow (Walks.nil (left + 1) _)
    rw [List.append_nil] at h
    exact h

end Walk

end Garret.Lib
