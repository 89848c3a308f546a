import Mathlib.Data.List.Nodup
import Mathlib.Data.List.Perm.Subperm
import Mathlib.Logic.Function.Basic
import Mathlib.Logic.Relation
import Mathlib.Tactic.ByContra
import Mathlib.Tactic.Tauto

/-!
# Finite directed graphs: reachable sets and topological orders

Two algorithms over a finite edge list, in the form programs run them.

* `closure edges roots` is the least set containing `roots` and closed under `edges`, computed
  semi-naively: each edge is followed at most once, when its source has been seen
  (`WITH RECURSIVE … UNION …` in SQL). `mem_closure` is the fixpoint's meaning: exactly what the
  roots reach.
* `kahn n succs` is Kahn's algorithm with a stack of ready nodes over the nodes `0, …, n - 1`,
  where `succs i` lists the successors of `i` with repetition and `cnt j` counts the edges into
  `j` whose source is not yet placed. `Inv` is the loop invariant; it says in particular that a
  counter is never decremented below zero (`succs_count_le`). `kahn_topo`: every node is placed
  after all its predecessors.
-/

namespace Garret.Lib

section Closure

variable {α : Type} [DecidableEq α]

/-- Follow at most `n` edges out of the set seen so far, each one once. -/
def grow : ℕ → List (α × α) → List α → List α
  | 0, _, seen => seen
  | n + 1, edges, seen =>
    match edges.find? fun e => decide (e.1 ∈ seen) with
    | none => seen
    | some e => grow n (edges.erase e) (if e.2 ∈ seen then seen else e.2 :: seen)

/-- The least set containing `roots` and closed under `edges`. -/
def closure (edges : List (α × α)) (roots : List α) : List α := grow edges.length edges roots

/-- `x` is reached from one of `roots` along `edges`. -/
def Reaches (edges : List (α × α)) (roots : List α) (x : α) : Prop :=
  ∃ r ∈ roots, Relation.ReflTransGen (fun a b => (a, b) ∈ edges) r x

/-- The soundness half of the loop: only reached nodes are ever seen. -/
theorem grow_reaches {E : List (α × α)} {roots : List α} :
    ∀ (n : ℕ) (edges : List (α × α)) (seen : List α), (∀ e ∈ edges, e ∈ E) →
      (∀ x ∈ seen, Reaches E roots x) → ∀ x ∈ grow n edges seen, Reaches E roots x
  | 0, _, _, _, hs => hs
  | n + 1, edges, seen, he, hs => by
    unfold grow
    split
    · exact hs
    · rename_i e hf
      have hmem : e ∈ edges := List.mem_of_find?_eq_some hf
      have hsrc : e.1 ∈ seen := by simpa using List.find?_some hf
      refine grow_reaches n _ _ (fun f hf => he f (List.mem_of_mem_erase hf)) fun x hx => ?_
      split at hx
      · exact hs x hx
      · rcases List.mem_cons.mp hx with rfl | hx
        · obtain ⟨r, hr, hpath⟩ := hs _ hsrc
          exact ⟨r, hr, hpath.tail (he e hmem)⟩
        · exact hs x hx

/-- The completeness half: with enough fuel every edge out of the result leads back into it, and
nothing seen is forgotten. An edge already followed has both ends in `seen`. -/
theorem grow_closed {E : List (α × α)} :
    ∀ (n : ℕ) (edges : List (α × α)) (seen : List α), edges.length ≤ n →
      (∀ e ∈ E, e ∈ edges ∨ e.2 ∈ seen) →
      (∀ x ∈ seen, x ∈ grow n edges seen) ∧
      ∀ e ∈ E, e.1 ∈ grow n edges seen → e.2 ∈ grow n edges seen
  | 0, edges, seen, hn, hE => by
    refine ⟨fun x hx => hx, fun e he _ => ?_⟩
    rcases hE e he with h | h
    · rw [List.length_eq_zero_iff.mp (Nat.le_zero.mp hn)] at h
      exact absurd h List.not_mem_nil
    · exact h
  | n + 1, edges, seen, hn, hE => by
    unfold grow
    split
    · rename_i hf
      refine ⟨fun x hx => hx, fun e he hsrc => ?_⟩
      rcases hE e he with h | h
      · exact absurd hsrc (by simpa using List.find?_eq_none.mp hf e h)
      · exact h
    · rename_i e hf
      have hmem : e ∈ edges := List.mem_of_find?_eq_some hf
      have hlen : (edges.erase e).length ≤ n := by
        rw [List.length_erase_of_mem hmem]
        omega
      have hsub : ∀ x ∈ seen, x ∈ (if e.2 ∈ seen then seen else e.2 :: seen) := by
        intro x hx
        split
        · exact hx
        · exact List.mem_cons_of_mem _ hx
      have htgt : e.2 ∈ (if e.2 ∈ seen then seen else e.2 :: seen) := by
        split
        · assumption
        · exact List.mem_cons_self
      have hE' : ∀ f ∈ E, f ∈ edges.erase e ∨
          f.2 ∈ (if e.2 ∈ seen then seen else e.2 :: seen) := by
        intro f hfE
        rcases hE f hfE with h | h
        · by_cases hfe : f = e
          · exact Or.inr (by rw [hfe]; exact htgt)
          · exact Or.inl ((List.mem_erase_of_ne hfe).mpr h)
        · exact Or.inr (hsub _ h)
      obtain ⟨h1, h2⟩ := grow_closed n (edges.erase e) _ hlen hE'
      exact ⟨fun x hx => h1 x (hsub x hx), h2⟩

/-- **The closure is exactly what the roots reach.** -/
theorem mem_closure {edges : List (α × α)} {roots : List α} {x : α} :
    x ∈ closure edges roots ↔ Reaches edges roots x := by
  obtain ⟨hroots, hclosed⟩ :=
    grow_closed (E := edges) edges.length edges roots (Nat.le_refl _) fun e he => Or.inl he
  constructor
  · exact grow_reaches _ edges roots (fun e he => he)
      (fun r hr => ⟨r, hr, Relation.ReflTransGen.refl⟩) x
  · rintro ⟨r, hr, hpath⟩
    induction hpath with
    | refl => exact hroots r hr
    | tail _ he ih => exact hclosed _ he ih

/-- The closure is closed under its edges. -/
theorem closure_closed {edges : List (α × α)} {roots : List α} {a b : α}
    (he : (a, b) ∈ edges) (ha : a ∈ closure edges roots) : b ∈ closure edges roots := by
  obtain ⟨r, hr, hpath⟩ := mem_closure.mp ha
  exact mem_closure.mpr ⟨r, hr, hpath.tail he⟩

/-- The closure contains its roots. -/
theorem subset_closure {edges : List (α × α)} {roots : List α} {r : α} (hr : r ∈ roots) :
    r ∈ closure edges roots :=
  mem_closure.mpr ⟨r, hr, Relation.ReflTransGen.refl⟩

end Closure

/-- What needs only a list may be appended to it: everything still stands after what it needs. -/
theorem ordered_append {α : Type} {need : α → α → Prop} {l new : List α}
    (hl : ∀ pre a post, l = pre ++ a :: post → ∀ b, need b a → b ∈ pre)
    (hnew : ∀ a ∈ new, ∀ b, need b a → b ∈ l) :
    ∀ pre a post, l ++ new = pre ++ a :: post → ∀ b, need b a → b ∈ pre := by
  intro pre a post hsplit b hb
  rcases List.append_eq_append_iff.mp hsplit with ⟨c, rfl, hc⟩ | ⟨c, hc, hpost⟩
  · exact List.mem_append_left _ (hnew a (hc ▸ List.mem_append_right _ List.mem_cons_self) b hb)
  · cases c with
    | nil =>
      rw [List.append_nil] at hc
      rw [List.nil_append] at hpost
      exact hc ▸ hnew a (hpost ▸ List.mem_cons_self) b hb
    | cons x c =>
      obtain ⟨rfl, -⟩ := List.cons.inj hpost
      exact hl pre a c hc b hb

/-! ## Kahn's algorithm -/

namespace Kahn

/-- The loop's variables: `ready` is a stack, its top first. -/
structure State where
  cnt : ℕ → ℕ
  ready : List ℕ
  order : List ℕ

/-- `cnt[j] -= 1; if cnt[j] == 0 { ready.push(j) }`. -/
def release (s : (ℕ → ℕ) × List ℕ) (j : ℕ) : (ℕ → ℕ) × List ℕ :=
  let c := Function.update s.1 j (s.1 j - 1)
  if c j = 0 then (c, j :: s.2) else (c, s.2)

/-- Place the ready node `i`: append it and release its successors. -/
def place (succs : ℕ → List ℕ) (s : State) (i : ℕ) (ready : List ℕ) : State :=
  let r := (succs i).foldl release (s.cnt, ready)
  { cnt := r.1, ready := r.2, order := s.order ++ [i] }

/-- `while let Some(i) = ready.pop()`, at most `fuel` rounds. -/
def loop (succs : ℕ → List ℕ) : ℕ → State → State
  | 0, s => s
  | fuel + 1, s =>
    match s.ready with
    | [] => s
    | i :: ready => loop succs fuel (place succs s i ready)

/-- The edges into `j` from the nodes below `n`, with repetition. -/
def indegree (n : ℕ) (succs : ℕ → List ℕ) (j : ℕ) : ℕ :=
  ((List.range n).flatMap succs).count j

/-- The nodes without a predecessor, pushed in increasing order. -/
def start (n : ℕ) (succs : ℕ → List ℕ) : State where
  cnt := indegree n succs
  ready := ((List.range n).filter fun i => indegree n succs i == 0).reverse
  order := []

/-- The order Kahn's algorithm places the nodes in; nodes on or behind a cycle are left out. -/
def kahn (n : ℕ) (succs : ℕ → List ℕ) : List ℕ := (loop succs n (start n succs)).order

/-- The edges into `j` whose source is not placed yet. -/
def waiting (n : ℕ) (succs : ℕ → List ℕ) (order : List ℕ) (j : ℕ) : ℕ :=
  (((List.range n).filter fun i => decide (i ∉ order)).flatMap succs).count j

/-- The loop invariant. -/
structure Inv (n : ℕ) (succs : ℕ → List ℕ) (s : State) : Prop where
  lt : ∀ j ∈ s.ready ++ s.order, j < n
  nodup : (s.ready ++ s.order).Nodup
  cnt : ∀ j, s.cnt j = waiting n succs s.order j
  zero : ∀ j < n, j ∈ s.ready ++ s.order ↔ s.cnt j = 0
  topo : ∀ pre j post, s.order = pre ++ j :: post → ∀ i < n, j ∈ succs i → i ∈ pre

variable {n : ℕ} {succs : ℕ → List ℕ}

theorem waiting_eq_zero {order : List ℕ} {j : ℕ} :
    waiting n succs order j = 0 ↔ ∀ i < n, j ∈ succs i → i ∈ order := by
  unfold waiting
  rw [List.count_eq_zero]
  simp only [List.mem_flatMap, List.mem_filter, List.mem_range, decide_eq_true_eq, not_exists,
    not_and]
  constructor
  · intro h i hi hj
    by_contra hno
    exact h i ⟨hi, hno⟩ hj
  · intro h i hi hj
    exact hi.2 (h i hi.1 hj)

/-- Placing `i` takes exactly its own edges off the count. -/
theorem waiting_place {order : List ℕ} {i : ℕ} (hi : i < n) (hno : i ∉ order) (j : ℕ) :
    waiting n succs order j = waiting n succs (order ++ [i]) j + (succs i).count j := by
  unfold waiting
  have key : ∀ l : List ℕ, l.Nodup → i ∈ l →
      ((l.filter fun k => decide (k ∉ order)).flatMap succs).count j =
        ((l.filter fun k => decide (k ∉ order ++ [i])).flatMap succs).count j +
          (succs i).count j := by
    intro l hl hil
    induction l with
    | nil => exact absurd hil List.not_mem_nil
    | cons a l ih =>
      obtain ⟨hal, hl⟩ := List.nodup_cons.mp hl
      by_cases hai : a = i
      · subst hai
        have hrest : (l.filter fun k => decide (k ∉ order ++ [a])) =
            l.filter fun k => decide (k ∉ order) := by
          refine List.filter_congr fun k hk => ?_
          have hka : k ≠ a := fun e => hal (e ▸ hk)
          simp [hka]
        rw [List.filter_cons_of_pos (by simpa using hno),
          List.filter_cons_of_neg (by simp), hrest, List.flatMap_cons, List.count_append]
        omega
      · have hil' : i ∈ l := (List.mem_cons.mp hil).resolve_left (Ne.symm hai)
        have hrec := ih hl hil'
        by_cases ha : a ∈ order
        · rw [List.filter_cons_of_neg (by simpa using ha),
            List.filter_cons_of_neg (by simp [ha]), hrec]
        · rw [List.filter_cons_of_pos (by simpa using ha),
            List.filter_cons_of_pos (by simp [ha, hai]), List.flatMap_cons, List.flatMap_cons,
            List.count_append, List.count_append, hrec]
          omega
  exact key (List.range n) List.nodup_range (List.mem_range.mpr hi)

/-- **No counter underflows**: a ready node's edges are all still counted. -/
theorem succs_count_le {s : State} {i : ℕ} {ready : List ℕ} (hinv : Inv n succs s)
    (hr : s.ready = i :: ready) (j : ℕ) : (succs i).count j ≤ s.cnt j := by
  have hi : i < n := hinv.lt i (by rw [hr]; simp)
  have hno : i ∉ s.order := by
    have hnd := hinv.nodup
    rw [hr, List.cons_append, List.nodup_cons] at hnd
    exact fun h => hnd.1 (List.mem_append_right _ h)
  rw [hinv.cnt j, waiting_place hi hno j]
  omega

/-- The inner loop: each counter drops by its number of edges, and exactly the nodes whose
counter reaches zero there are pushed, once each. -/
theorem foldl_release :
    ∀ (js : List ℕ) (c : ℕ → ℕ) (ready : List ℕ), (∀ j, js.count j ≤ c j) →
      ∃ new : List ℕ, (js.foldl release (c, ready)).2 = new ++ ready ∧ new.Nodup ∧
        (∀ j, (js.foldl release (c, ready)).1 j = c j - js.count j) ∧
        ∀ j, j ∈ new ↔ j ∈ js ∧ c j = js.count j
  | [], c, ready, _ => ⟨[], by simp⟩
  | k :: js, c, ready, hle => by
    have hk := hle k
    rw [List.count_cons_self] at hk
    set c' := Function.update c k (c k - 1) with hc'
    have hle' : ∀ j, js.count j ≤ c' j := by
      intro j
      by_cases hj : j = k
      · subst hj
        simp only [hc', Function.update_self]
        omega
      · have := hle j
        rw [List.count_cons_of_ne (Ne.symm hj)] at this
        simpa [hc', hj] using this
    have hfold : ∀ r, ((k :: js).foldl release (c, r)) =
        js.foldl release (c', if c' k = 0 then k :: r else r) := by
      intro r
      simp only [List.foldl_cons, release, ← hc']
      split <;> rfl
    obtain ⟨new, h1, h2, h3, h4⟩ :=
      foldl_release js c' (if c' k = 0 then k :: ready else ready) hle'
    have hval : ∀ j, c' j - js.count j = c j - (k :: js).count j := by
      intro j
      by_cases hj : j = k
      · subst hj
        simp only [hc', Function.update_self, List.count_cons_self]
        omega
      · rw [List.count_cons_of_ne (Ne.symm hj)]
        simp [hc', hj]
    have hiff : ∀ j, j ≠ k → (j ∈ new ↔ j ∈ k :: js ∧ c j = (k :: js).count j) := by
      intro j hj
      rw [h4 j, List.count_cons_of_ne (Ne.symm hj)]
      simp [hc', hj]
    have hck : c' k = c k - 1 := by simp [hc']
    rw [hfold]
    by_cases h0 : c' k = 0
    · -- `k` is pushed here, for its last edge: it does not occur again in `js`
      rw [if_pos h0] at h1 h3 ⊢
      have hkjs : k ∉ js := by
        intro hm
        have := hle' k
        have := List.count_pos_iff.mpr hm
        omega
      refine ⟨new ++ [k], by rw [h1, List.append_assoc]; rfl, ?_, fun j => by rw [h3 j, hval],
        fun j => ?_⟩
      · refine List.Nodup.append h2 (List.nodup_singleton k) ?_
        intro x hx hxk
        rw [List.mem_singleton.mp hxk] at hx
        exact hkjs ((h4 k).mp hx).1
      · by_cases hj : j = k
        · subst hj
          have hcnt : js.count j = 0 := List.count_eq_zero.mpr hkjs
          simp only [List.mem_append, or_true, List.mem_cons, true_or,
            List.count_cons_self, true_and, true_iff]
          omega
        · rw [List.mem_append, List.mem_singleton, ← hiff j hj]
          simp [hj]
    · rw [if_neg h0] at h1 h3 ⊢
      refine ⟨new, h1, h2, fun j => by rw [h3 j, hval], fun j => ?_⟩
      by_cases hj : j = k
      · subst hj
        rw [h4 j, List.count_cons_self]
        simp only [List.mem_cons, true_or, true_and]
        constructor
        · rintro ⟨-, h⟩
          omega
        · intro h
          have hpos : 0 < js.count j := by omega
          exact ⟨List.count_pos_iff.mp hpos, by omega⟩
      · exact hiff j hj

theorem inv_start : Inv n succs (start n succs) where
  lt j hj := by
    simp only [start, List.append_nil, List.mem_reverse, List.mem_filter, List.mem_range] at hj
    exact hj.1
  nodup := by
    simp only [start, List.append_nil, List.nodup_reverse]
    exact List.Nodup.filter _ List.nodup_range
  cnt j := by simp [start, indegree, waiting]
  zero j hj := by simp [start, hj]
  topo pre j post h := by simp [start] at h

/-- **One round keeps the invariant.** -/
theorem inv_place (hlt : ∀ i < n, ∀ j ∈ succs i, j < n) {s : State} {i : ℕ} {ready : List ℕ}
    (hinv : Inv n succs s) (hr : s.ready = i :: ready) : Inv n succs (place succs s i ready) := by
  have hi : i < n := hinv.lt i (by rw [hr]; simp)
  have hnd := hinv.nodup
  rw [hr, List.cons_append, List.nodup_cons] at hnd
  have hno : i ∉ s.order := fun h => hnd.1 (List.mem_append_right _ h)
  obtain ⟨new, h1, h2, h3, h4⟩ := foldl_release (succs i) s.cnt ready (succs_count_le hinv hr)
  have hready : (place succs s i ready).ready = new ++ ready := h1
  have horder : (place succs s i ready).order = s.order ++ [i] := rfl
  have hcnt : ∀ j, (place succs s i ready).cnt j = s.cnt j - (succs i).count j := h3
  have hmem : ∀ j, j ∈ (place succs s i ready).ready ++ (place succs s i ready).order ↔
      j ∈ new ∨ j ∈ s.ready ++ s.order := by
    intro j
    rw [hready, horder, hr]
    simp only [List.mem_append, List.mem_cons, List.not_mem_nil, or_false]
    tauto
  have hnew : ∀ j ∈ new, j < n ∧ j ∉ s.ready ++ s.order := by
    intro j hj
    obtain ⟨hjs, hc⟩ := (h4 j).mp hj
    have hjn := hlt i hi j hjs
    refine ⟨hjn, fun hin => ?_⟩
    have := (hinv.zero j hjn).mp hin
    have := List.count_pos_iff.mpr hjs
    omega
  refine ⟨fun j hj => ?_, ?_, fun j => ?_, fun j hj => ?_, fun pre j post hsplit => ?_⟩
  · rcases (hmem j).mp hj with h | h
    · exact (hnew j h).1
    · exact hinv.lt j h
  · have hperm : (new ++ (i :: ready ++ s.order)).Perm
        ((place succs s i ready).ready ++ (place succs s i ready).order) := by
      rw [hready, horder, ← List.append_assoc, List.append_assoc, List.append_assoc]
      refine List.Perm.append_left new ?_
      rw [List.cons_append, ← List.append_assoc]
      exact (List.perm_append_singleton i (ready ++ s.order)).symm
    refine hperm.nodup ?_
    have hold := hinv.nodup
    rw [hr] at hold
    refine List.Nodup.append h2 hold fun x hx hx' => ?_
    exact (hnew x hx).2 (by rw [hr]; exact hx')
  · rw [hcnt, hinv.cnt j, waiting_place hi hno j, horder]
    omega
  · rw [hmem, hcnt]
    have hle := succs_count_le hinv hr j
    constructor
    · rintro (h | h)
      · have := ((h4 j).mp h).2
        omega
      · have := (hinv.zero j hj).mp h
        omega
    · intro h0
      by_cases hc : s.cnt j = 0
      · exact Or.inr ((hinv.zero j hj).mpr hc)
      · have hpos : 0 < (succs i).count j := by omega
        exact Or.inl ((h4 j).mpr ⟨List.count_pos_iff.mp hpos, by omega⟩)
  · -- the node just placed was ready: nothing into it was still waiting
    have hready : ∀ k ∈ [i], ∀ a, a < n ∧ k ∈ succs a → a ∈ s.order := by
      intro k hk a ha
      obtain rfl := List.mem_singleton.mp hk
      have hz : s.cnt k = 0 := (hinv.zero k hi).mp (by rw [hr]; simp)
      rw [hinv.cnt k] at hz
      exact waiting_eq_zero.mp hz a ha.1 ha.2
    rw [horder] at hsplit
    intro a ha hja
    exact ordered_append (fun pre k post h a ha => hinv.topo pre k post h a ha.1 ha.2) hready pre j
      post hsplit a ⟨ha, hja⟩

theorem inv_loop (hlt : ∀ i < n, ∀ j ∈ succs i, j < n) :
    ∀ (fuel : ℕ) (s : State), Inv n succs s → Inv n succs (loop succs fuel s)
  | 0, _, h => h
  | fuel + 1, s, h => by
    unfold loop
    split
    · exact h
    · rename_i i ready hr
      exact inv_loop hlt fuel _ (inv_place hlt h hr)

theorem kahn_nodup (hlt : ∀ i < n, ∀ j ∈ succs i, j < n) : (kahn n succs).Nodup :=
  (List.nodup_append.mp (inv_loop hlt n _ inv_start).nodup).2.1

theorem kahn_lt (hlt : ∀ i < n, ∀ j ∈ succs i, j < n) : ∀ j ∈ kahn n succs, j < n :=
  fun j hj => (inv_loop hlt n _ inv_start).lt j (List.mem_append_right _ hj)

/-- **Predecessors first**: every node is placed after all its predecessors. -/
theorem kahn_topo (hlt : ∀ i < n, ∀ j ∈ succs i, j < n) {pre post : List ℕ} {j : ℕ}
    (h : kahn n succs = pre ++ j :: post) {i : ℕ} (hi : i < n) (hj : j ∈ succs i) : i ∈ pre :=
  (inv_loop hlt n _ inv_start).topo pre j post h i hi hj

/-- An order of full length places every node. -/
theorem mem_kahn_of_length (hlt : ∀ i < n, ∀ j ∈ succs i, j < n)
    (hlen : (kahn n succs).length = n) {i : ℕ} (hi : i < n) : i ∈ kahn n succs := by
  have hsub : (kahn n succs).Subperm (List.range n) :=
    List.subperm_of_subset (kahn_nodup hlt) fun j hj => List.mem_range.mpr (kahn_lt hlt j hj)
  have hperm : (kahn n succs).Perm (List.range n) :=
    hsub.perm_of_length_le (by simp [hlen])
  exact hperm.mem_iff.mpr (List.mem_range.mpr hi)

end Kahn

end Garret.Lib
