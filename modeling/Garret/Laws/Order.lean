import Garret.Client.Batch
import Garret.Lib.Acyclic

/-!
# The order uploads start in

`references_first` on any batch: the loop's counters (`Placing.Inv`), the step of one placed entry
(`Placing.release_spec`) and the whole run (`Placing.run_spec`).

* `referencesFirst_order`: the result is the batch in another order, and no panic is reached. Of
  distinct paths, those that do not lead to a cycle of references come first, each after what it
  references, and the others follow as they were listed.
-/

namespace Garret.Client

open Garret.Lib

/-! ## The counters of the loop -/

namespace Placing

/-- The references of an entry that are not in a list. -/
def unplaced (refs : List (List ℕ)) (l : List ℕ) (i : ℕ) : List ℕ :=
  (refs.getD i []).filter fun j => decide (j ∉ l)

/-- The loop's invariant, `next` entries of the order worked off. -/
structure Inv (refs : List (List ℕ)) (next : ℕ) (s : Placing) : Prop where
  nodup : s.order.Nodup
  lt : ∀ i ∈ s.order, i < refs.length
  next_le : next ≤ s.order.length
  waiting : ∀ i < refs.length,
    s.waiting[i]? = some (unplaced refs (s.order.take next) i).length
  zero : ∀ i < refs.length, (i ∈ s.order ↔ unplaced refs (s.order.take next) i = [])
  topo : ∀ pre i post, s.order = pre ++ i :: post → ∀ j ∈ refs.getD i [], j ∈ pre

theorem count_referrers_from (j k : ℕ) : ∀ (refs : List (List ℕ)) (m : ℕ),
    ((refs.zipIdx m).flatMap fun e => (e.1.filter fun i => i = j).map fun _ => e.2).count k =
      if m ≤ k then (refs.getD (k - m) []).count j else 0
  | [], m => by simp
  | r :: refs, m => by
    have hhead : ((r.filter fun i => i = j).map fun _ => m).count k =
        if m = k then r.count j else 0 := by
      rw [List.map_const', List.count_replicate, ← List.countP_eq_length_filter]
      simp only [beq_iff_eq, List.count]
      rfl
    rw [List.zipIdx_cons, List.flatMap_cons, List.count_append, hhead,
      count_referrers_from j k refs]
    rcases lt_trichotomy m k with h | rfl | h
    · obtain ⟨d, rfl⟩ := Nat.exists_eq_add_of_lt h
      have hd : m + d + 1 - m = d + 1 := by omega
      have hd' : m + d + 1 - (m + 1) = d := by omega
      rw [if_neg (by omega), if_pos (by omega), if_pos (by omega), hd, hd', Nat.zero_add]
      rfl
    · simp
    · rw [if_neg (by omega), if_neg (by omega), if_neg (by omega)]

/-- Entry `k` waits for `j` once for each time it lists it. -/
theorem count_referrers (refs : List (List ℕ)) (j k : ℕ) :
    (referrers refs j).count k = (refs.getD k []).count j := by
  have h := count_referrers_from j k refs 0
  simpa [referrers] using h

/-- **What one placed entry does**: the counters fall by the references to it, none below zero, and
the entries that wait for nothing more are appended. -/
theorem release_spec : ∀ (ks : List ℕ) (s : Placing),
    (∀ k ∈ ks, ∃ n, s.waiting[k]? = some n ∧ ks.count k ≤ n) →
    ∃ w new, release ks s = some ⟨w, s.order ++ new⟩ ∧ new.Nodup ∧
      (∀ k, w[k]? = s.waiting[k]?.map fun n => n - ks.count k) ∧
      ∀ k, k ∈ new ↔ k ∈ ks ∧ w[k]? = some 0
  | [], s, _ => by
    refine ⟨s.waiting, [], by simp [release], List.nodup_nil, ?_, ?_⟩
    · intro k
      simp
    · intro k
      simp
  | k :: ks, s, h => by
    obtain ⟨n, hk, hn⟩ := h k List.mem_cons_self
    rw [List.count_cons_self] at hn
    obtain ⟨n, rfl⟩ : ∃ m, n = m + 1 := ⟨n - 1, by omega⟩
    have hset : (s.waiting.set k n)[k]? = some n :=
      List.getElem?_set_self (List.getElem?_eq_some_iff.mp hk).1
    have hks : ∀ i ∈ ks, ∃ m, (s.waiting.set k n)[i]? = some m ∧ ks.count i ≤ m := by
      intro i hi
      by_cases hik : k = i
      · subst hik
        exact ⟨n, hset, by omega⟩
      · obtain ⟨m, hm, hle⟩ := h i (List.mem_cons_of_mem _ hi)
        rw [List.count_cons_of_ne hik] at hle
        exact ⟨m, by rw [List.getElem?_set_ne hik]; exact hm, hle⟩
    obtain ⟨w, new, hrun, hnd, hw, hnew⟩ :=
      release_spec ks ⟨s.waiting.set k n, if n = 0 then s.order ++ [k] else s.order⟩ hks
    have hwk : w[k]? = some (n - ks.count k) := by
      rw [hw k, hset]
      rfl
    have hcount : ∀ i, w[i]? = s.waiting[i]?.map fun m => m - (k :: ks).count i := by
      intro i
      by_cases hik : k = i
      · subst hik
        rw [hwk, hk, List.count_cons_self, Option.map_some]
        congr 1
        omega
      · rw [hw i, List.getElem?_set_ne hik, List.count_cons_of_ne hik]
    rw [release, hk]
    simp only [hrun]
    by_cases hzero : n = 0
    · -- `k` waits for nothing more: it is placed, and not listed again
      subst hzero
      have hnot : k ∉ ks := List.count_eq_zero.mp (by omega)
      refine ⟨w, k :: new, by simp,
        List.nodup_cons.mpr ⟨fun hmem => hnot ((hnew k).mp hmem).1, hnd⟩, hcount, fun i => ?_⟩
      rw [List.mem_cons, List.mem_cons, hnew i]
      constructor
      · rintro (rfl | ⟨hi, hw0⟩)
        · exact ⟨Or.inl rfl, by rw [hwk, Nat.zero_sub]⟩
        · exact ⟨Or.inr hi, hw0⟩
      · rintro ⟨rfl | hi, hw0⟩
        · exact Or.inl rfl
        · exact Or.inr ⟨hi, hw0⟩
    · refine ⟨w, new, by simp [hzero], hnd, hcount, fun i => ?_⟩
      rw [hnew i, List.mem_cons]
      constructor
      · rintro ⟨hi, hw0⟩
        exact ⟨Or.inr hi, hw0⟩
      · rintro ⟨rfl | hi, hw0⟩
        · refine ⟨?_, hw0⟩
          by_contra hnot
          rw [hwk, List.count_eq_zero.mpr hnot] at hw0
          exact hzero (Option.some.inj hw0)
        · exact ⟨hi, hw0⟩

/-- Placing `i` takes the references to it out of those that are left. -/
theorem length_unplaced (refs : List (List ℕ)) {l : List ℕ} {i : ℕ} (hi : i ∉ l) (k : ℕ) :
    (unplaced refs l k).length =
      (unplaced refs (l ++ [i]) k).length + (refs.getD k []).count i := by
  unfold unplaced
  induction refs.getD k [] with
  | nil => rfl
  | cons j r ih =>
    simp only [List.filter_cons, List.mem_append, List.mem_singleton, not_or] at ih ⊢
    by_cases hji : j = i
    · subst hji
      simp only [hi, not_false_eq_true, not_true, and_false, decide_true, decide_false, if_true,
        Bool.false_eq_true, if_false, List.length_cons, List.count_cons_self]
      omega
    · rw [List.count_cons_of_ne hji]
      by_cases hjl : j ∈ l
      · simpa [hjl] using ih
      · simp only [hjl, hji, not_false_eq_true, and_true, decide_true, if_true, List.length_cons]
        omega

theorem referrers_lt {refs : List (List ℕ)} {i k : ℕ} (hk : k ∈ referrers refs i) :
    k < refs.length := by
  by_contra hge
  have hpos := List.count_pos_iff.mpr hk
  rw [count_referrers, List.getD_eq_getElem?_getD, List.getElem?_eq_none (Nat.le_of_not_lt hge)]
    at hpos
  exact absurd hpos (by simp)

/-- The next entry to work off is none of those before it. -/
theorem Inv.fresh {refs : List (List ℕ)} {next i : ℕ} {s : Placing} (hinv : Inv refs next s)
    (htake : s.order.take (next + 1) = s.order.take next ++ [i]) : i ∉ s.order.take next := by
  have hnd : (s.order.take (next + 1)).Nodup := hinv.nodup.sublist (List.take_sublist _ _)
  rw [htake, List.nodup_append] at hnd
  exact fun hmem => hnd.2.2 i hmem i (List.mem_singleton_self i) rfl

/-- **One entry worked off keeps the invariant.** -/
theorem inv_step {refs : List (List ℕ)} {next i : ℕ} {s : Placing} (hinv : Inv refs next s)
    (hi : s.order[next]? = some i) :
    ∃ s', release (referrers refs i) s = some s' ∧ Inv refs (next + 1) s' := by
  obtain ⟨hnext, hget⟩ := List.getElem?_eq_some_iff.mp hi
  have htake : s.order.take (next + 1) = s.order.take next ++ [i] := by
    rw [List.take_add_one, hi]
    rfl
  have hleft := length_unplaced refs (hinv.fresh htake)
  have hlen : ∀ k ∈ referrers refs i, k < refs.length := fun k hk => referrers_lt hk
  have hwait : ∀ k ∈ referrers refs i, ∃ n, s.waiting[k]? = some n ∧
      (referrers refs i).count k ≤ n := by
    intro k hk
    refine ⟨_, hinv.waiting k (hlen k hk), ?_⟩
    rw [count_referrers, hleft k]
    omega
  obtain ⟨w, new, hrun, hnd, hw, hnew⟩ := release_spec _ s hwait
  have hw' : ∀ k < refs.length,
      w[k]? = some (unplaced refs (s.order.take (next + 1)) k).length := by
    intro k hk
    rw [hw k, hinv.waiting k hk, count_referrers, hleft k, htake, Option.map_some,
      Nat.add_sub_cancel_right]
  have hempty : ∀ k < refs.length,
      (w[k]? = some 0 ↔ unplaced refs (s.order.take (next + 1)) k = []) := by
    intro k hk
    rw [hw' k hk, Option.some.injEq, List.length_eq_zero_iff]
  -- what is new waited for `i`, so it was not placed before
  have hold : ∀ k ∈ new, k ∉ s.order := by
    intro k hk hmem
    obtain ⟨hks, -⟩ := (hnew k).mp hk
    have hz := (hinv.zero k (hlen k hks)).mp hmem
    have hpos := List.count_pos_iff.mpr hks
    have hl := hleft k
    rw [count_referrers] at hpos
    rw [hz, List.length_nil] at hl
    omega
  have hready : ∀ k ∈ new, ∀ j ∈ refs.getD k [], j ∈ s.order := by
    intro k hk j hj
    obtain ⟨hks, hw0⟩ := (hnew k).mp hk
    have hnone := (hempty k (hlen k hks)).mp hw0
    by_contra hjo
    have hjmem : j ∈ unplaced refs (s.order.take (next + 1)) k :=
      List.mem_filter.mpr ⟨hj, decide_eq_true fun hjt => hjo (List.mem_of_mem_take hjt)⟩
    rw [hnone] at hjmem
    exact absurd hjmem List.not_mem_nil
  have hsame : (s.order ++ new).take (next + 1) = s.order.take (next + 1) :=
    List.take_append_of_le_length (by omega)
  refine ⟨⟨w, s.order ++ new⟩, hrun, ?_, ?_, ?_, ?_, ?_, ?_⟩
  · rw [List.nodup_append]
    refine ⟨hinv.nodup, hnd, fun a ha b hb hab => hold b hb (hab ▸ ha)⟩
  · intro k hk
    rcases List.mem_append.mp hk with hk | hk
    · exact hinv.lt k hk
    · exact hlen k ((hnew k).mp hk).1
  · simp only [List.length_append]
    omega
  · intro k hk
    simp only [hsame]
    exact hw' k hk
  · intro k hk
    simp only [hsame]
    rw [← hempty k hk, List.mem_append, hnew k]
    constructor
    · rintro (hmem | hmem)
      · rw [hw k, hinv.waiting k hk, (hinv.zero k hk).mp hmem]
        simp
      · exact hmem.2
    · intro hw0
      by_cases hks : k ∈ referrers refs i
      · exact Or.inr ⟨hks, hw0⟩
      · refine Or.inl ((hinv.zero k hk).mpr ?_)
        rw [hw k, hinv.waiting k hk, List.count_eq_zero.mpr hks] at hw0
        exact List.length_eq_zero_iff.mp (Option.some.inj hw0)
  · exact ordered_append hinv.topo hready

/-- **The loop works the whole order off.** -/
theorem run_spec {refs : List (List ℕ)} : ∀ (fuel next : ℕ) (s : Placing), Inv refs next s →
    refs.length ≤ next + fuel →
    ∃ s', run (referrers refs) fuel next s = some s' ∧ Inv refs s'.order.length s'
  | 0, next, s, hinv, hfuel => by
    have hle : s.order.length ≤ refs.length := by
      have hsub : s.order.Subperm (List.range refs.length) :=
        List.subperm_of_subset hinv.nodup fun i hi => List.mem_range.mpr (hinv.lt i hi)
      simpa using hsub.length_le
    have hnext : next = s.order.length := by
      have := hinv.next_le
      omega
    subst hnext
    exact ⟨s, by simp [run], hinv⟩
  | fuel + 1, next, s, hinv, hfuel => by
    cases hi : s.order[next]? with
    | none =>
      have hnext : next = s.order.length :=
        le_antisymm hinv.next_le (List.getElem?_eq_none_iff.mp hi)
      subst hnext
      exact ⟨s, by simp [run], hinv⟩
    | some i =>
      obtain ⟨t, hrel, ht⟩ := inv_step hinv hi
      obtain ⟨s', hrun, hs'⟩ := run_spec fuel (next + 1) t ht (by omega)
      exact ⟨s', by rw [run, hi]; simp only [hrel, Option.bind_some, hrun], hs'⟩

end Placing

/-! ## Positions and paths -/

/-- An entry of the list at its position. -/
theorem filterMap_range (paths : List PathInfo) :
    (List.range paths.length).filterMap (fun i => paths[i]?) = paths := by
  induction paths with
  | nil => rfl
  | cons p paths ih =>
    rw [List.length_cons, List.range_succ_eq_map, List.filterMap_cons, List.filterMap_map]
    simpa [Function.comp_def] using ih

/-- Slots taken once each are there to be taken. -/
theorem takeSlots_spec (paths : List PathInfo) :
    ∀ {order : List ℕ} (slots : List (Option PathInfo)), order.Nodup →
    (∀ i ∈ order, i < paths.length ∧ slots[i]? = some paths[i]?) →
    takeSlots order slots = some (order.filterMap fun i => paths[i]?)
  | [], _, _, _ => rfl
  | i :: order, slots, hnd, h => by
    obtain ⟨hlt, hslot⟩ := h i List.mem_cons_self
    obtain ⟨hnot, hnd⟩ := List.nodup_cons.mp hnd
    have hrest : ∀ j ∈ order, j < paths.length ∧ (slots.set i none)[j]? = some paths[j]? := by
      intro j hj
      have hij : i ≠ j := fun he => hnot (he ▸ hj)
      rw [List.getElem?_set_ne hij]
      exact h j (List.mem_cons_of_mem _ hj)
    rw [List.getElem?_eq_getElem hlt] at hslot
    rw [takeSlots, hslot]
    simp only [takeSlots_spec paths _ hnd hrest, Option.map_some]
    rw [List.filterMap_cons, List.getElem?_eq_getElem hlt]

/-- The last entry of a path is one of the batch. -/
theorem indexOf_some {paths : List PathInfo} {path : String} {j : ℕ}
    (h : indexOf paths path = some j) : ∃ info, paths[j]? = some info ∧ info.path = path := by
  obtain ⟨e, he, rfl⟩ := Option.map_eq_some_iff.mp h
  obtain ⟨hmem, hpath⟩ := List.mem_filter.mp (List.mem_of_getLast? he)
  exact ⟨e.1, List.mem_zipIdx_iff_getElem?.mp hmem, beq_iff_eq.mp hpath⟩

/-- Distinct paths are at one position each. -/
theorem position_unique {paths : List PathInfo} (hnd : (paths.map PathInfo.path).Nodup) {i j : ℕ}
    {a b : PathInfo} (ha : paths[i]? = some a) (hb : paths[j]? = some b) (hab : a.path = b.path) :
    i = j := by
  have hi : (paths.map PathInfo.path)[i]? = some a.path := by rw [List.getElem?_map, ha]; rfl
  have hj : (paths.map PathInfo.path)[j]? = some b.path := by rw [List.getElem?_map, hb]; rfl
  exact (List.getElem?_inj (List.getElem?_eq_some_iff.mp hi).1 hnd).mp (by rw [hi, hj, hab])

/-- Of distinct paths every entry is the last of its path. -/
theorem indexOf_of_nodup {paths : List PathInfo} (hnd : (paths.map PathInfo.path).Nodup) {j : ℕ}
    {info : PathInfo} (h : paths[j]? = some info) : indexOf paths info.path = some j := by
  have hmem : (info, j) ∈ paths.zipIdx.filter fun e => e.1.path == info.path :=
    List.mem_filter.mpr ⟨List.mem_zipIdx_iff_getElem?.mpr h, beq_self_eq_true _⟩
  cases hidx : indexOf paths info.path with
  | none =>
    rw [indexOf, Option.map_eq_none_iff, List.getLast?_eq_none_iff] at hidx
    rw [hidx] at hmem
    exact absurd hmem List.not_mem_nil
  | some k =>
    obtain ⟨other, hk, hpath⟩ := indexOf_some hidx
    rw [position_unique hnd hk h hpath]

@[simp] theorem length_inBatch (paths : List PathInfo) : (inBatch paths).length = paths.length := by
  simp [inBatch]

/-- What an entry waits for: the other entries whose paths it lists. -/
theorem mem_inBatch {paths : List PathInfo} {i j : ℕ} :
    j ∈ (inBatch paths).getD i [] ↔ ∃ info, paths[i]? = some info ∧
      ∃ r ∈ info.references, indexOf paths r = some j ∧ j ≠ i := by
  unfold inBatch
  rw [List.getD_eq_getElem?_getD, List.getElem?_map, List.getElem?_zipIdx]
  cases paths[i]? with
  | none => simp
  | some info =>
    simp only [Option.map_some, Option.getD_some, List.mem_filterMap, Option.filter_eq_some_iff,
      Nat.zero_add, decide_eq_true_eq, Option.some.injEq, exists_eq_left']

/-- The loop starts from what waits for nothing. -/
theorem Placing.inv_start (refs : List (List ℕ)) : Placing.Inv refs 0 ⟨refs.map List.length,
    (List.range refs.length).filter fun i => (refs.map List.length)[i]? = some 0⟩ := by
  have hall : ∀ i, Placing.unplaced refs [] i = refs.getD i [] := by
    intro i
    simp [Placing.unplaced]
  have hwait : ∀ i < refs.length, (refs.map List.length)[i]? = some (refs.getD i []).length := by
    intro i hi
    rw [List.getElem?_map, List.getD_eq_getElem?_getD, List.getElem?_eq_getElem hi]
    rfl
  have hready : ∀ i, i ∈ (List.range refs.length).filter
      (fun i => (refs.map List.length)[i]? = some 0) → refs.getD i [] = [] := by
    intro i hi
    obtain ⟨hlt, hz⟩ := List.mem_filter.mp hi
    rw [decide_eq_true_eq, hwait i (List.mem_range.mp hlt), Option.some.injEq] at hz
    exact List.length_eq_zero_iff.mp hz
  refine ⟨List.nodup_range.filter _, ?_, Nat.zero_le _, ?_, ?_, ?_⟩
  · intro i hi
    exact List.mem_range.mp (List.mem_filter.mp hi).1
  · intro i hi
    rw [List.take_zero, hall, hwait i hi]
  · intro i hi
    rw [List.take_zero, hall, List.mem_filter, List.mem_range, decide_eq_true_eq, hwait i hi,
      Option.some.injEq, List.length_eq_zero_iff]
    exact and_iff_right hi
  · intro pre i post hsplit j hj
    simp only at hsplit
    have hi := hready i (hsplit ▸ List.mem_append_right _ List.mem_cons_self)
    rw [hi] at hj
    exact absurd hj List.not_mem_nil

/-- **What `references_first` returns**: the entries the loop placed and then the others, by their
positions; what is placed comes after what it lists, and what is not lists something that is not. -/
theorem referencesFirst_positions (paths : List PathInfo) :
    ∃ order left, referencesFirst paths =
        some ((order ++ left).filterMap fun i => paths[i]?) ∧
      (order ++ left).Perm (List.range paths.length) ∧
      left.Sublist (List.range paths.length) ∧
      (∀ pre i post, order = pre ++ i :: post → ∀ j ∈ (inBatch paths).getD i [], j ∈ pre) ∧
      ∀ i ∈ left, ∃ j ∈ (inBatch paths).getD i [], j ∉ order := by
  obtain ⟨s, hrun, hinv⟩ := Placing.run_spec paths.length 0 _ (Placing.inv_start (inBatch paths))
    (by simp)
  have hwait : ∀ i < paths.length,
      s.waiting[i]? = some (Placing.unplaced (inBatch paths) s.order i).length := by
    intro i hi
    have h := hinv.waiting i (by simpa using hi)
    rwa [List.take_length] at h
  have hzero : ∀ i < paths.length, (i ∈ s.order ↔ s.waiting[i]? = some 0) := by
    intro i hi
    have h := hinv.zero i (by simpa using hi)
    rw [List.take_length] at h
    rw [h, hwait i hi, Option.some.injEq, List.length_eq_zero_iff]
  have hlt : ∀ i ∈ s.order, i < paths.length := by
    intro i hi
    simpa using hinv.lt i hi
  let left := (List.range paths.length).filter fun i => s.waiting[i]? ≠ some 0
  have hleft : ∀ i, i ∈ left ↔ i < paths.length ∧ i ∉ s.order := by
    intro i
    rw [List.mem_filter, List.mem_range, decide_eq_true_eq]
    exact and_congr_right fun hi => not_congr (hzero i hi).symm
  have hnd : (s.order ++ left).Nodup :=
    List.nodup_append.mpr ⟨hinv.nodup, List.nodup_range.filter _,
      fun a ha b hb hab => ((hleft b).mp hb).2 (hab ▸ ha)⟩
  have hperm : (s.order ++ left).Perm (List.range paths.length) := by
    refine (List.perm_ext_iff_of_nodup hnd List.nodup_range).mpr fun i => ?_
    rw [List.mem_append, hleft, List.mem_range]
    constructor
    · rintro (h | h)
      · exact hlt i h
      · exact h.1
    · intro hi
      by_cases hio : i ∈ s.order
      · exact Or.inl hio
      · exact Or.inr ⟨hi, hio⟩
  refine ⟨s.order, left, ?_, hperm, List.filter_sublist, hinv.topo, ?_⟩
  · have htake := takeSlots_spec paths (paths.map some) hnd fun i hi => by
      have hi' : i < paths.length := List.mem_range.mp (hperm.mem_iff.mp hi)
      exact ⟨hi', by rw [List.getElem?_map, List.getElem?_eq_getElem hi']; rfl⟩
    rw [length_inBatch] at hrun
    unfold referencesFirst
    simp only [hrun, Option.bind_some]
    exact htake
  · intro i hi
    obtain ⟨hi, hio⟩ := (hleft i).mp hi
    have hne : Placing.unplaced (inBatch paths) s.order i ≠ [] := by
      intro h
      rw [hzero i hi, hwait i hi, h] at hio
      exact hio rfl
    obtain ⟨j, hj⟩ := List.exists_mem_of_ne_nil _ hne
    obtain ⟨hj, hjo⟩ := List.mem_filter.mp hj
    exact ⟨j, hj, of_decide_eq_true hjo⟩

/-! ## The order of distinct paths -/

/-- `a` lists another path of the batch, that of `b`. -/
def RefersTo (paths : List PathInfo) (a b : PathInfo) : Prop :=
  a ∈ paths ∧ b ∈ paths ∧ b.path ∈ a.references ∧ b.path ≠ a.path

/-- Of distinct paths the positions an entry waits for are the paths it refers to. -/
theorem mem_inBatch_of_refersTo {paths : List PathInfo} (hnd : (paths.map PathInfo.path).Nodup)
    {i j : ℕ} {a b : PathInfo} (hi : paths[i]? = some a) (hj : paths[j]? = some b) :
    j ∈ (inBatch paths).getD i [] ↔ RefersTo paths a b := by
  rw [mem_inBatch]
  constructor
  · rintro ⟨info, hinfo, r, hr, hidx, hne⟩
    obtain rfl := Option.some.inj (hi.symm.trans hinfo)
    obtain ⟨other, hother, rfl⟩ := indexOf_some hidx
    obtain rfl := Option.some.inj (hj.symm.trans hother)
    exact ⟨List.mem_of_getElem? hi, List.mem_of_getElem? hj, hr,
      fun hpath => hne (position_unique hnd hj hi hpath)⟩
  · rintro ⟨-, -, hr, hne⟩
    refine ⟨a, hi, b.path, hr, indexOf_of_nodup hnd hj, ?_⟩
    rintro rfl
    obtain rfl := Option.some.inj (hi.symm.trans hj)
    exact hne rfl

/-- An entry in the middle of what positions spell stands at a position in the middle. -/
theorem filterMap_split {paths : List PathInfo} {order : List ℕ} {pre post : List PathInfo}
    {a : PathInfo} (h : order.filterMap (fun i => paths[i]?) = pre ++ a :: post) :
    ∃ is i js, order = is ++ i :: js ∧ paths[i]? = some a ∧
      ∀ j ∈ is, ∀ b, paths[j]? = some b → b ∈ pre := by
  obtain ⟨l₁, l₂, rfl, hpre, hrest⟩ := List.filterMap_eq_append_iff.mp h
  obtain ⟨l₃, i, l₄, rfl, hnone, hi, -⟩ := List.filterMap_eq_cons_iff.mp hrest
  refine ⟨l₁ ++ l₃, i, l₄, by rw [List.append_assoc], hi, fun j hj b hb => ?_⟩
  rcases List.mem_append.mp hj with hj | hj
  · rw [← hpre]
    exact List.mem_filterMap.mpr ⟨j, hj, hb⟩
  · rw [hnone j hj] at hb
    exact absurd hb (by simp)

/-- **Uploads start references first.** On every batch the result is the batch in another order: no
counter falls below zero and no slot is taken twice. Of distinct paths, those that do not lead to a
cycle of references come first, each after the other paths of the batch it references, and the rest
follow as they were listed; without a cycle every first part of the result is closed under
references. -/
theorem referencesFirst_order (paths : List PathInfo) :
    ∃ out, referencesFirst paths = some out ∧ out.Perm paths ∧
      ((paths.map PathInfo.path).Nodup →
        (∃ placed rest, out = placed ++ rest ∧
          (∀ a ∈ placed, ¬ LeadsToCycle (RefersTo paths) a) ∧
          (∀ a ∈ rest, LeadsToCycle (RefersTo paths) a) ∧ rest.Sublist paths ∧
          ∀ pre a post, placed = pre ++ a :: post → ∀ b, RefersTo paths a b → b ∈ pre) ∧
        (Acyclic (RefersTo paths) →
          ∀ pre, pre <+: out → ∀ a ∈ pre, ∀ b, RefersTo paths a b → b ∈ pre)) := by
  obtain ⟨order, left, hout, hperm, hsub, htopo, hstuck⟩ := referencesFirst_positions paths
  have houtPerm : ((order ++ left).filterMap fun i => paths[i]?).Perm paths := by
    have h := hperm.filterMap fun i => paths[i]?
    rwa [filterMap_range] at h
  refine ⟨_, hout, houtPerm, fun hnd => ?_⟩
  rw [List.filterMap_append] at houtPerm ⊢
  have hordered : ∀ pre a post, order.filterMap (fun i => paths[i]?) = pre ++ a :: post →
      ∀ b, RefersTo paths a b → b ∈ pre := by
    intro pre a post hsplit b hab
    obtain ⟨is, i, js, horder, hi, hpre⟩ := filterMap_split hsplit
    obtain ⟨j, hj⟩ := List.mem_iff_getElem?.mp hab.2.1
    have hmem := htopo is i js horder j ((mem_inBatch_of_refersTo hnd hi hj).mpr hab)
    exact hpre j hmem b hj
  have hplaced : ∀ a ∈ order.filterMap (fun i => paths[i]?), ¬ LeadsToCycle (RefersTo paths) a := by
    have hndOut := houtPerm.nodup_iff.mpr (List.Nodup.of_map _ hnd)
    intro a ha
    exact not_leadsToCycle_of_ordered (List.nodup_append.mp hndOut).1 hordered ha
  have hrest : ∀ a ∈ left.filterMap (fun i => paths[i]?), LeadsToCycle (RefersTo paths) a := by
    intro a ha
    refine leadsToCycle_of_stuck (S := {a | a ∈ left.filterMap fun i => paths[i]?})
      (List.finite_toSet _) (fun x hx => ?_) ha
    -- something `x` lists is not placed either
    obtain ⟨i, hi, hix⟩ := List.mem_filterMap.mp hx
    obtain ⟨j, hj, hjo⟩ := hstuck i hi
    obtain ⟨info, hinfo, r, hr, hidx, hne⟩ := mem_inBatch.mp hj
    obtain ⟨y, hy, -⟩ := indexOf_some hidx
    have hjlt : j < paths.length := (List.getElem?_eq_some_iff.mp hy).1
    have hjleft : j ∈ left :=
      (List.mem_append.mp (hperm.mem_iff.mpr (List.mem_range.mpr hjlt))).resolve_left hjo
    exact ⟨y, List.mem_filterMap.mpr ⟨j, hjleft, hy⟩, (mem_inBatch_of_refersTo hnd hix hy).mp hj⟩
  have hlisted : (left.filterMap fun i => paths[i]?).Sublist paths := by
    have h := hsub.filterMap fun i => paths[i]?
    rwa [filterMap_range] at h
  refine ⟨⟨_, _, rfl, hplaced, hrest, hlisted, hordered⟩, fun hac pre hpre a ha b hab => ?_⟩
  have hnone : left.filterMap (fun i => paths[i]?) = [] := by
    refine List.eq_nil_iff_forall_not_mem.mpr fun x hx => ?_
    exact not_leadsToCycle hac x (hrest x hx)
  rw [hnone, List.append_nil] at hpre
  obtain ⟨post, hpost⟩ := hpre
  obtain ⟨p, q, rfl⟩ := List.append_of_mem ha
  have hb : b ∈ p := hordered p a (q ++ post) (by rw [← hpost]; simp) b hab
  exact List.mem_append_left _ hb

/-- A cycle of two paths, then a path that lists itself and one listed after it. -/
def Sample.batch : List PathInfo :=
  [⟨"a", 1, ["b"], []⟩, ⟨"b", 1, ["a"], []⟩, ⟨"c", 1, ["d", "c"], []⟩, ⟨"d", 1, [], []⟩]

theorem referencesFirst_order_cycle : ∃ out, referencesFirst Sample.batch = some out ∧
    ∃ placed rest, out = placed ++ rest ∧ rest.Sublist Sample.batch ∧
      ∀ a ∈ placed, ¬ LeadsToCycle (RefersTo Sample.batch) a := by
  obtain ⟨out, hout, -, h⟩ := referencesFirst_order Sample.batch
  obtain ⟨⟨placed, rest, hsplit, hplaced, -, hsub, -⟩, -⟩ := h (by decide)
  exact ⟨out, hout, placed, rest, hsplit, hsub, hplaced⟩

end Garret.Client
