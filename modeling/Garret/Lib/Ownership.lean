import Mathlib.Data.List.Nodup
import Mathlib.Logic.Function.Basic
import Mathlib.Tactic.ByContra
import Mathlib.Tactic.Tauto

/-!
# Exclusive ownership through a claim map

Any number of owners `i : ι` share a map `claims : κ → Option K` with at most one entry per key.
`holds i` lists the claims owner `i` believes it has. `Owned` says the map and the owners agree:
every held claim is in the map, no key is held twice, and every entry of the map has a holder.

`Move c c' H H'` is what one owner may do to the map while what it holds goes from `H` to `H'`:
take a key nobody claims, and release keys it holds. `Owned.move` lifts such a move to the whole
system; `Move.same`, `Move.take`, `Move.drop` and `Move.dropAll` are the moves programs make.

`Owned.disjoint` is the payoff: a key one owner holds is held by no other.
-/

namespace Garret.Lib

variable {ι κ K : Type}

/-- What is held is in the map, under distinct keys. -/
structure Holds (claims : κ → Option K) (H : List (κ × K)) : Prop where
  held : ∀ e ∈ H, claims e.1 = some e.2
  nodup : (H.map Prod.fst).Nodup

/-- The claim map and its owners agree. -/
structure Owned (claims : κ → Option K) (holds : ι → List (κ × K)) : Prop where
  holder : ∀ i, Holds claims (holds i)
  disjoint : ∀ i j, i ≠ j → ∀ e ∈ holds i, e.1 ∉ (holds j).map Prod.fst
  live : ∀ k v, claims k = some v → ∃ i, (k, v) ∈ holds i

/-- One owner's move: keys it neither held nor holds keep their entry, a key it gains was free,
a key it gives up becomes free. -/
structure Move (c c' : κ → Option K) (H H' : List (κ × K)) : Prop where
  frame : ∀ k, k ∉ H.map Prod.fst → k ∉ H'.map Prod.fst → c' k = c k
  gained : ∀ e ∈ H', e ∈ H ∨ c e.1 = none
  lost : ∀ k, k ∈ H.map Prod.fst → k ∉ H'.map Prod.fst → c' k = none
  holds : Holds c' H'

theorem Holds.nil (c : κ → Option K) : Holds c [] := ⟨by simp, by simp⟩

/-- A key that is not free is not newly gained. -/
theorem Holds.not_mem_of_none {c : κ → Option K} {H : List (κ × K)} (h : Holds c H) {k : κ}
    (hc : c k = none) : k ∉ H.map Prod.fst := by
  intro hk
  obtain ⟨e, he, rfl⟩ := List.mem_map.mp hk
  rw [h.held e he] at hc
  exact absurd hc (by simp)

/-! ## The moves -/

/-- Nothing happens to the map, and the same claims are held. -/
theorem Move.same {c : κ → Option K} {H H' : List (κ × K)} (h : Holds c H) (hp : H'.Perm H) :
    Move c c H H' where
  frame _ _ _ := rfl
  gained _ he := Or.inl (hp.mem_iff.mp he)
  lost _ hk hk' := absurd ((hp.map Prod.fst).mem_iff.mpr hk) hk'
  holds := ⟨fun e he => h.held e (hp.mem_iff.mp he), (hp.map Prod.fst).nodup_iff.mpr h.nodup⟩

/-- A free key is taken. -/
theorem Move.take {c c' : κ → Option K} {H H' : List (κ × K)} {k : κ} {v : K} (h : Holds c H)
    (hfree : c k = none) (hk : c' k = some v) (hc : ∀ x, x ≠ k → c' x = c x)
    (hp : H'.Perm ((k, v) :: H)) : Move c c' H H' := by
  have hmem : ∀ e, e ∈ H' ↔ e = (k, v) ∨ e ∈ H := fun e => by
    rw [hp.mem_iff, List.mem_cons]
  have hkeys : ∀ x, x ∈ H'.map Prod.fst ↔ x = k ∨ x ∈ H.map Prod.fst := fun x => by
    rw [(hp.map Prod.fst).mem_iff, List.map_cons, List.mem_cons]
  have hkH : k ∉ H.map Prod.fst := h.not_mem_of_none hfree
  refine ⟨fun x _ hx' => ?_, fun e he => ?_, fun x hx hx' => ?_, fun e he => ?_, ?_⟩
  · exact hc x fun e => hx' ((hkeys x).mpr (Or.inl e))
  · rcases (hmem e).mp he with rfl | he
    · exact Or.inr hfree
    · exact Or.inl he
  · exact absurd ((hkeys x).mpr (Or.inr hx)) hx'
  · rcases (hmem e).mp he with rfl | he
    · exact hk
    · rw [hc e.1 fun hek => hkH (hek ▸ List.mem_map_of_mem he)]
      exact h.held e he
  · rw [(hp.map Prod.fst).nodup_iff, List.map_cons, List.nodup_cons]
    exact ⟨hkH, h.nodup⟩

/-- A held key is given up. -/
theorem Move.drop {c c' : κ → Option K} {H H' : List (κ × K)} {k : κ} {v : K} (h : Holds c H)
    (hp : H.Perm ((k, v) :: H')) (hk : c' k = none) (hc : ∀ x, x ≠ k → c' x = c x) :
    Move c c' H H' := by
  have hmem : ∀ e, e ∈ H ↔ e = (k, v) ∨ e ∈ H' := fun e => by
    rw [hp.mem_iff, List.mem_cons]
  have hkeys : ∀ x, x ∈ H.map Prod.fst ↔ x = k ∨ x ∈ H'.map Prod.fst := fun x => by
    rw [(hp.map Prod.fst).mem_iff, List.map_cons, List.mem_cons]
  have hnd := (hp.map Prod.fst).nodup_iff.mp h.nodup
  rw [List.map_cons, List.nodup_cons] at hnd
  refine ⟨fun x hx _ => ?_, fun e he => Or.inl ((hmem e).mpr (Or.inr he)), fun x hx hx' => ?_,
    fun e he => ?_, hnd.2⟩
  · exact hc x fun e => hx ((hkeys x).mpr (Or.inl e))
  · rcases (hkeys x).mp hx with rfl | hx
    · exact hk
    · exact absurd hx hx'
  · have hek : e.1 ≠ k := fun hek => hnd.1 (List.mem_map.mpr ⟨e, he, hek⟩)
    rw [hc e.1 hek]
    exact h.held e ((hmem e).mpr (Or.inr he))

/-- Everything held is given up. -/
theorem Move.dropAll {c c' : κ → Option K} {H : List (κ × K)}
    (hk : ∀ k ∈ H.map Prod.fst, c' k = none) (hc : ∀ x, x ∉ H.map Prod.fst → c' x = c x) :
    Move c c' H [] :=
  ⟨fun x hx _ => hc x hx, by simp, fun x hx _ => hk x hx, Holds.nil c'⟩

/-! ## The whole system -/

/-- Nobody holds anything over an empty map. -/
theorem Owned.empty : Owned (fun _ : κ => (none : Option K)) fun _ : ι => [] :=
  ⟨fun _ => Holds.nil _, by simp, by simp⟩

/-- A key one owner holds is not gained by another owner's move. -/
theorem Owned.not_gained {c c' : κ → Option K} {holds : ι → List (κ × K)} {i j : ι}
    {H' : List (κ × K)} (ho : Owned c holds) (hm : Move c c' (holds i) H') (hij : j ≠ i)
    {e : κ × K} (he : e ∈ holds j) : e.1 ∉ H'.map Prod.fst := by
  intro hk
  obtain ⟨f, hf, hfe⟩ := List.mem_map.mp hk
  rcases hm.gained f hf with hfi | hfree
  · exact ho.disjoint j i hij e he (hfe ▸ List.mem_map_of_mem hfi)
  · have := (ho.holder j).held e he
    rw [← hfe, hfree] at this
    exact absurd this (by simp)

/-- **One owner's move keeps the whole system in agreement.** -/
theorem Owned.move [DecidableEq ι] {c c' : κ → Option K} {holds : ι → List (κ × K)} {i : ι}
    {H' : List (κ × K)} (ho : Owned c holds) (hm : Move c c' (holds i) H') :
    Owned c' (Function.update holds i H') := by
  -- another owner's keys are outside both `holds i` and `H'`, so their entries stay
  have hother : ∀ j, j ≠ i → ∀ e ∈ holds j, c' e.1 = c e.1 := fun j hj e he =>
    hm.frame e.1 (ho.disjoint j i hj e he) (ho.not_gained hm hj he)
  refine ⟨fun j => ?_, fun j k hjk e he => ?_, fun k v hkv => ?_⟩
  · by_cases hj : j = i
    · subst hj
      rw [Function.update_self]
      exact hm.holds
    · rw [Function.update_of_ne hj]
      exact ⟨fun e he => (hother j hj e he).trans ((ho.holder j).held e he), (ho.holder j).nodup⟩
  · by_cases hj : j = i
    · subst hj
      rw [Function.update_self] at he
      rw [Function.update_of_ne (Ne.symm hjk)]
      intro hk
      obtain ⟨f, hf, hfe⟩ := List.mem_map.mp hk
      exact ho.not_gained hm (Ne.symm hjk) hf (hfe ▸ List.mem_map_of_mem he)
    · rw [Function.update_of_ne hj] at he
      by_cases hk : k = i
      · subst hk
        rw [Function.update_self]
        exact ho.not_gained hm hj he
      · rw [Function.update_of_ne hk]
        exact ho.disjoint j k hjk e he
  · by_cases hH' : k ∈ H'.map Prod.fst
    · obtain ⟨e, he, rfl⟩ := List.mem_map.mp hH'
      have := hm.holds.held e he
      rw [hkv] at this
      refine ⟨i, ?_⟩
      rw [Function.update_self, Option.some.inj this]
      exact he
    · by_cases hH : k ∈ (holds i).map Prod.fst
      · rw [hm.lost k hH hH'] at hkv
        exact absurd hkv (by simp)
      · rw [hm.frame k hH hH'] at hkv
        obtain ⟨j, hj⟩ := ho.live k v hkv
        have hji : j ≠ i := fun e => hH (e ▸ List.mem_map_of_mem hj)
        exact ⟨j, by rw [Function.update_of_ne hji]; exact hj⟩

end Garret.Lib
