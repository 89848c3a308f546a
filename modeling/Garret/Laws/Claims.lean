import Garret.Laws.RowBlob

/-!
# What a claim protects

The claim invariants of `verification/tla/GarretPush.tla`, for any number of tasks, paths and
references: `ClaimExclusive` and `DelClaimsHeld` (every claim has one holder, and it lives), and
`BlobSurvivesClaim`: from the moment a transfer has ended until the row is in, the blob of an upload
stays as it was stored, its path stays claimed, and no row appears.
-/

namespace Garret.Sys

open Garret.Lib

variable {δ : Type} {env : Env δ} {s : Sys}

/-- A held path is held by nobody else. -/
theorem alone_of_held {i : ℕ} {hash : String} {k : Kind} (hi : Inv env s)
    (hheld : (hash, k) ∈ s.holds i) (j : ℕ) (hji : j ≠ i) (k' : Kind) : (hash, k') ∉ s.holds j :=
  fun hj => hi.owned.disjoint i j (Ne.symm hji) _ hheld (List.mem_map.mpr ⟨_, hj, rfl⟩)

/-- **A claim has one holder, and protects what it is for.** In every run that loses no blob, every
entry of the in-flight map is held by one live task and every claim a task holds is in the map; and
an upload whose blob is stored finds its path claimed by itself alone, without a row, and its blob
as it was stored, until it inserts. -/
theorem claim_protects (env : Env δ) (clock : Int) {s : Sys}
    (h : Reach (step env) Lossless (boot .empty ∅ clock) s) :
    (∀ hash k, s.world.inFlight.kind hash = some k ↔
      ∃ i, (hash, k) ∈ s.holds i ∧ ∀ j, j ≠ i → ∀ k', (hash, k') ∉ s.holds j) ∧
    ∀ i t hash obj, s.task? i = some t → t.object? = some (hash, obj) →
      s.world.inFlight.kind hash = some .upload ∧ (hash, Kind.upload) ∈ s.holds i ∧
      s.world.row? hash = none ∧ HasBlob env s.world hash obj.fileHash obj.fileSize := by
  have hinv : Inv env s ∧ Backed env s :=
    h.invariant (I := fun s => Inv env s ∧ Backed env s)
      (fun s a s' hi hl hs => ⟨inv_step hi.1 hs, fun _ _ => row_backed hi.1 hi.2 hl hs,
        fun _ _ _ _ => object_backed hi.1 hi.2 hl hs⟩)
      ⟨inv_boot _ _ _, backed_boot clock⟩
  obtain ⟨hi, hb⟩ := hinv
  refine ⟨fun hash k => ⟨fun hk => ?_, fun ⟨i, hheld, _⟩ => (hi.owned.holder i).held _ hheld⟩,
    fun i t hash obj ht ho => ?_⟩
  · obtain ⟨i, hheld⟩ := hi.owned.live hash k hk
    exact ⟨i, hheld, alone_of_held hi hheld⟩
  · have habsent := Task.object_absent ho
    have hheld : (hash, Kind.upload) ∈ s.holds i := by
      rw [holds_of_task ht]
      exact Task.absent_held habsent
    exact ⟨(hi.owned.holder i).held _ hheld, hheld, (hi.sound i t ht).absent hash habsent,
      hb.object i t hash obj ht ho⟩

/-- An upload waits for its insert while a sweep that does not know of its row looks at the path. -/
theorem claim_protects_from_sweep : ∃ (s : Sys) (obj : Object),
    Reach (step Sample.env) Lossless (boot .empty ∅ 7) s ∧
    (s.task? 1).isSome = true ∧ s.world.row? Sample.hash = none ∧
    HasBlob Sample.env s.world Sample.hash obj.fileHash obj.fileSize := by
  have hrun : ((exec (step Sample.env) Lossless
      ((Sample.push 0 "ci").dropLast ++ [.spawn 1 (.sweep .start), .step 1 .calm])
        (boot .empty ∅ 7)).bind fun s => ((s.task? 0).bind Task.object?).filter fun x =>
          decide (x.1 = Sample.hash ∧ (s.task? 1).isSome = true)).isSome = true := by
    decide +kernel
  obtain ⟨⟨hash, obj⟩, hobj⟩ := Option.isSome_iff_exists.mp hrun
  obtain ⟨s, hs, hobj⟩ := Option.bind_eq_some_iff.mp hobj
  obtain ⟨hobj, hx⟩ := Option.filter_eq_some_iff.mp hobj
  obtain ⟨rfl, hsome⟩ := of_decide_eq_true hx
  obtain ⟨t, ht, ho⟩ := Option.bind_eq_some_iff.mp hobj
  obtain ⟨-, -, hrow, hblob⟩ := (claim_protects Sample.env 7 (exec_reach hs)).2 0 t _ obj ht ho
  exact ⟨s, obj, exec_reach hs, hsome, hrow, hblob⟩

end Garret.Sys
