import Garret.Client.Retry
import Mathlib.Algebra.GroupWithZero.Nat

/-!
# The batch of a push

Model of `partition_upstream`, `retain_missing`, `references_first` and `tally`
(`crates/garret-client/src/push.rs`). Of a `PathInfo` only what these read is kept; the rest goes
into the upload's body as it is.

`references_first` is Kahn's algorithm with the order as its queue. A counter that would go below
zero, an index out of range and a slot taken twice are panics, and so `none`.
`mem_referencesFirst`: no path of the batch is dropped.
-/

namespace Garret.Client

/-- `PathInfo`. -/
structure PathInfo where
  path : String
  narSize : Int
  references : List String
  signatures : List String
  deriving DecidableEq, Repr

/-- The hash a path is stored under. -/
def PathInfo.hash (info : PathInfo) : String := hashOfStorePath info.path

/-- `key_name`. -/
def keyName (key : String) : String := ((splitOnce ':' key).map Prod.fst).getD key

/-- `signed_by`. -/
def signedBy (signatures keyNames : List String) : Bool :=
  signatures.any fun sig => keyNames.any fun name => name == keyName sig

/-- `partition_upstream`: ours, and what an upstream key signs. -/
def partitionUpstream (closure : List PathInfo) (upstreamKeys : List String) :
    List PathInfo × List PathInfo :=
  closure.partition fun p => !signedBy p.signatures upstreamKeys

theorem mem_partitionUpstream {closure : List PathInfo} {upstreamKeys : List String}
    {info : PathInfo} : info ∈ (partitionUpstream closure upstreamKeys).1 ↔
      info ∈ closure ∧ signedBy info.signatures upstreamKeys = false := by
  simp [partitionUpstream]

/-- `retain_missing`. -/
def retainMissing (infos : List PathInfo) (missing : List String) : List PathInfo :=
  infos.filter fun p => missing.contains p.hash

theorem mem_retainMissing {infos : List PathInfo} {missing : List String} {info : PathInfo} :
    info ∈ retainMissing infos missing ↔ info ∈ infos ∧ info.hash ∈ missing := by
  simp [retainMissing]

/-- `nar_bytes`. -/
def narBytes (paths : List PathInfo) : ℕ := (paths.map fun p => p.narSize.toNat).sum

/-! ## `references_first` -/

/-- The index of a path; of several entries with one path the last counts. -/
def indexOf (paths : List PathInfo) (path : String) : Option ℕ :=
  ((paths.zipIdx.filter fun e => e.1.path == path).getLast?).map Prod.snd

/-- The references of each entry inside the batch, itself aside, as often as they are listed. -/
def inBatch (paths : List PathInfo) : List (List ℕ) :=
  paths.zipIdx.map fun e => e.1.references.filterMap fun r =>
    (indexOf paths r).filter fun j => j ≠ e.2

/-- The entries that wait for entry `j`, once for each reference. -/
def referrers (refs : List (List ℕ)) (j : ℕ) : List ℕ :=
  refs.zipIdx.flatMap fun e => (e.1.filter fun k => k = j).map fun _ => e.2

/-- The counters and the order so far. -/
structure Placing where
  waiting : List ℕ
  order : List ℕ
  deriving DecidableEq, Repr

namespace Placing

/-- One reference of each listed entry is placed; an entry that waits for nothing more is placed
too. -/
def release : List ℕ → Placing → Option Placing
  | [], s => some s
  | k :: ks, s =>
    match s.waiting[k]? with
    | some (n + 1) =>
      release ks ⟨s.waiting.set k n, if n = 0 then s.order ++ [k] else s.order⟩
    | _ => none

/-- The loop over the order, from position `next` on, for at most `fuel` entries. -/
def run (succs : ℕ → List ℕ) : ℕ → ℕ → Placing → Option Placing
  | 0, next, s => if next < s.order.length then none else some s
  | fuel + 1, next, s =>
    match s.order[next]? with
    | none => some s
    | some i => (release (succs i) s).bind (run succs fuel (next + 1))

/-- Every entry that waits for nothing has been placed. -/
def Settled (s : Placing) : Prop := ∀ i, s.waiting[i]? = some 0 → i ∈ s.order

theorem release_settled : ∀ {ks : List ℕ} {s s' : Placing}, release ks s = some s' → s.Settled →
    s'.Settled ∧ s'.waiting.length = s.waiting.length
  | [], s, s', h, hs => by
    obtain rfl := Option.some.inj h
    exact ⟨hs, rfl⟩
  | k :: ks, s, s', h, hs => by
    simp only [release] at h
    split at h
    · rename_i n hk
      have hset : Settled ⟨s.waiting.set k n, if n = 0 then s.order ++ [k] else s.order⟩ := by
        intro i hi
        by_cases hik : k = i
        · subst hik
          rw [List.getElem?_set_self (List.getElem?_eq_some_iff.mp hk).1] at hi
          rw [if_pos (Option.some.inj hi)]
          exact List.mem_append_right _ (List.mem_singleton.mpr rfl)
        · rw [List.getElem?_set_ne hik] at hi
          have hold := hs i hi
          split
          · exact List.mem_append_left _ hold
          · exact hold
      obtain ⟨hs', hlen⟩ := release_settled h hset
      exact ⟨hs', by rw [hlen, List.length_set]⟩
    · exact absurd h (by simp)

theorem run_settled {succs : ℕ → List ℕ} : ∀ {fuel next : ℕ} {s s' : Placing},
    run succs fuel next s = some s' → s.Settled →
      s'.Settled ∧ s'.waiting.length = s.waiting.length
  | 0, next, s, s', h, hs => by
    simp only [run] at h
    split at h
    · exact absurd h (by simp)
    · obtain rfl := Option.some.inj h
      exact ⟨hs, rfl⟩
  | fuel + 1, next, s, s', h, hs => by
    simp only [run] at h
    split at h
    · obtain rfl := Option.some.inj h
      exact ⟨hs, rfl⟩
    · obtain ⟨t, ht, h⟩ := Option.bind_eq_some_iff.mp h
      obtain ⟨hts, htl⟩ := release_settled ht hs
      obtain ⟨hs', hl⟩ := run_settled h hts
      exact ⟨hs', hl.trans htl⟩

end Placing

/-- `slots[i].take().expect(..)` along an order. -/
def takeSlots : List ℕ → List (Option PathInfo) → Option (List PathInfo)
  | [], _ => some []
  | i :: order, slots =>
    match slots[i]? with
    | some (some info) => (takeSlots order (slots.set i none)).map (info :: ·)
    | _ => none

/-- `references_first`. -/
def referencesFirst (paths : List PathInfo) : Option (List PathInfo) :=
  let refs := inBatch paths
  let waiting := refs.map List.length
  let ready := (List.range paths.length).filter fun i => waiting[i]? = some 0
  (Placing.run (referrers refs) paths.length 0 ⟨waiting, ready⟩).bind fun s =>
    takeSlots (s.order ++ (List.range paths.length).filter fun i => s.waiting[i]? ≠ some 0)
      (paths.map some)

theorem mem_takeSlots {i : ℕ} {info : PathInfo} : ∀ {order : List ℕ}
    {slots : List (Option PathInfo)} {out : List PathInfo}, takeSlots order slots = some out →
    i ∈ order → slots[i]? = some (some info) → info ∈ out
  | [], _, _, _, hi, _ => absurd hi List.not_mem_nil
  | j :: order, slots, out, h, hi, hslot => by
    simp only [takeSlots] at h
    split at h
    · rename_i taken hj
      obtain ⟨rest, hrest, rfl⟩ := Option.map_eq_some_iff.mp h
      by_cases hij : j = i
      · subst hij
        obtain rfl := Option.some.inj (Option.some.inj (hj.symm.trans hslot))
        exact List.mem_cons_self
      · have hin : i ∈ order := (List.mem_cons.mp hi).resolve_left (Ne.symm hij)
        refine List.mem_cons_of_mem _ (mem_takeSlots hrest hin ?_)
        rw [List.getElem?_set_ne hij]
        exact hslot
    · exact absurd h (by simp)

/-- **No path of the batch is dropped.** -/
theorem mem_referencesFirst {paths out : List PathInfo} (h : referencesFirst paths = some out)
    {info : PathInfo} (hin : info ∈ paths) : info ∈ out := by
  obtain ⟨s, hrun, htake⟩ := Option.bind_eq_some_iff.mp h
  obtain ⟨i, hi⟩ := List.mem_iff_getElem?.mp hin
  have hlt : i < paths.length := (List.getElem?_eq_some_iff.mp hi).1
  have hstart : Placing.Settled ⟨(inBatch paths).map List.length, (List.range paths.length).filter
      fun i => ((inBatch paths).map List.length)[i]? = some 0⟩ := by
    intro j hj
    refine List.mem_filter.mpr ⟨List.mem_range.mpr ?_, decide_eq_true hj⟩
    have hlen := (List.getElem?_eq_some_iff.mp hj).1
    simpa [inBatch] using hlen
  obtain ⟨hs, -⟩ := Placing.run_settled hrun hstart
  refine mem_takeSlots htake (i := i) ?_ (by rw [List.getElem?_map, hi]; rfl)
  by_cases hz : s.waiting[i]? = some 0
  · exact List.mem_append_left _ (hs i hz)
  · exact List.mem_append_right _
      (List.mem_filter.mpr ⟨List.mem_range.mpr hlt, decide_eq_true hz⟩)

/-- A referrer listed first is uploaded last. -/
example : referencesFirst [⟨"a", 1, ["b", "a"], []⟩, ⟨"b", 1, [], []⟩] =
    some [⟨"b", 1, [], []⟩, ⟨"a", 1, ["b", "a"], []⟩] := by decide

/-! ## `tally` -/

/-- `Summary`. -/
structure Summary where
  pushed : ℕ
  deduped : ℕ
  failed : ℕ
  narBytes : ℕ
  deriving DecidableEq, Repr

/-- `Summary::default`. -/
def Summary.default : Summary := ⟨0, 0, 0, 0⟩

/-- `summary += other`. -/
def Summary.add (a b : Summary) : Summary :=
  ⟨a.pushed + b.pushed, a.deduped + b.deduped, a.failed + b.failed, a.narBytes + b.narBytes⟩

/-- One path is counted. -/
def Summary.count (s : Summary) : Outcome → Summary
  | .pushed => { s with pushed := s.pushed + 1 }
  | .deduped => { s with deduped := s.deduped + 1 }
  | .failed _ => { s with failed := s.failed + 1 }

/-- `tally`, less the list of failed paths, which `push_all` drops. -/
def tally (outcomes : List (String × Outcome)) (narBytes : ℕ) : Summary :=
  outcomes.foldl (fun s o => s.count o.2) { Summary.default with narBytes := narBytes }

theorem failed_count_le (outcomes : List (String × Outcome)) : ∀ s : Summary,
    s.failed ≤ (outcomes.foldl (fun s o => s.count o.2) s).failed := by
  induction outcomes with
  | nil => exact fun s => Nat.le_refl _
  | cons o os ih =>
    intro s
    refine Nat.le_trans ?_ (ih (s.count o.2))
    cases o.2 <;> simp [Summary.count]

/-- A summary without failures counts no failed path. -/
theorem tally_failed {outcomes : List (String × Outcome)} {narBytes : ℕ}
    (h : (tally outcomes narBytes).failed = 0) {path : String} {error : PushError} :
    (path, Outcome.failed error) ∉ outcomes := by
  intro hin
  obtain ⟨pre, post, rfl⟩ := List.append_of_mem hin
  unfold tally at h
  rw [List.foldl_append, List.foldl_cons] at h
  have hle := failed_count_le post
    (Summary.count
      (pre.foldl (fun s o => s.count o.2) { Summary.default with narBytes := narBytes })
      (.failed error))
  rw [h] at hle
  exact absurd hle (by simp [Summary.count])

end Garret.Client
