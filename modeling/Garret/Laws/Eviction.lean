import Garret.Pusher.Pass

/-!
# An eviction pass reaches its goal

`Pass` is one run of `Gc::evict` with nothing interleaved but the clock, and a record of what it
removed: one entry a snapshot, with the database each row was removed from. Requests that delete
blobs succeed (`Succeeds`); statements may fail, and end the pass with an error.

* `Pass.Core` is what every state keeps: the rows and blobs that are gone are the recorded ones, but
  for the blobs still queued. `Pass.Stands` says where the pass is in its loop.
* `Pass.inv_step`: every step keeps both, and uses up one of the steps left (`Gc.Within`).
* **`evict_contract`**: what a pass has done when it returns, that it returns, and that among other
  tasks it returns when they stop committing.
-/

namespace Garret

open Garret.Lib

/-- A row that was removed, and the database it was removed from. -/
structure Removal where
  hash : String
  row : Row
  db : Db

/-- A pass, with what it has removed of each snapshot, the last snapshot first, and how many steps
it has taken. -/
structure Pass where
  world : World
  gc : Gc
  rounds : List (Int × List Removal)
  steps : ℕ

/-- What a pass that nothing else runs beside can do. -/
inductive Pass.Act where
  | step (o : Oracle)
  | tick (now : Int)

/-- The keys the next request deletes. -/
def Gc.request : Gc → List String
  | .finish _ _ f _ => f.batches.headD []
  | _ => []

/-- The next request that deletes blobs deletes them all. -/
structure Succeeds (o : Oracle) (g : Gc) : Prop where
  ok : o.delete.ok = true
  errors : o.delete.errors = []
  applied : ∀ k ∈ g.request, k ∈ o.delete.applied

namespace Pass

/-- A pass before its first step. -/
def start (w : World) : Pass := ⟨w, .start, [], 0⟩

/-- What a step from `w` to `w'` adds to the record: a snapshot, or a row that is gone. -/
def noted (w w' : World) (rounds : List (Int × List Removal)) : Gc → List (Int × List Removal)
  | .query _ at' _ => (at', []) :: rounds
  | .evict _ _ hash _ _ _ =>
    match w.row? hash, w'.row? hash with
    | some row, none => rounds.modifyHead fun round => (round.1, round.2 ++ [⟨hash, row, w.db⟩])
    | _, _ => rounds
  | _ => rounds

/-- The hashes of the rows removed. -/
def removed (p : Pass) : List String := p.rounds.flatMap fun round => round.2.map Removal.hash

/-- The time of the last snapshot. -/
def snapshot? (p : Pass) : Option Int := p.rounds.head?.map Prod.fst

variable {δ : Type} (env : Env δ) (me : ℕ)

/-- One step of the pass, or of the clock. -/
def next (p : Pass) : Act → Option Pass
  | .step o => (p.gc.step env me p.world o).map fun x =>
      ⟨x.1, x.2, noted p.world x.1 p.rounds p.gc, p.steps + 1⟩
  | .tick now => some { p with world := { p.world with clock := now } }

/-- The clock does not go back, and requests that delete blobs succeed. -/
def Alone (p : Pass) : Act → Prop
  | .step o => Succeeds o p.gc
  | .tick now => p.world.clock ≤ now

/-- The clock stands still. -/
def Still (_ : Pass) : Act → Prop
  | .step _ => True
  | .tick _ => False

/-- Nothing is claimed, and the connection is free. -/
structure Quiet (w : World) : Prop where
  free : w.free me
  claims : ∀ h, w.inFlight.kind h = none

/-- What a snapshot's removals look like: each row was evictable at the snapshot's time when it was
removed, with the sum above the low watermark, and they went in eviction order. -/
structure Fair (round : Int × List Removal) : Prop where
  removal : ∀ r ∈ round.2, r.db.row? r.hash = some r.row ∧
    evictableWhere r.db r.hash r.row round.1 = true ∧ env.low < r.db.sumFileSize
  order : (round.2.map fun r => lruKey r.hash r.row).Pairwise (· < ·)

/-- What a pass from `w₀` has done when it returns `res`. -/
structure Report (w₀ : World) (p : Pass) (res : PassResult) : Prop where
  goal : p.world.db.sumFileSize ≤ env.low ∨ res.candidatesExhausted = true ∧
    ∃ at', p.snapshot? = some at' ∧ ∀ hash row, p.world.row? hash = some row →
      evictableWhere p.world.db hash row at' = false
  evicted : (res.evicted : ℤ) = w₀.db.count - p.world.db.count
  bytesFreed : res.bytesFreed = w₀.db.sumFileSize - p.world.db.sumFileSize
  deleted : ∀ hash ∈ p.removed, p.world.blob? hash = none
  kept : ∀ key, key ∉ p.removed.map keyFor → p.world.bucket.lookup key = w₀.bucket.lookup key

/-- The rows of `w₀` that are gone are the recorded ones, and their blobs are gone but for the
queued ones; every other row and blob is as it was. -/
structure Core (w₀ : World) (p : Pass) : Prop where
  rows : ∀ hash, hash ∉ p.removed → p.world.row? hash = w₀.row? hash
  gone : ∀ hash ∈ p.removed, (∃ row, w₀.row? hash = some row) ∧ p.world.row? hash = none
  pending : ∀ k ∈ p.gc.deletion.keys, k ∈ p.removed.map keyFor
  deleted : (∀ e, p.gc ≠ .done (.error e)) → ∀ k ∈ p.removed.map keyFor,
    k ∉ p.gc.deletion.keys → p.world.bucket.lookup k = none
  kept : ∀ k, k ∉ p.removed.map keyFor → p.world.bucket.lookup k = w₀.bucket.lookup k

/-- The counters agree with the database. -/
structure Counted (w₀ : World) (p : Pass) (res : PassResult) : Prop where
  evicted : (res.evicted : ℤ) = w₀.db.count - p.world.db.count
  bytesFreed : res.bytesFreed = w₀.db.sumFileSize - p.world.db.sumFileSize

/-- The candidates left of the last snapshot are evictable, and come after what has been removed of
it. -/
def Snapshot (w₀ : World) (p : Pass) (at' : Int) (cs : List (String × Int)) : Prop :=
  ∃ removed rest, p.rounds = (at', removed) :: rest ∧
    (∀ c ∈ cs, IsCandidate p.world.db at' c) ∧
    (removed.map (fun r => lruKey r.hash r.row) ++
      cs.filterMap fun c => (w₀.row? c.1).map (lruKey c.1)).Pairwise (· < ·)

/-- Where a pass stands in its loop. -/
inductive Stands (w₀ : World) (p : Pass) : Gc → Prop
  | start (hc : Counted w₀ p ⟨0, 0, false⟩) (hr : p.rounds = []) : Stands w₀ p .start
  | top {usage : Int} {res : PassResult} (hu : usage = p.world.db.sumFileSize)
    (hc : Counted w₀ p res) : Stands w₀ p (.top usage res)
  | query {usage at' : Int} {res : PassResult} (hu : usage = p.world.db.sumFileSize)
    (hc : Counted w₀ p res) (hlow : env.low < usage) : Stands w₀ p (.query usage at' res)
  | pick {usage at' : Int} {cs : List (String × Int)} {settled : Bool} {d : Deletion}
    {res : PassResult} (hu : usage = p.world.db.sumFileSize) (hc : Counted w₀ p res)
    (hlow : env.low < usage) (hs : p.Snapshot w₀ at' cs) (hset : settled = true ∨ cs ≠ [])
    (hd : ∀ h ∈ d.claims, p.world.row? h = none) : Stands w₀ p (.pick usage at' cs settled d res)
  | evict {usage at' size : Int} {hash : String} {cs : List (String × Int)} {d : Deletion}
    {res : PassResult} (hu : usage = p.world.db.sumFileSize) (hc : Counted w₀ p res)
    (hlow : env.low < usage) (hs : p.Snapshot w₀ at' ((hash, size) :: cs))
    (hd : ∀ h ∈ d.claims, p.world.row? h = none) : Stands w₀ p (.evict usage at' hash cs d res)
  | finish {usage : Int} {f : Finish} {res : PassResult} (hu : usage = p.world.db.sumFileSize)
    (hc : Counted w₀ p res) (hf : f.failed = 0) : Stands w₀ p (.finish usage true f res)
  | done {res : PassResult} (hr : p.Report env w₀ res) : Stands w₀ p (.done (.ok res))
  | failed {e : String} : Stands w₀ p (.done (.error e))

/-- What every state of a pass keeps. -/
structure Inv (w₀ : World) (p : Pass) : Prop where
  free : p.world.free me
  owned : Owned p.world.inFlight.kind fun _ : Unit => p.gc.holds
  core : p.Core w₀
  fair : ∀ round ∈ p.rounds, Fair env round
  stands : p.Stands env w₀ p.gc
  budget : ∃ b, p.steps + b ≤ 3 + w₀.db.count * Gc.perRound ∧ Gc.Within (p.world, p.gc) b

/-! ## Requests -/

/-- A request that deletes all it is asked for, or the end of `finish`. -/
theorem finish_succeeds {w w' : World} {o : Oracle} {f : Finish}
    {next : Finish ⊕ Except String Unit} (hok : o.delete.ok = true)
    (herr : o.delete.errors = []) (happ : ∀ k ∈ f.batches.headD [], k ∈ o.delete.applied)
    (h : f.step w o = (w', next)) :
    (∃ batch rest, f.batches = batch :: rest ∧ w' = w.unlink batch ∧
      next = .inl ⟨f.claims, rest, f.failed⟩) ∨
    (f.batches = [] ∧ w' = w.release f.claims ∧ (f.failed = 0 → next = .inr (.ok ()))) := by
  unfold Finish.step at h
  split at h
  · rename_i hb
    obtain ⟨rfl, rfl⟩ := Prod.mk.inj h
    refine Or.inr ⟨hb, rfl, fun hf => ?_⟩
    rw [if_pos hf]
  · rename_i batch rest hb
    have hall : batch.filter (fun k => o.delete.applied.contains k) = batch := by
      refine List.filter_eq_self.mpr fun k hk => ?_
      simpa using happ k (by simpa [hb] using hk)
    simp only [hok, herr, hall, if_true, List.length_nil, Nat.add_zero] at h
    obtain ⟨rfl, rfl⟩ := Prod.mk.inj h
    exact Or.inl ⟨batch, rest, hb, rfl, rfl⟩

/-- It never fails. -/
theorem finish_not_failed {w w' : World} {o : Oracle} {f : Finish} {e : String}
    (hok : o.delete.ok = true) (herr : o.delete.errors = [])
    (happ : ∀ k ∈ f.batches.headD [], k ∈ o.delete.applied) (hf : f.failed = 0) :
    f.step w o ≠ (w', .inr (.error e)) := by
  intro h
  rcases finish_succeeds hok herr happ h with ⟨batch, rest, -, -, hnext⟩ | ⟨-, -, hnext⟩
  · exact absurd hnext (by simp)
  · exact absurd (hnext hf) (by simp)

/-! ## The rows and blobs that are gone -/

section

variable {w₀ : World} {p q : Pass}

/-- The rows stay as they are. -/
theorem Core.rows_still (h : p.Core w₀) (hrow : ∀ k, q.world.row? k = p.world.row? k)
    (hr : q.removed = p.removed) :
    (∀ hash, hash ∉ q.removed → q.world.row? hash = w₀.row? hash) ∧
      ∀ hash ∈ q.removed, (∃ row, w₀.row? hash = some row) ∧ q.world.row? hash = none := by
  constructor
  · intro hash hin
    rw [hrow]
    exact h.rows hash (hr ▸ hin)
  · intro hash hin
    rw [hrow]
    exact h.gone hash (hr ▸ hin)

/-- A step that deletes nothing. -/
theorem Core.still (h : p.Core w₀) (hrow : ∀ k, q.world.row? k = p.world.row? k)
    (hb : q.world.bucket = p.world.bucket) (hr : q.removed = p.removed)
    (hk : q.gc.deletion.keys = p.gc.deletion.keys) (he : ∀ e, p.gc ≠ .done (.error e)) :
    q.Core w₀ where
  rows := (h.rows_still hrow hr).1
  gone := (h.rows_still hrow hr).2
  pending k hin := by
    rw [hr]
    exact h.pending k (hk ▸ hin)
  deleted _ k hin hout := by
    rw [hb]
    exact h.deleted he k (hr ▸ hin) (hk ▸ hout)
  kept k hin := by
    rw [hb]
    exact h.kept k (hr ▸ hin)

/-- A pass that ends with an error leaves the queued blobs. -/
theorem Core.failed (h : p.Core w₀) (hrow : ∀ k, q.world.row? k = p.world.row? k)
    (hb : q.world.bucket = p.world.bucket) (hr : q.removed = p.removed) {e : String}
    (he : q.gc = .done (.error e)) : q.Core w₀ where
  rows := (h.rows_still hrow hr).1
  gone := (h.rows_still hrow hr).2
  pending k hin := by
    rw [he] at hin
    exact absurd hin List.not_mem_nil
  deleted hne := absurd he (hne e)
  kept k hin := by
    rw [hb]
    exact h.kept k (hr ▸ hin)

/-- A row is removed, and its blob queued. -/
theorem Core.evicts (h : p.Core w₀) {hash : String} {row : Row}
    (hold : p.world.row? hash = some row)
    (hrow : ∀ k, q.world.row? k = if k = hash then none else p.world.row? k)
    (hb : q.world.bucket = p.world.bucket) (hr : ∀ k, k ∈ q.removed ↔ k ∈ p.removed ∨ k = hash)
    (hk : q.gc.deletion.keys = p.gc.deletion.keys ++ [keyFor hash])
    (he : ∀ e, p.gc ≠ .done (.error e)) : q.Core w₀ := by
  have hnew : hash ∉ p.removed := by
    intro hin
    rw [(h.gone hash hin).2] at hold
    exact absurd hold (by simp)
  have hkeys : ∀ k, k ∈ q.removed.map keyFor ↔ k ∈ p.removed.map keyFor ∨ k = keyFor hash := by
    intro k
    simp only [List.mem_map, hr]
    constructor
    · rintro ⟨x, hx | rfl, rfl⟩
      · exact Or.inl ⟨x, hx, rfl⟩
      · exact Or.inr rfl
    · rintro (⟨x, hx, rfl⟩ | rfl)
      · exact ⟨x, Or.inl hx, rfl⟩
      · exact ⟨hash, Or.inr rfl, rfl⟩
  refine ⟨fun k hout => ?_, fun k hin => ?_, fun k hin => ?_, fun _ k hin hout => ?_,
    fun k hout => ?_⟩
  · rw [hr, not_or] at hout
    rw [hrow, if_neg hout.2]
    exact h.rows k hout.1
  · rw [hrow]
    rcases (hr k).mp hin with hin | rfl
    · obtain ⟨hrow₀, hnone⟩ := h.gone k hin
      exact ⟨hrow₀, by rw [hnone, ite_self]⟩
    · exact ⟨⟨row, (h.rows k hnew).symm.trans hold⟩, if_pos rfl⟩
  · rw [hk] at hin
    rw [hkeys]
    rcases List.mem_append.mp hin with hin | hin
    · exact Or.inl (h.pending k hin)
    · exact Or.inr (List.mem_singleton.mp hin)
  · rw [hk, List.mem_append, not_or, List.mem_singleton] at hout
    rw [hb]
    exact h.deleted he k (((hkeys k).mp hin).resolve_right hout.2) hout.1
  · rw [hkeys, not_or] at hout
    rw [hb]
    exact h.kept k hout.1

/-- A batch of queued blobs is deleted. -/
theorem Core.unlinks (h : p.Core w₀) {batch : List String}
    (hrow : ∀ k, q.world.row? k = p.world.row? k)
    (hb : q.world.bucket = Table.eraseAll p.world.bucket batch) (hr : q.removed = p.removed)
    (hk : p.gc.deletion.keys = batch ++ q.gc.deletion.keys)
    (he : ∀ e, p.gc ≠ .done (.error e)) : q.Core w₀ where
  rows := (h.rows_still hrow hr).1
  gone := (h.rows_still hrow hr).2
  pending k hin := by
    rw [hr]
    refine h.pending k ?_
    rw [hk]
    exact List.mem_append_right _ hin
  deleted _ k hin hout := by
    rw [hb, Table.lookup_eraseAll]
    by_cases hbatch : k ∈ batch
    · exact if_pos hbatch
    · rw [if_neg hbatch]
      refine h.deleted he k (hr ▸ hin) ?_
      rw [hk, List.mem_append, not_or]
      exact ⟨hbatch, hout⟩
  kept k hin := by
    rw [hr] at hin
    have hbatch : k ∉ batch := by
      intro hk'
      refine hin (h.pending k ?_)
      rw [hk]
      exact List.mem_append_left _ hk'
    rw [hb, Table.lookup_eraseAll, if_neg hbatch]
    exact h.kept k hin

/-- What a pass reports when no blob is left to delete. -/
theorem Core.report (h : p.Core w₀) {env : Env δ} {res : PassResult} (hc : Counted w₀ p res)
    (hk : p.gc.deletion.keys = []) (he : ∀ e, p.gc ≠ .done (.error e))
    (hgoal : p.world.db.sumFileSize ≤ env.low ∨ res.candidatesExhausted = true ∧
      ∃ at', p.snapshot? = some at' ∧ ∀ hash row, p.world.row? hash = some row →
        evictableWhere p.world.db hash row at' = false) : p.Report env w₀ res where
  goal := hgoal
  evicted := hc.evicted
  bytesFreed := hc.bytesFreed
  deleted hash hin := by
    refine h.deleted he _ (List.mem_map_of_mem hin) ?_
    rw [hk]
    exact List.not_mem_nil
  kept := h.kept

/-! ## The record -/

/-- A step that leaves the rows alone records a snapshot at most. -/
theorem noted_still {w w' : World} (h : ∀ k, w'.row? k = w.row? k)
    (rounds : List (Int × List Removal)) (g : Gc) : noted w w' rounds g = rounds ∨
      ∃ at', noted w w' rounds g = (at', []) :: rounds := by
  cases g with
  | query usage at' res => exact Or.inr ⟨at', rfl⟩
  | evict usage at' hash cs d res =>
    left
    simp only [noted, h hash]
    cases w.row? hash <;> rfl
  | _ => exact Or.inl rfl

/-- A removal is recorded with the last snapshot. -/
theorem noted_evict {w w' : World} {hash : String} {row : Row} (hrow : w.row? hash = some row)
    (hgone : w'.row? hash = none) (usage at' : Int) (cs : List (String × Int)) (d : Deletion)
    (res : PassResult) (t : Int) (removals : List Removal) (rest : List (Int × List Removal)) :
    noted w w' ((t, removals) :: rest) (.evict usage at' hash cs d res) =
      (t, removals ++ [⟨hash, row, w.db⟩]) :: rest := by
  simp only [noted, hrow, hgone]
  rfl

/-- A candidate of the last snapshot has the row it had at first. -/
theorem Core.candidate (h : p.Core w₀) {at' : Int} {c : String × Int}
    (hc : IsCandidate p.world.db at' c) : p.world.row? c.1 = w₀.row? c.1 := by
  obtain ⟨row, hrow, -⟩ := hc
  refine h.rows c.1 fun hin => ?_
  have hnone := (h.gone c.1 hin).2
  rw [World.row?, hrow] at hnone
  exact absurd hnone (by simp)

/-- The candidates of a query are a snapshot. -/
theorem Core.listed (h : p.Core w₀) {io : Faults} {at' : Int} {cs : List (String × Int)}
    (hq : evictable io gcBatch at' p.world.db = .ok cs)
    {rest : List (Int × List Removal)} (hr : q.rounds = (at', []) :: rest)
    (hdb : q.world.db = p.world.db) : q.Snapshot w₀ at' cs := by
  obtain ⟨-, hcand, hord, -⟩ := evictable_ok hq
  refine ⟨[], rest, hr, fun c hc => hdb ▸ hcand c hc, ?_⟩
  have hkeys : cs.filterMap (fun c => (w₀.row? c.1).map (lruKey c.1)) =
      cs.filterMap fun c => (p.world.db.row? c.1).map (lruKey c.1) :=
    List.filterMap_congr fun c hc => by rw [← h.candidate (hcand c hc), World.row?]
  rw [List.map_nil, List.nil_append, hkeys]
  exact hord

/-- **A removal keeps the snapshot**: it goes from the head of the candidates to the end of the
removals. -/
theorem Core.evicted (h : p.Core w₀) {at' size : Int} {hash : String} {cs : List (String × Int)}
    {row : Row} (hs : p.Snapshot w₀ at' ((hash, size) :: cs))
    (hrow : p.world.db.row? hash = some row)
    (hdb : q.world.db = p.world.db.removed hash row.fileSize) :
    ∃ removals rest, p.rounds = (at', removals) :: rest ∧
      (q.rounds = (at', removals ++ [Removal.mk hash row p.world.db]) :: rest →
        q.Snapshot w₀ at' cs ∧
        ((removals ++ [Removal.mk hash row p.world.db]).map fun r => lruKey r.hash r.row).Pairwise
          (· < ·)) := by
  obtain ⟨removals, rest, hrounds, hcand, hord⟩ := hs
  have hkey : w₀.row? hash = some row :=
    (h.candidate (hcand _ List.mem_cons_self)).symm.trans hrow
  have hlist : removals.map (fun r => lruKey r.hash r.row) ++
      ((hash, size) :: cs).filterMap (fun c => (w₀.row? c.1).map (lruKey c.1)) =
      (removals ++ [Removal.mk hash row p.world.db]).map (fun r => lruKey r.hash r.row) ++
        cs.filterMap fun c => (w₀.row? c.1).map (lruKey c.1) := by
    simp [hkey]
  rw [hlist] at hord
  refine ⟨removals, rest, hrounds, fun hq => ⟨⟨_, rest, hq, fun c hc => ?_, hord⟩,
    (List.pairwise_append.mp hord).1⟩⟩
  -- the keys are distinct, so no other candidate is this row
  obtain ⟨r, hr, hsize, hev⟩ := hcand c (List.mem_cons_of_mem _ hc)
  have hne : c.1 ≠ hash := by
    intro he
    have hck : lruKey c.1 r ∈ cs.filterMap fun c => (w₀.row? c.1).map (lruKey c.1) := by
      refine List.mem_filterMap.mpr ⟨c, hc, ?_⟩
      rw [← h.candidate (hcand c (List.mem_cons_of_mem _ hc)), World.row?, hr]
      rfl
    have hlt := (List.pairwise_append.mp hord).2.2 (lruKey hash row) (by simp) _ hck
    obtain rfl : r = row := Option.some.inj (hr.symm.trans (he ▸ hrow))
    rw [he] at hlt
    exact lt_irrefl _ hlt
  refine ⟨r, ?_, hsize, ?_⟩
  · rw [hdb, row?_removed, if_neg hne]
    exact hr
  · rw [hdb]
    exact evictableWhere_removed hev hash _

/-! ## One step -/

theorem fair_nil (env : Env δ) (at' : Int) : Fair env (at', []) := ⟨by simp, List.Pairwise.nil⟩

variable {env : Env δ} {me : ℕ} {w w' : World} {g g' : Gc} {o : Oracle}
  {rounds : List (Int × List Removal)} {n m : ℕ}

/-- What an eviction leaves. -/
theorem Core.evict {usage at' size : Int} {hash : String} {cs : List (String × Int)} {d : Deletion}
    {res : PassResult} {row : Row} (hcore : Core w₀ ⟨w, .evict usage at' hash cs d res, rounds, n⟩)
    (hfair : ∀ round ∈ rounds, Fair env round) (hu : usage = w.db.sumFileSize)
    (hlow : env.low < usage) (hc : Counted w₀ ⟨w, .evict usage at' hash cs d res, rounds, n⟩ res)
    (hs : Snapshot w₀ ⟨w, .evict usage at' hash cs d res, rounds, n⟩ at' ((hash, size) :: cs))
    (hrow : w.db.row? hash = some row) (hev : evictableWhere w.db hash row at' = true)
    (hg : g'.deletion = d.hold hash) {q : Pass}
    (hq : q = ⟨{ w with db := w.db.removed hash row.fileSize }, g',
      noted w { w with db := w.db.removed hash row.fileSize } rounds
        (.evict usage at' hash cs d res), m⟩) :
    q.Core w₀ ∧ (∀ round ∈ q.rounds, Fair env round) ∧
      usage - row.fileSize = q.world.db.sumFileSize ∧ Counted w₀ q (res.add row.fileSize) ∧
      q.Snapshot w₀ at' cs := by
  have hsum := sumFileSize_removed hrow row.fileSize
  have hcount := count_removed hrow row.fileSize
  have hgone : ∀ k, q.world.row? k = if k = hash then none else w.row? k := by
    subst hq
    exact row?_removed w.db hash row.fileSize
  obtain ⟨removals, rest, hr, hnext⟩ := hcore.evicted (q := q) hs hrow (by rw [hq])
  obtain rfl : rounds = (at', removals) :: rest := hr
  have hrounds : q.rounds = (at', removals ++ [Removal.mk hash row w.db]) :: rest := by
    rw [hq]
    exact noted_evict hrow row?_removed_self usage at' cs d res at' removals rest
  obtain ⟨hsnap, hord⟩ := hnext hrounds
  refine ⟨hcore.evicts hrow hgone (by rw [hq]) (fun k => ?_) ?_ (by simp), ?_, ?_, ⟨?_, ?_⟩, hsnap⟩
  · simp only [removed, hrounds, List.flatMap_cons, List.map_append, List.map_cons, List.map_nil,
      List.mem_append, List.mem_singleton]
    tauto
  · rw [hq]
    exact congrArg Deletion.keys hg
  · rw [hrounds]
    refine List.forall_mem_cons.mpr ⟨⟨fun r hin => ?_, hord⟩, (List.forall_mem_cons.mp hfair).2⟩
    rcases List.mem_append.mp hin with hin | hin
    · exact (hfair _ List.mem_cons_self).removal r hin
    · obtain rfl := List.mem_singleton.mp hin
      exact ⟨hrow, hev, hu ▸ hlow⟩
  · rw [hq, hu]
    exact hsum.symm
  · have := hc.evicted
    simp only [PassResult.add, hq] at this ⊢
    omega
  · have := hc.bytesFreed
    simp only [PassResult.add, hq] at this ⊢
    omega

/-- **Every step keeps the record, and the pass where its loop has it.** -/
theorem stands_step (hi : Inv env me w₀ ⟨w, g, rounds, n⟩) (hok : Succeeds o g)
    (h : Gc.Ran env me w o g w' g') :
    Core w₀ ⟨w', g', noted w w' rounds g, m⟩ ∧ (∀ round ∈ noted w w' rounds g, Fair env round) ∧
      Stands env w₀ ⟨w', g', noted w w' rounds g, m⟩ g' := by
  have hcore := hi.core
  have hfair := hi.fair
  have hst := hi.stands
  simp only at hst hfair
  cases h with
  | reconciled hfree =>
    cases hst with
    | start hc hr =>
      exact ⟨hcore.still (fun _ => rfl) rfl rfl rfl (by simp), hfair,
        .top rfl ⟨hc.evicted, hc.bytesFreed⟩⟩
  | enters hlow =>
    cases hst with
    | top hu hc =>
      exact ⟨hcore.still (fun _ => rfl) rfl rfl rfl (by simp), hfair,
        .query hu ⟨hc.evicted, hc.bytesFreed⟩ hlow⟩
  | @leaves usage res hlow =>
    cases hst with
    | top hu hc =>
      have hq : Core w₀ ⟨w, .done (.ok res), rounds, m⟩ :=
        hcore.still (fun _ => rfl) rfl rfl rfl (by simp)
      exact ⟨hq, hfair, .done (hq.report ⟨hc.evicted, hc.bytesFreed⟩ rfl (by simp)
        (Or.inl (hu ▸ hlow)))⟩
  | @exhausted usage at' res hfree hq =>
    cases hst with
    | query hu hc hlow =>
      have hnone := (evictable_ok hq).2.2.2 rfl (by decide)
      have hq : Core w₀ ⟨w, .done (.ok { res with candidatesExhausted := true }),
          (at', []) :: rounds, m⟩ := hcore.still (fun _ => rfl) rfl rfl rfl (by simp)
      refine ⟨hq, List.forall_mem_cons.mpr ⟨fair_nil env at', hfair⟩, .done ?_⟩
      exact hq.report ⟨hc.evicted, hc.bytesFreed⟩ rfl (by simp) (Or.inr ⟨rfl, at', rfl, hnone⟩)
  | @listed usage at' res cs hfree hne hq =>
    cases hst with
    | query hu hc hlow =>
      refine ⟨hcore.still (fun _ => rfl) rfl rfl rfl (by simp),
        List.forall_mem_cons.mpr ⟨fair_nil env at', hfair⟩, ?_⟩
      exact .pick hu ⟨hc.evicted, hc.bytesFreed⟩ hlow (hcore.listed hq rfl rfl) (Or.inr hne)
        (by simp)
  | @emptied usage at' settled d res =>
    cases hst with
    | pick hu hc hlow hs hset hd =>
      obtain rfl : settled = true := hset.resolve_right fun hne => hne rfl
      refine ⟨hcore.still (fun _ => rfl) rfl rfl ?_ (by simp), hfair,
        .finish hu ⟨hc.evicted, hc.bytesFreed⟩ rfl⟩
      exact congrArg Deletion.keys (Finish.start_deletion d)
  | @busy usage at' hash size cs settled d res hbusy =>
    cases hst with
    | pick hu hc hlow hs hset hd =>
      -- only the pass itself claims anything, and what it has claimed has no row
      obtain ⟨removals, rest, hr, hcand, -⟩ := hs
      obtain ⟨row, hrow, -⟩ := hcand _ List.mem_cons_self
      obtain ⟨k, hk⟩ := Option.isSome_iff_exists.mp hbusy
      obtain ⟨-, hheld⟩ := hi.owned.live hash k hk
      have hnone := hd hash (mem_deleting.mp (List.mem_map_of_mem hheld))
      rw [World.row?, hrow] at hnone
      exact absurd hnone (by simp)
  | @claimed usage at' hash size cs settled d res f hf =>
    cases hst with
    | pick hu hc hlow hs hset hd =>
      exact ⟨hcore.still (fun _ => rfl) rfl rfl rfl (by simp), hfair,
        .evict hu ⟨hc.evicted, hc.bytesFreed⟩ hlow hs hd⟩
  | @spared usage at' hash cs d res hfree hkeep =>
    cases hst with
    | evict hu hc hlow hs hd =>
      -- nothing has changed since the snapshot, so the candidate is still evictable
      obtain ⟨removals, rest, hr, hcand, -⟩ := hs
      obtain ⟨row, hrow, -, hev⟩ := hcand _ List.mem_cons_self
      rw [hkeep row hrow] at hev
      exact absurd hev (by simp)
  | @evicted usage at' hash cs d res row hfree hrow hev hlow' =>
    cases hst with
    | evict hu hc hlow hs hd =>
      obtain ⟨hq, hfair, hsum, hcount, hsnap⟩ :=
        hcore.evict (m := m) hfair hu hlow hc hs hrow hev (show (Gc.pick (usage - row.fileSize) at'
          cs true (d.hold hash) (res.add row.fileSize)).deletion = d.hold hash from rfl) rfl
      refine ⟨hq, hfair, .pick hsum hcount hlow' hsnap (Or.inl rfl) fun h hin => ?_⟩
      rcases List.mem_append.mp hin with hin | hin
      · exact row?_removed_none (hd h hin)
      · rw [List.mem_singleton.mp hin]
        exact row?_removed_self
  | @reached usage at' hash cs d res row hfree hrow hev hlow' =>
    cases hst with
    | evict hu hc hlow hs hd =>
      obtain ⟨hq, hfair, hsum, hcount, hsnap⟩ :=
        hcore.evict (m := m) hfair hu hlow hc hs hrow hev (show (Gc.finish (usage - row.fileSize)
          true (.start (d.hold hash)) (res.add row.fileSize)).deletion = d.hold hash from
            Finish.start_deletion _) rfl
      exact ⟨hq, hfair, .finish hsum hcount rfl⟩
  | @deleting usage settled f f' res w' hf =>
    cases hst with
    | finish hu hc hfail =>
      rcases finish_succeeds hok.ok hok.errors hok.applied hf with
        ⟨batch, rest, hb, rfl, hnext⟩ | ⟨-, -, hnext⟩
      · obtain rfl := Sum.inl.inj hnext
        refine ⟨hcore.unlinks (fun _ => rfl) rfl rfl ?_ (by simp), hfair,
          .finish hu ⟨hc.evicted, hc.bytesFreed⟩ hfail⟩
        simp [Gc.deletion, Finish.deletion, hb]
      · exact absurd (hnext hfail) (by simp)
  | @looped usage f res w' hf =>
    cases hst with
    | finish hu hc hfail =>
      rcases finish_succeeds hok.ok hok.errors hok.applied hf with
        ⟨batch, rest, -, -, hnext⟩ | ⟨hb, rfl, -⟩
      · exact absurd hnext (by simp)
      · refine ⟨hcore.still (fun _ => rfl) rfl rfl ?_ (by simp), hfair,
          .top hu ⟨hc.evicted, hc.bytesFreed⟩⟩
        simp [Gc.deletion, Finish.deletion, hb]
  | stopped hf => cases hst
  | @undeleted usage settled f res w' e hf =>
    cases hst with
    | finish hu hc hfail =>
      exact absurd hf (finish_not_failed hok.ok hok.errors hok.applied hfail)
  | @failed g hashes hg hio =>
    have hstill : ∀ k, (w.release hashes).row? k = w.row? k := fun _ => rfl
    rcases noted_still hstill rounds g with hr | ⟨t, hr⟩
    · rw [hr]
      exact ⟨hcore.failed (fun _ => rfl) rfl rfl rfl, hfair, .failed⟩
    · rw [hr]
      exact ⟨hcore.failed (fun _ => rfl) rfl rfl rfl,
        List.forall_mem_cons.mpr ⟨fair_nil env t, hfair⟩, .failed⟩

/-! ## Every run -/

theorem inv_start (h : Quiet me w₀) : Inv env me w₀ (start w₀) where
  free := h.free
  owned := by
    have hkind : w₀.inFlight.kind = fun _ => none := funext h.claims
    show Owned w₀.inFlight.kind _
    rw [hkind]
    exact Owned.empty
  core := by
    refine ⟨fun _ _ => rfl, fun _ hin => absurd hin List.not_mem_nil,
      fun _ hin => absurd hin List.not_mem_nil, fun _ _ hin => absurd hin List.not_mem_nil,
      fun _ _ => rfl⟩
  fair := fun _ hin => absurd hin List.not_mem_nil
  stands := .start ⟨by simp [start], by simp [start]⟩ rfl
  budget := by
    refine ⟨_, ?_, Gc.within_top _ _⟩
    simp only [start, Gc.left, Gc.atTop]
    omega

/-- The clock is none of a pass's business between its snapshots. -/
theorem inv_tick (hi : Inv env me w₀ p) (now : Int) :
    Inv env me w₀ { p with world := { p.world with clock := now } } where
  free := hi.free
  owned := hi.owned
  core := ⟨hi.core.rows, hi.core.gone, hi.core.pending, hi.core.deleted, hi.core.kept⟩
  fair := hi.fair
  stands := by
    obtain ⟨w, g, rounds, n⟩ := p
    have hst := hi.stands
    simp only at hst ⊢
    cases hst with
    | start hc hr => exact .start ⟨hc.evicted, hc.bytesFreed⟩ hr
    | top hu hc => exact .top hu ⟨hc.evicted, hc.bytesFreed⟩
    | query hu hc hlow => exact .query hu ⟨hc.evicted, hc.bytesFreed⟩ hlow
    | pick hu hc hlow hs hset hd => exact .pick hu ⟨hc.evicted, hc.bytesFreed⟩ hlow hs hset hd
    | evict hu hc hlow hs hd => exact .evict hu ⟨hc.evicted, hc.bytesFreed⟩ hlow hs hd
    | finish hu hc hf => exact .finish hu ⟨hc.evicted, hc.bytesFreed⟩ hf
    | done hr => exact .done ⟨hr.goal, hr.evicted, hr.bytesFreed, hr.deleted, hr.kept⟩
    | failed => exact .failed
  budget := hi.budget

/-- **Every action of a pass keeps its invariant.** -/
theorem inv_step {a : Act} (hi : Inv env me w₀ p) (ha : p.Alone a)
    (h : p.next env me a = some q) : Inv env me w₀ q := by
  cases a with
  | tick now =>
    obtain rfl := Option.some.inj h
    exact inv_tick hi now
  | step o =>
    obtain ⟨⟨w', g'⟩, hs, rfl⟩ := Option.map_eq_some_iff.mp h
    obtain ⟨w, g, rounds, n⟩ := p
    have hran := Gc.step_ran hs
    obtain ⟨e, heff, -⟩ := Gc.step_effect (Gc.step_cases hs)
    obtain ⟨hcore, hfair, hst⟩ := stands_step (m := n + 1) hi ha hran
    obtain ⟨b, hle, hw⟩ := hi.budget
    obtain ⟨b', hlt, hw⟩ := hran.within hw
    refine ⟨?_, ?_, hcore, hfair, hst, b', ?_, hw⟩
    · rcases heff.kept with hc | ⟨-, hc⟩
      · exact (congrArg (fun c => c = none ∨ c = some me) hc).mpr hi.free
      · exact hc
    · have hmove := Owned.move (i := ()) hi.owned (heff.move (hi.owned.holder ()))
      have hone : Function.update (fun _ : Unit => g.holds) () g'.holds = fun _ => g'.holds :=
        funext fun _ => Function.update_self _ _ _
      rwa [hone] at hmove
    · simp only at hle ⊢
      omega

/-- A pass that has not returned can go on. -/
theorem next_isSome (hi : Inv env me w₀ p) (hg : ∀ r, p.gc ≠ .done r) (o : Oracle) :
    (p.next env me (.step o)).isSome := by
  obtain ⟨w, g, rounds, n⟩ := p
  have hfree : w.free me := hi.free
  simp only [next, Option.isSome_map]
  cases g with
  | done r => exact absurd rfl (hg r)
  | _ =>
    simp only [Gc.step, if_pos hfree]
    repeat' split
    all_goals rfl

/-- While no statement fails, no step ends the pass with an error. -/
theorem next_ok (hi : Inv env me w₀ p) (hok : Succeeds o p.gc) (hio : ∀ k, o.io k = false)
    (h : p.next env me (.step o) = some q) (e : String) : q.gc ≠ .done (.error e) := by
  obtain ⟨⟨w', g'⟩, hs, rfl⟩ := Option.map_eq_some_iff.mp h
  obtain ⟨w, g, rounds, n⟩ := p
  have hst := hi.stands
  have hran := Gc.step_ran hs
  rintro rfl
  cases hran with
  | undeleted hf =>
    cases hst with
    | finish hu hc hfail =>
      exact absurd hf (finish_not_failed hok.ok hok.errors hok.applied hfail)
  | failed hg hbad =>
    obtain ⟨k, hk⟩ := hbad
    rw [hio k] at hk
    exact absurd hk (by simp)

/-! ## A second pass -/

/-- Where a pass is that finds nothing to do over `w₁`. -/
inductive Rests (env : Env δ) (w₁ : World) : Gc → Prop
  | start : Rests env w₁ .start
  | top {res : PassResult} : Rests env w₁ (.top w₁.db.sumFileSize res)
  | query {usage : Int} {res : PassResult} (hlow : env.low < w₁.db.sumFileSize) :
    Rests env w₁ (.query usage w₁.clock res)
  | done {r : Except String PassResult} : Rests env w₁ (.done r)

/-- What a pass that finds nothing to do keeps. -/
structure Resting (env : Env δ) (w₁ : World) (q : Pass) : Prop where
  db : ∃ n, q.world.db = w₁.db.setTotal n
  clock : q.world.clock = w₁.clock
  removed : q.removed = []
  rests : Rests env w₁ q.gc

/-- There is nothing to evict at the clock's time, or no need to. -/
def Settled (env : Env δ) (w₁ : World) : Prop :=
  w₁.db.sumFileSize ≤ env.low ∨
    ∀ hash row, w₁.row? hash = some row → evictableWhere w₁.db hash row w₁.clock = false

theorem resting_step {w₁ : World} (hs : Settled env w₁) (hq : Resting env w₁ q) {a : Act}
    (ha : q.Still a) {q' : Pass} (h : q.next env me a = some q') : Resting env w₁ q' := by
  cases a with
  | tick now => exact absurd ha id
  | step o =>
    obtain ⟨⟨w', g'⟩, hstep, rfl⟩ := Option.map_eq_some_iff.mp h
    obtain ⟨w, g, rounds, n⟩ := q
    obtain ⟨⟨total, hdb⟩, hclock, hremoved, hrests⟩ := hq
    have hran := Gc.step_ran hstep
    simp only at hdb hclock hrests
    cases hran with
    | reconciled hfree =>
      refine ⟨⟨w.db.sumFileSize, by rw [hdb]; rfl⟩, hclock, hremoved, ?_⟩
      simp only [hdb, sumFileSize_setTotal]
      exact .top
    | enters hlow =>
      cases hrests with
      | top =>
        refine ⟨⟨total, hdb⟩, hclock, hremoved, ?_⟩
        simp only [hclock]
        exact .query hlow
    | leaves hlow => exact ⟨⟨total, hdb⟩, hclock, hremoved, .done⟩
    | exhausted hfree hnone => exact ⟨⟨total, hdb⟩, hclock, hremoved, .done⟩
    | @listed usage at' res cs hfree hne hlist =>
      cases hrests with
      | query hlow =>
        -- a candidate would be a row that is evictable now
        obtain ⟨c, hc⟩ := List.exists_mem_of_ne_nil cs hne
        obtain ⟨row, hrow, -, hev⟩ := (evictable_ok hlist).2.1 c hc
        rw [hdb] at hrow hev
        rcases hs with hle | hnone
        · exact absurd hlow (not_lt.mpr hle)
        · have hkeep := hnone c.1 row hrow
          rw [evictableWhere_setTotal, hkeep] at hev
          exact absurd hev (by simp)
    | failed hg hio =>
      rename_i hashes
      refine ⟨⟨total, hdb⟩, hclock, ?_, .done⟩
      have hstill : ∀ k, (w.release hashes).row? k = w.row? k := fun _ => rfl
      rcases noted_still hstill rounds g with hr | ⟨t, hr⟩
      · simp only [hr]
        exact hremoved
      · simp only [hr]
        exact hremoved
    | _ => cases hrests

/-- **A second pass removes nothing.** -/
theorem second_pass {w₁ : World} (hs : Settled env w₁)
    (h : Reach (Pass.next env me) Still (start w₁) q) :
    q.removed = [] ∧ ∀ hash, q.world.row? hash = w₁.row? hash := by
  have hstart : Resting env w₁ (start w₁) := ⟨⟨w₁.db.totalBytes, rfl⟩, rfl, rfl, .start⟩
  obtain ⟨⟨total, hdb⟩, -, hremoved, -⟩ :=
    h.invariant (fun _ _ _ hq ha hn => resting_step hs hq ha hn) hstart
  refine ⟨hremoved, fun hash => ?_⟩
  rw [World.row?, hdb]
  rfl

end

end Pass

/-! ## The contract -/

/-- **An eviction pass reaches its goal.** Alone, it returns after at most `perRound` steps for each
row, with an error only when a statement failed. What it removed was evictable and needed, in
eviction order within each snapshot; what it reports is what it did; and a second pass at the same
clock removes nothing. Among other tasks it returns when they stop committing. -/
theorem evict_contract {δ : Type} (env : Env δ) :
    (∀ me w₀, Pass.Quiet me w₀ → ∀ p, Reach (Pass.next env me) Pass.Alone (.start w₀) p →
      p.steps ≤ 3 + w₀.db.count * Gc.perRound ∧
      ((∀ r, p.gc ≠ .done r) → ∀ o, (p.next env me (.step o)).isSome) ∧
      (∀ o q e, Succeeds o p.gc → (∀ k, o.io k = false) → p.next env me (.step o) = some q →
        q.gc ≠ .done (.error e)) ∧
      (∀ round ∈ p.rounds, Pass.Fair env round) ∧
      (∀ hash, hash ∈ p.removed ↔ (∃ row, w₀.row? hash = some row) ∧ p.world.row? hash = none) ∧
      (∀ hash, hash ∉ p.removed → p.world.row? hash = w₀.row? hash) ∧
      ∀ res, p.gc = .done (.ok res) → p.Report env w₀ res ∧
        ((∀ at', p.snapshot? = some at' → p.world.clock = at') →
          ∀ q, Reach (Pass.next env me) Pass.Still (.start p.world) q →
            q.removed = [] ∧ ∀ hash, q.world.row? hash = p.world.row? hash)) ∧
    ∀ db bucket clock s i, Reach (Sys.step env) (fun _ _ => True) (.boot db bucket clock) s →
      s.task? i = some (.gc .start) → ∀ n c t,
        Mixed (Sys.Own env i) (Sys.Idle env i) (Sys.Theirs env i) n c s t →
          n ≤ 3 + (s.world.db.count + 2 * c) * Gc.perRound := by
  constructor
  · intro me w₀ hquiet p hreach
    have hi : Pass.Inv env me w₀ p :=
      hreach.invariant (fun _ _ _ hi ha hn => Pass.inv_step hi ha hn) (Pass.inv_start hquiet)
    refine ⟨?_, Pass.next_isSome hi, fun o q e hok hio hn => Pass.next_ok hi hok hio hn e, hi.fair,
      fun hash => ⟨hi.core.gone hash, ?_⟩, hi.core.rows, fun res hres => ?_⟩
    · obtain ⟨b, hle, -⟩ := hi.budget
      omega
    · rintro ⟨⟨row, hrow⟩, hnone⟩
      by_contra hin
      rw [hi.core.rows hash hin, hrow] at hnone
      exact absurd hnone (by simp)
    · have hst := hi.stands
      rw [hres] at hst
      cases hst with
      | done hr =>
        refine ⟨hr, fun hclock q hq => Pass.second_pass ?_ hq⟩
        rcases hr.goal with hle | ⟨-, at', hsnap, hnone⟩
        · exact Or.inl hle
        · rw [← hclock at' hsnap] at hnone
          exact Or.inr hnone
  · intro db bucket clock s i hreach hgc n c t hmixed
    exact Sys.pass_steps_le (Sys.inv_reach hreach (Sys.inv_boot db bucket clock)) hgc hmixed

/-! ### Two rows, one freed by the other -/

instance (o : Oracle) (g : Gc) : Decidable (Succeeds o g) :=
  decidable_of_iff (o.delete.ok = true ∧ o.delete.errors = [] ∧
    ∀ k ∈ g.request, k ∈ o.delete.applied) ⟨fun h => ⟨h.1, h.2.1, h.2.2⟩,
      fun h => ⟨h.ok, h.errors, h.applied⟩⟩

instance (p : Pass) (a : Pass.Act) : Decidable (p.Alone a) :=
  match a with
  | .step o => inferInstanceAs (Decidable (Succeeds o p.gc))
  | .tick now => inferInstanceAs (Decidable (p.world.clock ≤ now))

/-- What a pass returned. -/
def Gc.result? : Gc → Option PassResult
  | .done (.ok res) => some res
  | _ => none

theorem Gc.eq_done {g : Gc} {res : PassResult} (h : g.result? = some res) :
    g = .done (.ok res) := by
  cases g with
  | done r =>
    cases r with
    | ok res' => rw [Option.some.inj h]
    | error e => exact absurd h (by simp [Gc.result?])
  | _ => exact absurd h (by simp [Gc.result?])

namespace Sample

/-- The example's rows and blobs, long past the grace. -/
def stale : World :=
  .boot stored (((∅ : Table String Bytes).insert (keyFor hash) frame).insert
    (keyFor libHash) frame) 200000

/-- A request deletes both blobs when it is asked to. -/
def deletes : Oracle := { Oracle.calm with delete := ⟨true, [keyFor hash, keyFor libHash], []⟩ }

end Sample

theorem evict_contract_run :
    ∃ p res, Reach (Pass.next Sample.env 0) Pass.Alone (.start Sample.stale) p ∧
      p.gc = .done (.ok res) ∧ res = ⟨2, 30, false⟩ ∧ p.Report Sample.env Sample.stale res := by
  obtain ⟨p, hreach, hres⟩ := exec_check (Pass.next Sample.env 0) Pass.Alone
    (List.replicate 15 (.step Sample.deletes)) (.start Sample.stale)
    (fun p => p.gc.result? = some ⟨2, 30, false⟩) (by decide +kernel)
  have hquiet : Pass.Quiet 0 Sample.stale := ⟨Or.inl rfl, fun _ => rfl⟩
  have hdone := Gc.eq_done hres
  exact ⟨p, _, hreach, hdone, rfl,
    (((evict_contract Sample.env).1 0 Sample.stale hquiet p hreach).2.2.2.2.2.2 _ hdone).1⟩

end Garret
