import Garret.Lib.Run
import Garret.Puller.Bumps

/-!
# How far last-accessed times fall behind

Runs of the Puller's bumps against the Pusher's commits (`Bumps.step`), whatever their order.

* `floor`: a hash's `last_accessed_at`, or when its last row went. It never goes down
  (`step_floor`), so a value read earlier is a lower bound of what is stored now.
* `Covered`: a hit since the insertion of its row is reflected in the row, or its hash is pending,
  or it is in the batch under way and that flush will move the row and far enough.
* **`bumps_contract`**: times never go down, a flush touches nothing but the access times of hashes
  that were hit, and a fresh hit queues nothing; and when every swap is `InTime`, a row at rest is
  never more than the debounce behind its hits.
* **`early_reading_loses_hit`**: `Bumps::flush` is given a clock reading from before the swap. A hit
  queued in between is taken and then judged by the older reading; the row stays stale and nothing
  is pending.
-/

namespace Garret

open Garret.Lib

namespace Row

theorem le_bump {debounce : Int} (hd : 0 ≤ debounce) (now : Int) (row : Row) :
    row.lastAccessedAt ≤ (row.bump now debounce).lastAccessedAt := by
  unfold bump
  split
  · simp only
    omega
  · exact le_refl _

theorem bump_stale {debounce now : Int} {row : Row} (h : row.lastAccessedAt < now - debounce) :
    (row.bump now debounce).lastAccessedAt = now := by
  unfold bump
  rw [if_pos h]

theorem bump_le {now clock : Int} {row : Row} (hnow : now ≤ clock)
    (hrow : row.lastAccessedAt ≤ clock) (debounce : Int) :
    (row.bump now debounce).lastAccessedAt ≤ clock := by
  unfold bump
  split
  · exact hnow
  · exact hrow

end Row

namespace Bumps

/-! ## What the Pusher's commits do to access times -/

/-- A row after a commit is the inserted one, or was there with the same access time. -/
theorem commit_rows (c : Pull.Commit) (db : Db) (k : String) {row' : Row}
    (hrow : (c.apply db).row? k = some row') :
    (∃ io obj now, c = .insert io obj now ∧ obj.storePathHash = k ∧ inserts db c = some k ∧
      row'.lastAccessedAt = now) ∨
    ∃ row, db.row? k = some row ∧ row'.lastAccessedAt = row.lastAccessedAt := by
  have hsame : ∀ db', db' = db → db'.row? k = some row' →
      ∃ row, db.row? k = some row ∧ row'.lastAccessedAt = row.lastAccessedAt := by
    rintro _ rfl h
    exact ⟨row', h, rfl⟩
  have hremoved : ∀ hash size, (db.removed hash size).row? k = some row' →
      ∃ row, db.row? k = some row ∧ row'.lastAccessedAt = row.lastAccessedAt := by
    intro hash size h
    rw [row?_removed] at h
    split at h
    · exact absurd h (by simp)
    · exact ⟨row', h, rfl⟩
  cases c with
  | insert io obj now =>
    rcases insertObject_cases (Prod.mk.eta (p := insertObject io obj now db)).symm with
      ⟨hok, hi⟩ | ⟨-, heq⟩
    · have hnew := hi.row? k
      have hrow' : (insertObject io obj now db).2.row? k = some row' := hrow
      rw [hrow'] at hnew
      split at hnew
      · rename_i hk
        obtain rfl := Option.some.inj hnew
        refine Or.inl ⟨io, obj, now, rfl, hk.symm, ?_, rfl⟩
        simp only [inserts, hok, hk]
      · exact Or.inr ⟨row', hnew.symm, rfl⟩
    · exact Or.inr (hsame _ heq hrow)
  | evict io hash now =>
    have hrow' : (evictObject io hash now db).2.row? k = some row' := hrow
    rcases evictObject_cases (Prod.mk.eta (p := evictObject io hash now db)).symm with
      ⟨row, -, -, -, heq⟩ | ⟨-, heq⟩ | ⟨-, heq⟩
    · exact Or.inr (hremoved hash row.fileSize (heq ▸ hrow'))
    · exact Or.inr (hsame _ heq hrow)
    · exact Or.inr (hsame _ heq hrow)
  | delete io hash =>
    have hrow' : (deleteObject io hash db).2.row? k = some row' := hrow
    rcases deleteObject_cases (Prod.mk.eta (p := deleteObject io hash db)).symm with
      ⟨row, -, -, heq⟩ | ⟨-, -, heq⟩ | ⟨-, heq⟩
    · exact Or.inr (hremoved hash row.fileSize (heq ▸ hrow'))
    · exact Or.inr (hsame _ heq hrow)
    · exact Or.inr (hsame _ heq hrow)
  | pruneBatch io batch =>
    have hrow' : (deletePrunedBatch io batch db).2.row? k = some row' := hrow
    rcases deletePrunedBatch_cases (Prod.mk.eta (p := deletePrunedBatch io batch db)).symm with
      ⟨-, heq⟩ | ⟨-, heq⟩
    · rw [heq, row?_pruned] at hrow'
      split at hrow'
      · exact absurd hrow' (by simp)
      · exact Or.inr ⟨row', hrow', rfl⟩
    · exact Or.inr (hsame _ heq hrow)
  | updateSigs updates =>
    have hrow' : (db.resigned updates).row? k = some row' := hrow
    rcases Effect.row?_updates updates db with heq | ⟨u, -, -, row, hold, hnew⟩
    · exact Or.inr ⟨row', heq.symm.trans hrow', rfl⟩
    · obtain rfl := Option.some.inj (hnew.symm.trans hrow')
      exact Or.inr ⟨row, hold, rfl⟩

/-! ## Access times never go down -/

/-- The access time of a hash's row, or when its last row went. -/
def State.floor (s : State) (k : String) : Int := (s.db.row? k).elim (s.gone k) Row.lastAccessedAt

theorem State.floor_row {s : State} {k : String} {row : Row} (h : s.db.row? k = some row) :
    s.floor k = row.lastAccessedAt := by
  unfold floor
  rw [h]
  rfl

/-- What every orderly run keeps. -/
structure Inv (s : State) : Prop where
  floor_le : ∀ k, s.floor k ≤ s.clock
  /-- What a request has read is no later than what is stored. -/
  read : ∀ i h, s.hits.lookup i = some h → h.lastAccessedAt ≤ s.floor h.hash
  flush : ∀ now ∈ s.flush.now?, now ≤ s.clock
  /-- Only hashes that were hit are pending or being written. -/
  queued : ∀ k, k ∈ s.pending ∨ k ∈ s.flush.batch → k ∈ s.ever

variable {debounce : Int} {s s' : State} {a : Act}

/-- A hash's access time after a successful flush. -/
theorem row?_write {io : Faults} (hio : io 0 = false ∧ io 1 = false) (batch : List String)
    (now debounce : Int) (db : Db) (k : String) :
    (bumpLastAccessed io batch now debounce db).2.row? k =
      if k ∈ batch then (db.row? k).map (Row.bump now debounce) else db.row? k := by
  rw [bumpLastAccessed_ok hio.1 hio.2]
  exact Db.row?_bumped now debounce k batch db

/-- **The floor never goes down.** -/
theorem step_floor (hd : 0 ≤ debounce) (hi : Inv s) (ha : Orderly s a) (h : Moves debounce s a s')
    (k : String) : s.floor k ≤ s'.floor k := by
  have hclock := hi.floor_le k
  unfold State.floor at hclock ⊢
  cases h with
  | committed c =>
    simp only
    cases hrow : (c.apply s.db).row? k with
    | none =>
      cases hold : s.db.row? k with
      | none => simp
      | some row =>
        rw [hold] at hclock
        simpa using hclock
    | some row' =>
      rcases commit_rows c s.db k hrow with ⟨io, obj, now, rfl, rfl, -, hnow⟩ | ⟨row, hold, heq⟩
      · obtain ⟨-, hgone, hpresent⟩ := ha
        cases hold : s.db.row? obj.storePathHash with
        | none =>
          simp only [Option.elim_none, Option.elim_some, hnow]
          exact hgone
        | some row =>
          rw [hold] at hclock
          simp only [Option.elim_some, hnow]
          rw [hpresent (by rw [hold]; rfl)]
          exact hclock
      · rw [hold]
        exact heq.ge
  | @wrote io now batch hf =>
    simp only [row?_write ha]
    cases hold : s.db.row? k with
    | none => simp
    | some row =>
      by_cases hk : k ∈ batch
      · simp only [hk, if_true, Option.map_some, Option.elim_some]
        exact row.le_bump hd now
      · simp only [hk, if_false, Option.elim_some, le_refl]
  | ticked clock => exact le_refl _
  | read hi hrow => exact le_refl _
  | timed hi hnow => exact le_refl _
  | queued hi => exact le_refl _
  | clocked hf => exact le_refl _
  | skipped hf hp => exact le_refl _
  | took hf hp => exact le_refl _

/-- A step leaves no row accessed later than the clock. -/
theorem step_floor_le (hi : Inv s) (ha : Orderly s a) (h : Moves debounce s a s') (k : String) :
    s'.floor k ≤ s'.clock := by
  have hclock := hi.floor_le k
  unfold State.floor at hclock ⊢
  cases h with
  | committed c =>
    simp only
    cases hrow : (c.apply s.db).row? k with
    | none =>
      cases hold : s.db.row? k with
      | none =>
        rw [hold] at hclock
        simpa using hclock
      | some row => simp
    | some row' =>
      rcases commit_rows c s.db k hrow with ⟨io, obj, now, rfl, rfl, -, hnow⟩ | ⟨row, hold, heq⟩
      · simp only [Option.elim_some, hnow]
        exact ha.1
      · rw [hold] at hclock
        exact heq.le.trans hclock
  | @wrote io now batch hf =>
    simp only [row?_write ha]
    have hnow : now ≤ s.clock := hi.flush now (by rw [hf]; rfl)
    cases hold : s.db.row? k with
    | none =>
      rw [hold] at hclock
      simpa using hclock
    | some row =>
      rw [hold] at hclock
      by_cases hk : k ∈ batch
      · simp only [hk, if_true, Option.map_some, Option.elim_some]
        exact Row.bump_le hnow hclock debounce
      · simpa only [hk, if_false] using hclock
  | ticked clock => exact hclock.trans ha
  | read hi hrow => exact hclock
  | timed hi hnow => exact hclock
  | queued hi => exact hclock
  | clocked hf => exact hclock
  | skipped hf hp => exact hclock
  | took hf hp => exact hclock

/-- The requests after a step: each was there with what it has read, or has just read it. -/
theorem step_read (h : Moves debounce s a s') {i : ℕ} {x : Hit}
    (hx : s'.hits.lookup i = some x) :
    (∃ y, s.hits.lookup i = some y ∧ x.hash = y.hash ∧ x.lastAccessedAt = y.lastAccessedAt) ∨
      x.lastAccessedAt = s.floor x.hash := by
  cases h with
  | @read j hash row hj hrow =>
    simp only [Table.lookup_insert_eq] at hx
    split at hx
    · obtain rfl := Option.some.inj hx
      exact Or.inr (State.floor_row hrow).symm
    · exact Or.inl ⟨x, hx, rfl, rfl⟩
  | @timed j y hj hnow =>
    simp only [Table.lookup_insert_eq] at hx
    split at hx
    · rename_i hij
      obtain rfl := Option.some.inj hx
      exact Or.inl ⟨y, hij ▸ hj, rfl, rfl⟩
    · exact Or.inl ⟨x, hx, rfl, rfl⟩
  | queued hj =>
    simp only [Table.lookup_erase_eq] at hx
    split at hx
    · exact absurd hx (by simp)
    · exact Or.inl ⟨x, hx, rfl, rfl⟩
  | ticked clock => exact Or.inl ⟨x, hx, rfl, rfl⟩
  | committed c => exact Or.inl ⟨x, hx, rfl, rfl⟩
  | clocked hf => exact Or.inl ⟨x, hx, rfl, rfl⟩
  | skipped hf hp => exact Or.inl ⟨x, hx, rfl, rfl⟩
  | took hf hp => exact Or.inl ⟨x, hx, rfl, rfl⟩
  | wrote hf => exact Or.inl ⟨x, hx, rfl, rfl⟩

theorem step_queued (hi : Inv s) (h : Moves debounce s a s') (k : String)
    (hk : k ∈ s'.pending ∨ k ∈ s'.flush.batch) : k ∈ s'.ever := by
  cases h with
  | queued hj =>
    rcases hk with hk | hk
    · rcases mem_hit.mp hk with hk | ⟨rfl, -⟩
      · exact List.mem_cons_of_mem _ (hi.queued k (Or.inl hk))
      · exact List.mem_cons_self
    · exact List.mem_cons_of_mem _ (hi.queued k (Or.inr hk))
  | took hf hp =>
    rcases hk with hk | hk
    · exact absurd hk List.not_mem_nil
    · exact hi.queued k (Or.inl hk)
  | skipped hf hp => exact absurd hk (by simp [Flush.batch])
  | clocked hf => exact hi.queued k (hk.imp_right fun hk => absurd hk List.not_mem_nil)
  | wrote hf => exact hi.queued k (hk.imp_right fun hk => absurd hk List.not_mem_nil)
  | ticked clock => exact hi.queued k hk
  | committed c => exact hi.queued k hk
  | read hj hrow => exact hi.queued k hk
  | timed hj hnow => exact hi.queued k hk

theorem step_flush_le (hi : Inv s) (ha : Orderly s a) (h : Moves debounce s a s') :
    ∀ now ∈ s'.flush.now?, now ≤ s'.clock := by
  cases h with
  | clocked hf =>
    rintro now ⟨⟩
    exact le_refl _
  | took hf hp =>
    rintro now ⟨⟩
    exact hi.flush _ (by rw [hf]; rfl)
  | skipped hf hp => exact fun now hnow => absurd hnow (by simp [Flush.now?])
  | wrote hf => exact fun now hnow => absurd hnow (by simp [Flush.now?])
  | ticked clock => exact fun now hnow => (hi.flush now hnow).trans ha
  | committed c => exact hi.flush
  | read hj hrow => exact hi.flush
  | timed hj hnow => exact hi.flush
  | queued hj => exact hi.flush

theorem inv_step (hd : 0 ≤ debounce) (hi : Inv s) (ha : Orderly s a) (h : Moves debounce s a s') :
    Inv s' where
  floor_le := step_floor_le hi ha h
  read i x hx := by
    have hfloor := step_floor hd hi ha h x.hash
    rcases step_read h hx with ⟨y, hy, hhash, hread⟩ | hread
    · have hold := hi.read i y hy
      rw [← hhash, ← hread] at hold
      exact hold.trans hfloor
    · exact hread.le.trans hfloor
  flush := step_flush_le hi ha h
  queued := step_queued hi h

theorem inv_start {db : Db} {clock : Int} {gone : String → Int}
    (hdb : ∀ k row, db.row? k = some row → row.lastAccessedAt ≤ clock)
    (hgone : ∀ k, gone k ≤ clock) : Inv (start db clock gone) where
  floor_le k := by
    unfold State.floor
    cases hrow : (start db clock gone).db.row? k with
    | none => exact hgone k
    | some row => exact hdb k row hrow
  read i x hx := absurd hx (by simp [start])
  flush now hnow := absurd hnow (by simp [start, Flush.now?])
  queued k hk := absurd hk (by simp [start, Flush.batch])

/-! ## What a row reflects -/

/-- Every hit since the insertion of its row is in the row, or pending, or in the batch under way,
whose flush moves the row to a reading that is fresh for the hit. -/
def Covered (debounce : Int) (s : State) : Prop :=
  ∀ e ∈ s.log, ∀ row, s.db.row? e.1 = some row → e.2 - debounce ≤ row.lastAccessedAt ∨
    e.1 ∈ s.pending ∨ ∃ now batch, s.flush = .taken now batch ∧ e.1 ∈ batch ∧
      row.lastAccessedAt < now - debounce ∧ e.2 - debounce ≤ now

theorem step_covered (hd : 0 ≤ debounce) (hi : Inv s) (hc : Covered debounce s)
    (ha : Orderly s a) (ht : InTime debounce s a) (h : Moves debounce s a s') :
    Covered debounce s' := by
  cases h with
  | committed c =>
    intro e he row' hrow'
    obtain ⟨he, hkeep⟩ := List.mem_filter.mp he
    rcases commit_rows c s.db e.1 hrow' with ⟨io, obj, now, -, -, hins, -⟩ | ⟨row, hold, heq⟩
    · exact absurd hins (of_decide_eq_true hkeep)
    · rw [heq]
      exact hc e he row hold
  | @queued i hash lastAccessedAt now hj =>
    intro e he row hrow
    rcases List.mem_cons.mp he with rfl | he
    · by_cases hfresh : now - debounce ≤ lastAccessedAt
      · have hstored : s.db.row? hash = some row := hrow
        have hread : lastAccessedAt ≤ s.floor hash := hi.read i _ hj
        rw [State.floor_row hstored] at hread
        exact Or.inl (hfresh.trans hread)
      · exact Or.inr (Or.inl (mem_hit.mpr (Or.inr ⟨rfl, not_le.mp hfresh⟩)))
    · rcases hc e he row hrow with hin | hp | ht
      · exact Or.inl hin
      · exact Or.inr (Or.inl (mem_hit.mpr (Or.inl hp)))
      · exact Or.inr (Or.inr ht)
  | @took now hf hp =>
    intro e he row hrow
    rcases hc e he row hrow with hin | hpend | ⟨n, b, hfb, -⟩
    · exact Or.inl hin
    · by_cases hin : e.2 - debounce ≤ row.lastAccessedAt
      · exact Or.inl hin
      · have hearly := ht now (by rw [hf]; rfl) e he hpend row hrow
        have hmoves : row.lastAccessedAt < now - debounce := by
          by_contra hfresh
          exact hearly ⟨not_le.mp hin, Or.inl (not_lt.mp hfresh)⟩
        have hfar : e.2 - debounce ≤ now := by
          by_contra hold
          exact hearly ⟨not_le.mp hin, Or.inr (not_le.mp hold)⟩
        exact Or.inr (Or.inr ⟨now, s.pending, rfl, hpend, hmoves, hfar⟩)
    · rw [hf] at hfb
      exact absurd hfb (by simp)
  | @skipped now hf hp =>
    intro e he row hrow
    rcases hc e he row hrow with hin | hpend | ⟨n, b, hfb, -⟩
    · exact Or.inl hin
    · rw [hp] at hpend
      exact absurd hpend List.not_mem_nil
    · rw [hf] at hfb
      exact absurd hfb (by simp)
  | @wrote io now batch hf =>
    intro e he row' hrow'
    simp only [row?_write ha] at hrow'
    split at hrow'
    · obtain ⟨row, hold, rfl⟩ := Option.map_eq_some_iff.mp hrow'
      rcases hc e he row hold with hin | hpend | ⟨n, b, hfb, -, hmoves, hfar⟩
      · exact Or.inl (hin.trans (row.le_bump hd now))
      · exact Or.inr (Or.inl hpend)
      · obtain ⟨rfl, rfl⟩ := Flush.taken.inj (hf.symm.trans hfb)
        rw [row.bump_stale hmoves]
        exact Or.inl hfar
    · rename_i hnot
      rcases hc e he row' hrow' with hin | hpend | ⟨n, b, hfb, hin, -⟩
      · exact Or.inl hin
      · exact Or.inr (Or.inl hpend)
      · obtain ⟨rfl, rfl⟩ := Flush.taken.inj (hf.symm.trans hfb)
        exact absurd hin hnot
  | @clocked hf =>
    intro e he row hrow
    rcases hc e he row hrow with hin | hpend | ⟨n, b, hfb, -⟩
    · exact Or.inl hin
    · exact Or.inr (Or.inl hpend)
    · rw [hf] at hfb
      exact absurd hfb (by simp)
  | ticked clock => exact hc
  | read hj hrow => exact hc
  | timed hj hnow => exact hc

/-! ## The contract -/

/-- Nothing is pending, no flush is in progress, and no hit is between its row read and its
queueing. -/
def Settled (s : State) : Prop := s.pending = [] ∧ s.flush = .idle ∧ s.hits.entries = []

/-- Every row is at most `debounce` behind the hits since its insertion. -/
def UpToDate (debounce : Int) (s : State) : Prop :=
  ∀ e ∈ s.log, ∀ row ∈ s.db.row? e.1, e.2 - debounce ≤ row.lastAccessedAt

instance (s : State) : Decidable (Settled s) := inferInstanceAs (Decidable (_ ∧ _ ∧ _))

instance (debounce : Int) (s : State) : Decidable (UpToDate debounce s) :=
  inferInstanceAs (Decidable (∀ e ∈ s.log, ∀ row ∈ s.db.row? e.1, _))

theorem inv_reach (hd : 0 ≤ debounce) (hi : Inv s)
    (h : Reach (step debounce) Orderly s s') : Inv s' :=
  h.invariant (fun _ _ _ hi ha hs => inv_step hd hi ha (step_cases hs)) hi

/-- Access times never go down over a run. -/
theorem floor_reach (hd : 0 ≤ debounce) (hi : Inv s) (h : Reach (step debounce) Orderly s s')
    (k : String) : s.floor k ≤ s'.floor k := by
  induction h with
  | refl => exact le_refl _
  | tail hrun hnext ih =>
    obtain ⟨a, ha, hs⟩ := hnext
    exact ih.trans (step_floor hd (inv_reach hd hi hrun) ha (step_cases hs) k)

/-- A flush changes nothing but the access times of hashes that were hit. -/
theorem write_frame (hi : Inv s) {io : Faults} (h : step debounce s (.write io) = some s') :
    s'.db.objectRefs = s.db.objectRefs ∧ s'.db.pins = s.db.pins ∧
      s'.db.totalBytes = s.db.totalBytes ∧ ∀ k, s'.db.row? k = s.db.row? k ∨
        k ∈ s.ever ∧ ∃ a b, s.db.row? k = some a ∧ s'.db.row? k = some b ∧ a.SameButAccess b := by
  cases step_cases h with
  | @wrote io now batch hf =>
    have hever : ∀ k ∈ batch, k ∈ s.ever := fun k hk => hi.queued k (Or.inr (by rwa [hf]))
    simp only
    rcases bumpLastAccessed_eq (Prod.mk.eta (p := bumpLastAccessed io batch now debounce s.db)).symm
      with ⟨-, heq⟩ | ⟨-, heq⟩
    · rw [heq]
      obtain ⟨hrefs, hpins, htotal⟩ := Db.bumped_frame now debounce batch s.db
      refine ⟨hrefs, hpins, htotal, fun k => ?_⟩
      rw [Db.row?_bumped]
      split
      · rename_i hk
        cases s.db.row? k with
        | none => exact Or.inl rfl
        | some row =>
          exact Or.inr ⟨hever k hk, row, _, rfl, rfl, row.sameButAccess_bump now debounce⟩
      · exact Or.inl rfl
    · rw [heq]
      exact ⟨rfl, rfl, rfl, fun k => Or.inl rfl⟩

/-- A hit on a fresh row queues nothing. -/
theorem queue_fresh {i : ℕ} {x : Hit} {now : Int} (hx : s.hits.lookup i = some x)
    (hnow : x.now = some now) (hfresh : now - debounce ≤ x.lastAccessedAt)
    (h : step debounce s (.queue i) = some s') : s'.pending = s.pending := by
  cases step_cases h with
  | queued hi =>
    obtain rfl := Option.some.inj (hx.symm.trans hi)
    obtain rfl := Option.some.inj hnow
    exact if_pos hfresh

/-- **Access times against the debounce.** Whatever the order of hits, flushes and commits, times
never go down, a flush touches the access times of hashes that were hit and nothing else, and a hit
on a fresh row queues nothing. Where no swap is too early for a hit it takes, every row is up to
date whenever the Puller has settled. -/
theorem bumps_contract {debounce : Int} (hd : 0 ≤ debounce) {db : Db} {clock : Int}
    {gone : String → Int} (hdb : ∀ k row, db.row? k = some row → row.lastAccessedAt ≤ clock)
    (hgone : ∀ k, gone k ≤ clock) :
    (∀ s, Reach (step debounce) Orderly (start db clock gone) s →
      (∀ s', Reach (step debounce) Orderly s s' → ∀ k a b, s.db.row? k = some a →
        s'.db.row? k = some b → a.lastAccessedAt ≤ b.lastAccessedAt) ∧
      (∀ io s', step debounce s (.write io) = some s' →
        s'.db.objectRefs = s.db.objectRefs ∧ s'.db.pins = s.db.pins ∧
        s'.db.totalBytes = s.db.totalBytes ∧ ∀ k, s'.db.row? k = s.db.row? k ∨
          k ∈ s.ever ∧ ∃ a b, s.db.row? k = some a ∧ s'.db.row? k = some b ∧
            a.SameButAccess b) ∧
      ∀ i x now s', s.hits.lookup i = some x → x.now = some now →
        now - debounce ≤ x.lastAccessedAt → step debounce s (.queue i) = some s' →
          s'.pending = s.pending) ∧
    ∀ s, Reach (step debounce) (fun s a => Orderly s a ∧ InTime debounce s a)
      (start db clock gone) s → Settled s → UpToDate debounce s := by
  have hstart := inv_start hdb hgone
  constructor
  · intro s hrun
    have hi := inv_reach hd hstart hrun
    refine ⟨fun s' hrun' k a b hka hkb => ?_, fun io s' h => write_frame hi h,
      fun i x now s' hx hnow hfresh h => queue_fresh hx hnow hfresh h⟩
    have hfloor := floor_reach hd hi hrun' k
    rwa [State.floor_row hka, State.floor_row hkb] at hfloor
  · rintro s hrun ⟨hpending, hflush, -⟩
    have hcovered : Inv s ∧ Covered debounce s := by
      refine hrun.invariant (I := fun s => Inv s ∧ Covered debounce s) ?_ ⟨hstart, ?_⟩
      · rintro s a s' ⟨hi, hc⟩ ⟨ha, ht⟩ hs
        have hmove := step_cases hs
        exact ⟨inv_step hd hi ha hmove, step_covered hd hi hc ha ht hmove⟩
      · intro e he
        exact absurd he List.not_mem_nil
    intro e he row hrow
    rcases hcovered.2 e he row hrow with hin | hpend | ⟨n, b, hfb, -⟩
    · exact hin
    · rw [hpending] at hpend
      exact absurd hpend List.not_mem_nil
    · rw [hflush] at hfb
      exact absurd hfb (by simp)

/-! ### A flush that read the clock one second before the hit -/

namespace Race

def row : Row where
  storePath := "/nix/store/a"
  name := "a"
  narHash := "sha256:x"
  narSize := 10
  fileHash := "sha256:y"
  fileSize := 5
  deriver := none
  ca := none
  sigs := []
  pushedBy := none
  createdAt := 0
  lastAccessedAt := 0
  pushedAt := 0

/-- One row, accessed at 0. -/
def db : Db := Db.empty.upsert "a" row

theorem accessed : ∀ k r, db.row? k = some r → r.lastAccessedAt ≤ 10 := by
  intro k r hr
  rw [db, Db.row?_upsert] at hr
  split at hr
  · obtain rfl := Option.some.inj hr
    decide
  · exact absurd hr (by simp)

/-- The flush reads the clock, which then turns to 11; the hit comes at 11, is swapped out, and the
flush writes. -/
def early : List Act := [.flush, .tick 11, .read 0 "a", .time 0, .queue 0, .take, .write noFaults]

/-- The same hit, swapped out by a flush that reads the clock afterwards. -/
def late : List Act := [.tick 11, .read 0 "a", .time 0, .queue 0, .flush, .take, .write noFaults]

def initial : State := start db 10 fun _ => 0

end Race

/-- **The clock is read before the swap**: with a debounce of 10, a hit at 11 leaves its row at 0,
with nothing pending. -/
theorem early_reading_loses_hit : ∃ s, Reach (step 10) Orderly Race.initial s ∧ Settled s ∧
    ¬UpToDate 10 s :=
  exec_check (step 10) Orderly Race.early Race.initial _ (by decide +kernel)

theorem bumps_contract_late : ∃ s, Settled s ∧ s.log = [("a", 11)] ∧ UpToDate 10 s := by
  obtain ⟨s, hrun, hsettled, hlog⟩ := exec_check (step 10)
    (fun s a => Orderly s a ∧ InTime 10 s a) Race.late Race.initial
    (fun s => Settled s ∧ s.log = [("a", 11)]) (by decide +kernel)
  exact ⟨s, hsettled, hlog,
    (bumps_contract (by decide) Race.accessed fun _ => by decide).2 s hrun hsettled⟩

end Bumps

end Garret
