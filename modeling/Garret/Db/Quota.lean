import Garret.Db.Prune
import Garret.Integer
import Garret.Lib.Run

/-!
# The quota counter

`stats.total_bytes` is maintained by five write paths of `crates/garret-server/src/db.rs`:
`insert_object`, `delete_object`, `evict_object`, `delete_pruned` and `reconcile_total_bytes`. Here
they run one after the other on one connection (`Ledger.step`); a prune holds the connection from
its listing to its last batch, so while batches are left only a batch can run. Any statement of any
operation may fail.

* `Balanced`: the counter is the sum of the rows, and no row has a negative size.
* `Ledger.step_balanced`: every step keeps it.
* `Ledger.debits_exact`: what `debit` takes off never exceeds the counter.
-/

namespace Garret

open Garret.Lib

/-- The counter is the sum of the rows, and no row has a negative size. -/
structure Balanced (db : Db) : Prop where
  total : db.totalBytes = db.sumFileSize
  size : ∀ hash row, db.row? hash = some row → 0 ≤ row.fileSize

theorem balanced_empty : Balanced Db.empty := ⟨rfl, by simp⟩

theorem Balanced.nonneg {db : Db} (h : Balanced db) : 0 ≤ db.sumFileSize :=
  Table.sum_nonneg fun e he => h.size e.1 e.2 (Table.lookup_eq_some_iff.mpr he)

/-! ## What the statements do to the sum -/

theorem sumFileSize_deleteRow (db : Db) (hash : String) :
    (db.deleteRow hash).sumFileSize = db.sumFileSize - ((db.row? hash).elim 0 Row.fileSize) :=
  Table.sum_erase Row.fileSize db.objects hash

theorem totalBytes_deleteRows : ∀ (hashes : List String) (db : Db),
    (db.deleteRows hashes).totalBytes = db.totalBytes
  | [], _ => rfl
  | h :: hs, db => totalBytes_deleteRows hs (db.deleteRow h)

theorem size_removed {db : Db} {hash k : String} {n : Int} {row : Row}
    (hk : (db.removed hash n).row? k = some row) : db.row? k = some row := by
  rw [row?_removed] at hk
  split at hk
  · exact absurd hk (by simp)
  · exact hk

theorem InsertedBy.balanced {obj : Object} {now : Int} {db db' : Db} (h : InsertedBy obj now db db')
    (hb : Balanced db) (hsize : 0 ≤ obj.fileSize) : Balanced db' := by
  constructor
  · unfold Db.sumFileSize
    rw [h.objects, Table.sum_insert, h.total, hb.total]
    have hrow : (db.objects.lookup obj.storePathHash).elim 0 Row.fileSize =
        ((db.row? obj.storePathHash).map Row.fileSize).getD 0 := by
      unfold Db.row?
      cases db.objects.lookup obj.storePathHash <;> rfl
    rw [hrow]
    unfold Db.sumFileSize Object.toRow
    simp only
    omega
  · intro k row hk
    rw [h.row?] at hk
    split at hk
    · rw [← Option.some.inj hk]
      exact hsize
    · exact hb.size k row hk

/-- A row's size never exceeds the counter. -/
theorem Balanced.row_le {db : Db} (hb : Balanced db) {hash : String} {row : Row}
    (hrow : db.row? hash = some row) : row.fileSize ≤ db.totalBytes := by
  have hrest : 0 ≤ (db.deleteRow hash).sumFileSize := by
    refine Table.sum_nonneg fun e he => ?_
    have hlook : (db.deleteRow hash).row? e.1 = some e.2 := Table.lookup_eq_some_iff.mpr he
    rw [Db.row?_deleteRow] at hlook
    split at hlook
    · exact absurd hlook (by simp)
    · exact hb.size e.1 e.2 hlook
  rw [sumFileSize_deleteRow, hrow] at hrest
  simp only [Option.elim_some] at hrest
  rw [hb.total]
  omega

theorem Balanced.removed {db : Db} (hb : Balanced db) {hash : String} {row : Row}
    (hrow : db.row? hash = some row) : Balanced (db.removed hash row.fileSize) := by
  have hle := hb.row_le hrow
  refine ⟨?_, fun k r hk => hb.size k r (size_removed hk)⟩
  have hsum : (db.removed hash row.fileSize).sumFileSize =
      db.sumFileSize - ((db.row? hash).elim 0 Row.fileSize) := sumFileSize_deleteRow db hash
  have htot : (db.removed hash row.fileSize).totalBytes =
      max 0 (db.totalBytes - row.fileSize) := rfl
  rw [hsum, htot, hrow, ← hb.total, max_eq_right (by omega)]
  rfl

/-- `reconcile_total_bytes` finds the counter right. -/
theorem Balanced.reconcile_same {db : Db} (hb : Balanced db) (io : Faults) :
    (reconcileTotalBytes io db).2 = db := by
  unfold reconcileTotalBytes
  split
  · rw [← hb.total]
    rfl
  · rfl

/-- Deleting listed rows takes exactly their listed sizes off the sum. -/
theorem sumFileSize_deleteRows : ∀ {batch : List ObjectBrief} {db : Db},
    (∀ b ∈ batch, ∃ row, db.row? b.storePathHash = some row ∧ b.fileSize = row.fileSize) →
    (batch.map ObjectBrief.storePathHash).Nodup →
    (db.deleteRows (batch.map ObjectBrief.storePathHash)).sumFileSize =
      db.sumFileSize - (batch.map ObjectBrief.fileSize).sum
  | [], db, _, _ => by simp [Db.deleteRows]
  | b :: batch, db, hrow, hnd => by
    rw [List.map_cons, List.nodup_cons] at hnd
    obtain ⟨row, hb, hsize⟩ := hrow b List.mem_cons_self
    -- the other listed rows are still there: their hashes differ from `b`'s
    have hrest : ∀ c ∈ batch, ∃ row, (db.deleteRow b.storePathHash).row? c.storePathHash =
        some row ∧ c.fileSize = row.fileSize := by
      intro c hc
      obtain ⟨r, hr, hs⟩ := hrow c (List.mem_cons_of_mem _ hc)
      refine ⟨r, ?_, hs⟩
      rw [Db.row?_deleteRow, if_neg, hr]
      exact fun e => hnd.1 (List.mem_map.mpr ⟨c, hc, e⟩)
    have heq : db.deleteRows ((b :: batch).map ObjectBrief.storePathHash) =
        (db.deleteRow b.storePathHash).deleteRows (batch.map ObjectBrief.storePathHash) := rfl
    rw [heq, sumFileSize_deleteRows hrest hnd.2, sumFileSize_deleteRow, hb, List.map_cons,
      List.sum_cons, hsize]
    simp only [Option.elim_some]
    omega

/-- What one batch debits is within the counter. -/
theorem Balanced.batch_le {db : Db} (hb : Balanced db) {now : Int} {batch rest : List ObjectBrief}
    (hp : Prunes db now (batch ++ rest)) :
    (batch.map ObjectBrief.fileSize).sum ≤ db.totalBytes ∧
      (db.deleteRows (batch.map ObjectBrief.storePathHash)).sumFileSize =
        db.totalBytes - (batch.map ObjectBrief.fileSize).sum := by
  have hrow : ∀ b ∈ batch, ∃ row, db.row? b.storePathHash = some row ∧
      b.fileSize = row.fileSize := by
    intro b hbm
    obtain ⟨row, hr, heq, -⟩ := hp.row b (List.mem_append_left _ hbm)
    exact ⟨row, hr, by rw [heq]; rfl⟩
  have hnd : (batch.map ObjectBrief.storePathHash).Nodup := by
    have := hp.nodup
    rw [List.map_append, List.nodup_append] at this
    exact this.1
  have hsum := sumFileSize_deleteRows hrow hnd
  have hrest : 0 ≤ (db.deleteRows (batch.map ObjectBrief.storePathHash)).sumFileSize := by
    refine Table.sum_nonneg fun e he => ?_
    have hlook : (db.deleteRows (batch.map ObjectBrief.storePathHash)).row? e.1 = some e.2 :=
      Table.lookup_eq_some_iff.mpr he
    rw [row?_deleteRows] at hlook
    split at hlook
    · exact absurd hlook (by simp)
    · exact hb.size e.1 e.2 hlook
  rw [hb.total]
  exact ⟨by omega, hsum⟩

theorem Balanced.pruned {db : Db} (hb : Balanced db) {now : Int} {batch rest : List ObjectBrief}
    (hp : Prunes db now (batch ++ rest)) : Balanced (db.pruned batch) := by
  obtain ⟨hle, hsum⟩ := hb.batch_le hp
  refine ⟨?_, fun k row hk => ?_⟩
  · have htot : (db.pruned batch).totalBytes =
        max 0 ((db.deleteRows (batch.map ObjectBrief.storePathHash)).totalBytes -
          (batch.map ObjectBrief.fileSize).sum) := rfl
    have hrows : (db.pruned batch).sumFileSize =
        (db.deleteRows (batch.map ObjectBrief.storePathHash)).sumFileSize := rfl
    rw [htot, totalBytes_deleteRows, max_eq_right (by omega), hrows, hsum]
  · rw [row?_pruned] at hk
    split at hk
    · exact absurd hk (by simp)
    · exact hb.size k row hk

/-! ## Sequences of operations -/

namespace Ledger

/-- The database, and the batches a prune that holds the connection still has to commit. -/
structure State where
  db : Db
  now : Int
  batches : List (List ObjectBrief)

/-- One call, or one batch of a prune, with the statements that fail in it. -/
inductive Op where
  | insert (io : Faults) (obj : Object) (now : Int)
  | delete (io : Faults) (hash : String)
  | evict (io : Faults) (hash : String) (now : Int)
  | reconcile (io : Faults)
  | prune (io io' : Faults) (before now : Int)
  | batch (io : Faults)

/-- A migrated database. -/
def init : State := ⟨Db.empty, 0, []⟩

/-- The list a prune deletes: `prunable`, then the order of `delete_pruned`. -/
def listed (io io' : Faults) (before now : Int) (db : Db) : Except DbError (List (List ObjectBrief)) :=
  do
    let doomed ← prunable io before now db
    let order ← referrersFirst io' db doomed
    return pruneBatches doomed order

/-- One operation. A batch that fails ends its prune: `delete_pruned` returns the error. -/
def step (s : State) : Op → Option State
  | .batch io =>
    match s.batches with
    | [] => none
    | b :: bs =>
      match deletePrunedBatch io b s.db with
      | (.ok (), db) => some { s with db := db, batches := bs }
      | (.error _, db) => some { s with db := db, batches := [] }
  | op =>
    if s.batches = [] then
      match op with
      | .insert io obj now => some { s with db := (insertObject io obj now s.db).2 }
      | .delete io hash => some { s with db := (deleteObject io hash s.db).2 }
      | .evict io hash now => some { s with db := (evictObject io hash now s.db).2 }
      | .reconcile io => some { s with db := (reconcileTotalBytes io s.db).2 }
      | .prune io io' before now =>
        match listed io io' before now s.db with
        | .ok batches => some { s with now := now, batches := batches }
        | .error _ => some s
      | .batch _ => none
    else none

/-- Inserted sizes are not negative, and the sum they lead to fits an `i64`. -/
def Admissible (s : State) : Op → Prop
  | .insert _ obj _ => 0 ≤ obj.fileSize ∧
      s.db.sumFileSize - ((s.db.row? obj.storePathHash).map Row.fileSize).getD 0 + obj.fileSize ≤
        i64Max
  | _ => True

instance (s : State) (op : Op) : Decidable (Admissible s op) := by
  cases op <;> unfold Admissible <;> infer_instance

/-- What the operation would debit: the argument of `debit`, if it is called. -/
def debits (s : State) : Op → Option Int
  | .delete _ hash => (s.db.row? hash).map Row.fileSize
  | .evict _ hash now =>
    ((s.db.row? hash).filter fun row => evictableWhere s.db hash row now).map Row.fileSize
  | .batch _ => s.batches.head?.map fun b => (b.map ObjectBrief.fileSize).sum
  | _ => none

/-- The invariant: the counter is balanced and fits, and a running prune still deletes exactly the
rows it listed. -/
structure Inv (s : State) : Prop where
  balanced : Balanced s.db
  fits : s.db.sumFileSize ≤ i64Max
  prunes : Prunes s.db s.now s.batches.flatten

theorem prunes_nil (db : Db) (now : Int) : Prunes db now [] :=
  ⟨by simp, by simp, by simp, by simp⟩

theorem inv_init : Inv init := ⟨balanced_empty, by decide, prunes_nil _ _⟩

theorem listed_ok {io io' : Faults} {before now : Int} {db : Db} {batches : List (List ObjectBrief)}
    (h : listed io io' before now db = .ok batches) : Prunes db now batches.flatten := by
  simp only [listed, bind_eq_ok, pure_eq_ok] at h
  obtain ⟨doomed, hd, order, ho, rfl⟩ := h
  rw [pruneBatches_flatten]
  exact prunes_start (prunable_doomed hd) ho

/-- Removing one row keeps the sum within range. -/
theorem inv_removed {s : State} (h : Inv s) (hs : s.batches = []) {hash : String} {row : Row}
    (hrow : s.db.row? hash = some row) : Inv { s with db := s.db.removed hash row.fileSize } := by
  have hb := h.balanced.removed hrow
  have hsize := h.balanced.size hash row hrow
  refine ⟨hb, ?_, by simpa [hs] using prunes_nil _ s.now⟩
  have hsum : (s.db.removed hash row.fileSize).sumFileSize =
      s.db.sumFileSize - ((s.db.row? hash).elim 0 Row.fileSize) := sumFileSize_deleteRow s.db hash
  have := h.fits
  rw [hsum, hrow]
  simp only [Option.elim_some]
  omega

/-- **Every operation keeps the counter balanced**, whichever of its statements fails. -/
theorem step_balanced {s s' : State} {op : Op} (h : Inv s) (ha : Admissible s op)
    (hs : step s op = some s') : Inv s' := by
  cases op with
  | batch io =>
    simp only [step] at hs
    split at hs
    · exact absurd hs (by simp)
    · rename_i b bs hbs
      have hp := h.prunes
      rw [hbs, List.flatten_cons] at hp
      split at hs
      · rename_i db hd
        obtain rfl := Option.some.inj hs
        rcases deletePrunedBatch_cases hd with ⟨-, rfl⟩ | ⟨⟨e, he⟩, -⟩
        · refine ⟨h.balanced.pruned hp, ?_, prunes_batch hp⟩
          have hb := h.balanced.pruned hp
          have htot := h.balanced.batch_le hp
          have hpos : 0 ≤ (b.map ObjectBrief.fileSize).sum := by
            refine List.sum_nonneg fun x hx => ?_
            obtain ⟨c, hc, rfl⟩ := List.mem_map.mp hx
            obtain ⟨row, hr, heq, -⟩ := hp.row c (List.mem_append_left _ hc)
            rw [heq]
            exact h.balanced.size _ row hr
          have hrows : (s.db.pruned b).sumFileSize =
              (s.db.deleteRows (b.map ObjectBrief.storePathHash)).sumFileSize := rfl
          have hfit := h.fits
          rw [← h.balanced.total] at hfit
          simp only
          rw [hrows, htot.2]
          omega
        · exact absurd he (by simp)
      · rename_i e db hd
        obtain rfl := Option.some.inj hs
        rcases deletePrunedBatch_cases hd with ⟨he, -⟩ | ⟨-, rfl⟩
        · exact absurd he (by simp)
        · exact ⟨h.balanced, h.fits, prunes_nil _ _⟩
  | insert io obj now =>
    simp only [step] at hs
    split at hs
    · rename_i hb
      obtain rfl := Option.some.inj hs
      rcases insertObject_cases (Prod.mk.eta (p := insertObject io obj now s.db)).symm with
        ⟨-, hi⟩ | ⟨-, heq⟩
      · have hbal := hi.balanced h.balanced ha.1
        refine ⟨hbal, ?_, by simpa [hb] using prunes_nil _ s.now⟩
        have htot := hi.total
        rw [hbal.total, h.balanced.total] at htot
        have := ha.2
        simp only
        omega
      · rw [heq]
        exact ⟨h.balanced, h.fits, h.prunes⟩
    · exact absurd hs (by simp)
  | delete io hash =>
    simp only [step] at hs
    split at hs
    · rename_i hb
      obtain rfl := Option.some.inj hs
      rcases deleteObject_cases (Prod.mk.eta (p := deleteObject io hash s.db)).symm with
        ⟨row, hrow, -, heq⟩ | ⟨-, -, heq⟩ | ⟨-, heq⟩
      · rw [heq]
        exact inv_removed h hb hrow
      · rw [heq]
        exact h
      · rw [heq]
        exact h
    · exact absurd hs (by simp)
  | evict io hash now =>
    simp only [step] at hs
    split at hs
    · rename_i hb
      obtain rfl := Option.some.inj hs
      rcases evictObject_cases (Prod.mk.eta (p := evictObject io hash now s.db)).symm with
        ⟨row, hrow, -, -, heq⟩ | ⟨-, heq⟩ | ⟨-, heq⟩
      · rw [heq]
        exact inv_removed h hb hrow
      · rw [heq]
        exact h
      · rw [heq]
        exact h
    · exact absurd hs (by simp)
  | reconcile io =>
    simp only [step] at hs
    split at hs
    · obtain rfl := Option.some.inj hs
      rw [h.balanced.reconcile_same]
      exact h
    · exact absurd hs (by simp)
  | prune io io' before now =>
    simp only [step] at hs
    split at hs
    · split at hs
      · rename_i batches hl
        obtain rfl := Option.some.inj hs
        exact ⟨h.balanced, h.fits, listed_ok hl⟩
      · obtain rfl := Option.some.inj hs
        exact h
    · exact absurd hs (by simp)

theorem debits_le {s : State} {op : Op} {n : Int} (h : Inv s) (hd : debits s op = some n) :
    n ≤ s.db.totalBytes := by
  cases op with
  | delete io hash =>
    obtain ⟨row, hrow, rfl⟩ := Option.map_eq_some_iff.mp hd
    exact h.balanced.row_le hrow
  | evict io hash now =>
    obtain ⟨row, hrow, rfl⟩ := Option.map_eq_some_iff.mp hd
    exact h.balanced.row_le (Option.filter_eq_some_iff.mp hrow).1
  | batch io =>
    obtain ⟨b, hb, rfl⟩ := Option.map_eq_some_iff.mp hd
    obtain ⟨bs, hbs⟩ := List.head?_eq_some_iff.mp hb
    have hp := h.prunes
    rw [hbs, List.flatten_cons] at hp
    exact (h.balanced.batch_le hp).1
  | insert io obj now => exact absurd hd (by simp [debits])
  | reconcile io => exact absurd hd (by simp [debits])
  | prune io io' before now => exact absurd hd (by simp [debits])

/-- **The counter is the sum of the rows after every commit**, and it fits. The `MAX(0, …)` of
`debit` therefore never clamps, and `reconcile_total_bytes` writes the value it finds. -/
theorem total_bytes_eq_sum {s s' : State} {op : Op} (hr : Reach step Admissible init s)
    (ha : Admissible s op) (hs : step s op = some s') :
    s'.db.totalBytes = s'.db.sumFileSize ∧ 0 ≤ s'.db.totalBytes ∧ s'.db.totalBytes ≤ i64Max ∧
      (∀ n, debits s op = some n → max 0 (s.db.totalBytes - n) = s.db.totalBytes - n) ∧
      ∀ io, (reconcileTotalBytes io s'.db).2 = s'.db := by
  have hi : Inv s := hr.invariant (fun _ _ _ h ha hs => step_balanced h ha hs) inv_init
  have hi' : Inv s' := step_balanced hi ha hs
  refine ⟨hi'.balanced.total, ?_, ?_, fun n hn => max_eq_right ?_, hi'.balanced.reconcile_same⟩
  · rw [hi'.balanced.total]
    exact hi'.balanced.nonneg
  · rw [hi'.balanced.total]
    exact hi'.fits
  · have := debits_le hi hn
    omega

/-- An object of `size` bytes under `hash`, referring to `references`. -/
def sample (hash : String) (size : Int) (references : List String) : Object :=
  ⟨hash, "/nix/store/" ++ hash, "x", "sha256:0", 1, "sha256:1", size, none, none, references, [],
    none⟩

/-- Two pushes, a re-push with another size, and the listing of a prune. -/
def pushes : List Op :=
  [.insert noFaults (sample "a" 7 ["b"]) 0, .insert noFaults (sample "b" 5 []) 0,
    .insert noFaults (sample "a" 9 ["b"]) 0, .prune noFaults noFaults 100 100000]

theorem total_bytes_eq_sum_pruned :
    ∃ s s', exec step Admissible pushes init = some s ∧ step s (.batch noFaults) = some s' ∧
      s.db.totalBytes = 14 ∧ s'.db.totalBytes = 0 ∧ s'.db.totalBytes = s'.db.sumFileSize ∧
      max 0 (s.db.totalBytes - 14) = s.db.totalBytes - 14 := by
  refine ⟨_, _, rfl, rfl, rfl, rfl, ?_⟩
  have h := @total_bytes_eq_sum _ _ (.batch noFaults)
    (exec_reach (rfl : exec step Admissible pushes init = some _)) trivial rfl
  exact ⟨h.1, h.2.2.2.1 14 rfl⟩

end Ledger

end Garret
