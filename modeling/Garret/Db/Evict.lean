import Garret.Db.Quota
import Garret.Lib.Keyset
import Mathlib.Data.Prod.Lex

/-!
# Candidates and their eviction

What GC relies on of `evictable` and `evict_object` (`crates/garret-server/src/db.rs`).

* `evictable_ok`: the candidates are evictable rows in eviction order, and there are none only when
  no row is evictable.
* `evictObject_none`: `evict_object` leaves a row only when it is not evictable.
* `evictableWhere_removed`: removing a row makes no other row unevictable.
* The calls fail only when a statement does.
-/

namespace Garret

open Garret.Lib

/-- The number of rows. -/
def Db.count (db : Db) : ℕ := db.objects.entries.length

/-- Where a row stands in the order of eviction. -/
def lruKey (hash : String) (row : Row) : Int ×ₗ String := toLex (row.lastAccessedAt, hash)

theorem lruOrder_iff {a b : Int × String} : lruOrder a b ↔ toLex a ≤ toLex b := by
  rw [Prod.Lex.toLex_le_toLex]
  rfl

/-! ## The candidates -/

/-- `c` is the candidate that the row under its hash makes. -/
def IsCandidate (db : Db) (now : Int) (c : String × Int) : Prop :=
  ∃ row, db.row? c.1 = some row ∧ c.2 = row.fileSize ∧ evictableWhere db c.1 row now = true

/-- **The candidates**: distinct evictable rows in eviction order, and all there are when there is
room for them. -/
theorem evictable_ok {io : Faults} {limit : ℕ} {now : Int} {db : Db} {cs : List (String × Int)}
    (h : evictable io limit now db = .ok cs) :
    cs.length ≤ limit ∧ (∀ c ∈ cs, IsCandidate db now c) ∧
    (cs.filterMap fun c => (db.row? c.1).map (lruKey c.1)).Pairwise (· < ·) ∧
    (cs = [] → 0 < limit → ∀ hash row, db.row? hash = some row →
      evictableWhere db hash row now = false) := by
  simp only [evictable, bind_eq_ok, pure_eq_ok] at h
  obtain ⟨_, -, rfl⟩ := h
  set rows := (db.objects.entries.filter fun e => evictableWhere db e.1 e.2 now).insertionSort
    fun a b => lruOrder (a.2.lastAccessedAt, a.1) (b.2.lastAccessedAt, b.1) with hrows
  have hmem : ∀ e ∈ rows, db.row? e.1 = some e.2 ∧ evictableWhere db e.1 e.2 now = true := by
    intro e he
    obtain ⟨he, hev⟩ := List.mem_filter.mp ((List.mem_insertionSort _).mp he)
    exact ⟨Table.lookup_eq_some_iff.mpr he, hev⟩
  have hsorted : (rows.map fun e => lruKey e.1 e.2).Pairwise (· < ·) := by
    refine pairwise_lt_sorted (fun e : Sigma fun _ : String => Row => lruKey e.1 e.2)
      (fun a b => lruOrder_iff) ?_
    have hkeys : (db.objects.entries.map fun e => e.1).Nodup := db.objects.nodupKeys
    refine List.Nodup.of_map (fun k => (ofLex k).2) ?_
    rw [List.map_map]
    exact List.Nodup.sublist (List.Sublist.map _ List.filter_sublist) hkeys
  refine ⟨by simp, fun c hc => ?_, ?_, fun hnil hpos hash row hrow => ?_⟩
  · obtain ⟨e, he, rfl⟩ := List.mem_map.mp hc
    obtain ⟨hrow, hev⟩ := hmem e (List.mem_of_mem_take he)
    exact ⟨e.2, hrow, rfl, hev⟩
  · have hkeys : ((rows.take limit).map fun e => (e.1, e.2.fileSize)).filterMap
          (fun c => (db.row? c.1).map (lruKey c.1)) =
        (rows.take limit).map fun e => lruKey e.1 e.2 := by
      rw [List.filterMap_map, ← List.filterMap_eq_map]
      refine List.filterMap_congr fun e he => ?_
      obtain ⟨hrow, -⟩ := hmem e (List.mem_of_mem_take he)
      simp [hrow]
    rw [hkeys, List.map_take]
    exact hsorted.sublist (List.take_sublist _ _)
  · by_contra hev
    have hin : (⟨hash, row⟩ : Sigma fun _ : String => Row) ∈ rows := by
      refine (List.mem_insertionSort _).mpr (List.mem_filter.mpr ⟨?_, by simpa using hev⟩)
      exact Table.lookup_eq_some_iff.mp hrow
    rw [List.map_eq_nil_iff, List.take_eq_nil_iff] at hnil
    rcases hnil with hnil | hnil
    · omega
    · rw [hnil] at hin
      exact absurd hin List.not_mem_nil

theorem evictable_error {io : Faults} {limit : ℕ} {now : Int} {db : Db} {e : DbError}
    (h : evictable io limit now db = .error e) : ∃ k, io k = true := by
  by_contra hno
  have hcalm : statement io 0 = .ok () := statement_eq_ok.mpr (by simpa using not_exists.mp hno 0)
  unfold evictable at h
  rw [hcalm] at h
  exact absurd h (by simp [bind, Except.bind, pure, Except.pure])

/-! ## The eviction -/

/-- A row that stays was not evictable, or was not there. -/
theorem evictObject_none {io : Faults} {hash : String} {now : Int} {db db' : Db}
    (h : evictObject io hash now db = (.ok none, db')) {row : Row}
    (hrow : db.row? hash = some row) : evictableWhere db hash row now = false := by
  rcases transaction_cases h with ⟨a, ha, hb⟩ | ⟨e, he, -⟩
  · obtain rfl := Except.ok.inj ha
    simp only [bind_eq_ok, hrow] at hb
    obtain ⟨_, -, _, -, hb⟩ := hb
    split at hb
    · rename_i hsize
      by_contra hev
      simp [Option.filter, hev] at hsize
    · simp only [bind_eq_ok, pure_eq_ok, Prod.mk.injEq] at hb
      obtain ⟨_, -, _, -, hsome, -⟩ := hb
      exact absurd hsome (by simp)
  · exact absurd he (by simp)

theorem evictObject_error {io : Faults} {hash : String} {now : Int} {db db' : Db} {e : DbError}
    (h : evictObject io hash now db = (.error e, db')) : ∃ k, io k = true := by
  by_contra hno
  have hcalm : ∀ k, statement io k = .ok () := fun k =>
    statement_eq_ok.mpr (by simpa using not_exists.mp hno k)
  unfold evictObject transaction at h
  simp only [hcalm, removeRow, bind, Except.bind, pure, Except.pure] at h
  split at h
  · exact absurd (Prod.mk.inj h).1 (by simp)
  · rename_i e' hbody
    split at hbody
    · exact absurd hbody (by simp)
    · exact absurd hbody (by simp)

theorem reconcile_ok {io : Faults} {db db' : Db} {usage : Int}
    (h : reconcileTotalBytes io db = (.ok usage, db')) :
    usage = db.sumFileSize ∧ db' = db.setTotal db.sumFileSize := by
  unfold reconcileTotalBytes at h
  split at h
  · obtain ⟨hu, rfl⟩ := Prod.mk.inj h
    exact ⟨(Except.ok.inj hu).symm, rfl⟩
  · exact absurd (Prod.mk.inj h).1 (by simp)

theorem reconcile_error {io : Faults} {db db' : Db} {e : DbError}
    (h : reconcileTotalBytes io db = (.error e, db')) : db' = db ∧ ∃ k, io k = true := by
  unfold reconcileTotalBytes at h
  split at h
  · exact absurd (Prod.mk.inj h).1 (by simp)
  · rename_i e' hfail
    refine ⟨(Prod.mk.inj h).2.symm, ?_⟩
    by_contra hno
    have hcalm : ∀ k, statement io k = .ok () := fun k =>
      statement_eq_ok.mpr (by simpa using not_exists.mp hno k)
    rw [hcalm, hcalm] at hfail
    exact absurd hfail (by simp [bind, Except.bind])

/-- Removing a row makes no other row unevictable. -/
theorem evictableWhere_removed {db : Db} {hash : String} {row : Row} {now : Int}
    (h : evictableWhere db hash row now = true) (k : String) (n : Int) :
    evictableWhere (db.removed k n) hash row now = true := by
  simp only [evictableWhere, Bool.and_eq_true, Bool.not_eq_true', List.any_eq_false] at h ⊢
  obtain ⟨⟨href, hpin⟩, hpush⟩ := h
  refine ⟨⟨fun r hr => href r (Db.mem_refs_deleteRow.mp hr).1, fun e he => hpin e ?_⟩, hpush⟩
  exact (List.mem_filter.mp he).1

@[simp] theorem evictableWhere_setTotal (db : Db) (n : Int) (hash : String) (row : Row)
    (now : Int) :
    evictableWhere (db.setTotal n) hash row now = evictableWhere db hash row now := rfl

@[simp] theorem count_setTotal (db : Db) (n : Int) : (db.setTotal n).count = db.count := rfl

@[simp] theorem sumFileSize_setTotal (db : Db) (n : Int) :
    (db.setTotal n).sumFileSize = db.sumFileSize := rfl

/-! ## What a removal leaves -/

theorem count_removed {db : Db} {hash : String} {row : Row} (h : db.row? hash = some row)
    (n : Int) : (db.removed hash n).count + 1 = db.count := by
  have hmem : hash ∈ db.objects.entries.keys := Db.mem_objects_iff.mpr ⟨row, h⟩
  obtain ⟨b, l₁, l₂, -, hl, he⟩ := List.exists_of_kerase hmem
  have hcount : (db.removed hash n).count = (db.objects.entries.kerase hash).length := rfl
  rw [hcount, he, Db.count, hl]
  simp only [List.length_append, List.length_cons]
  omega

theorem sumFileSize_removed {db : Db} {hash : String} {row : Row} (h : db.row? hash = some row)
    (n : Int) : (db.removed hash n).sumFileSize = db.sumFileSize - row.fileSize := by
  have hsum := sumFileSize_deleteRow db hash
  rw [h] at hsum
  exact hsum

/-- At most one row more, when only one hash may be new. -/
theorem count_le {db db' : Db} (hash : String)
    (h : ∀ k row, db'.row? k = some row → k = hash ∨ ∃ row, db.row? k = some row) :
    db'.count ≤ db.count + 1 := by
  have hsub : db'.objects.entries.keys ⊆ hash :: db.objects.entries.keys := by
    intro k hk
    obtain ⟨row, hrow⟩ := Db.mem_objects_iff.mp hk
    rcases h k row hrow with rfl | hold
    · exact List.mem_cons_self
    · exact List.mem_cons_of_mem _ (Db.mem_objects_iff.mpr hold)
  have hle := (db'.objects.nodupKeys.subperm hsub).length_le
  simpa [List.keys, Db.count] using hle

end Garret
