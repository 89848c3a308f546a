import Garret.Db.Schema
import Mathlib.Data.List.Sort
import Mathlib.Data.List.Perm.Subperm
import Mathlib.Data.String.Basic

/-!
# The operations on the database

Model of `crates/garret-server/src/db.rs`, from `insert_object` to `missing`; prune has its own
module. Every operation takes the oracle of failing statements, numbered in the order the source
runs them, `BEGIN` and `COMMIT` included. A call returns its result and the database it leaves.

For each operation one lemma says all it can do (`insertObject_cases`, `deleteObject_cases`,
`evictObject_cases`, `missing_cases`, …): either it failed and the database is as it was, or the
database is the stated one. Later proofs cite these and never unfold an operation.

* `InsertedBy obj now db db'`: what a committed `insert_object` leaves.
* `Db.removed`: what a committed delete of one row leaves, the counter debited.
* `Touched now db db'`: what a committed Negotiation leaves; only `pushed_at` of rows staler than
  the debounce moves, and it moves to `now`.
-/

namespace Garret

open Garret.Lib

/-- One statement: fails when the oracle says so. -/
def statement (io : Faults) (k : ℕ) : Except DbError Unit := if io k then .error .io else .ok ()

@[simp] theorem statement_eq_ok {io : Faults} {k : ℕ} {u : Unit} :
    statement io k = .ok u ↔ io k = false := by
  unfold statement
  cases io k <;> simp

/-! ## `insert_object` -/

/-- The loop over `obj.references`. -/
def insertRefs (io : Faults) (hash : String) : ℕ → List String → Db → Except DbError Db
  | _, [], db => .ok db
  | k, r :: rs, db => do
    statement io k
    if h : (⟨hash, r⟩ : ObjectRef) ∉ db.objectRefs ∧ hash ∈ db.objects then
      insertRefs io hash (k + 1) rs (db.addRef ⟨hash, r⟩ h.1 h.2)
    else .error .constraint

/-- `insert_object`: the upsert, the references and the counter in one transaction. -/
def insertObject (io : Faults) (obj : Object) (now : Int) : Db → Except DbError Unit × Db :=
  transaction fun db => do
    statement io 0
    statement io 1
    let previous := ((db.row? obj.storePathHash).map Row.fileSize).getD 0
    statement io 2
    let db := db.upsert obj.storePathHash (obj.toRow now)
    statement io 3
    let db := db.deleteRefs obj.storePathHash
    let db ← insertRefs io obj.storePathHash 4 obj.references db
    statement io (4 + obj.references.length)
    let db := db.setTotal (db.totalBytes + (obj.fileSize - previous))
    statement io (5 + obj.references.length)
    return ((), db)

/-- What a committed `insert_object` leaves. -/
structure InsertedBy (obj : Object) (now : Int) (db db' : Db) : Prop where
  refs_distinct : obj.references.Nodup
  objects : db'.objects = db.objects.insert obj.storePathHash (obj.toRow now)
  refs : db'.objectRefs = (db.objectRefs.filter fun r => r.referrer != obj.storePathHash) ++
    obj.references.map (ObjectRef.mk obj.storePathHash)
  pins : db'.pins = db.pins
  total : db'.totalBytes = db.totalBytes +
    (obj.fileSize - ((db.row? obj.storePathHash).map Row.fileSize).getD 0)

theorem InsertedBy.row? {obj : Object} {now : Int} {db db' : Db} (h : InsertedBy obj now db db')
    (k : String) :
    db'.row? k = if k = obj.storePathHash then some (obj.toRow now) else db.row? k := by
  unfold Db.row?
  rw [h.objects]
  exact Table.lookup_insert_eq

theorem insertRefs_ok {io : Faults} {hash : String} :
    ∀ {rs : List String} {k : ℕ} {db db' : Db}, insertRefs io hash k rs db = .ok db' →
      db'.objects = db.objects ∧ db'.pins = db.pins ∧ db'.totalBytes = db.totalBytes ∧
      db'.objectRefs = db.objectRefs ++ rs.map (ObjectRef.mk hash) ∧
      rs.Nodup ∧ ∀ r ∈ rs, (⟨hash, r⟩ : ObjectRef) ∉ db.objectRefs
  | [], _, db, db', h => by
    simp only [insertRefs, Except.ok.injEq] at h
    subst h
    simp
  | r :: rs, k, db, db', h => by
    simp only [insertRefs, bind_eq_ok] at h
    obtain ⟨-, -, h⟩ := h
    split at h
    · rename_i hok
      obtain ⟨h1, h2, h3, h4, h5, h6⟩ := insertRefs_ok h
      refine ⟨h1, h2, h3, ?_, List.nodup_cons.mpr ⟨fun hr => ?_, h5⟩, fun x hx => ?_⟩
      · rw [h4]
        simp [Db.addRef]
      · exact h6 r hr (by simp [Db.addRef])
      · rcases List.mem_cons.mp hx with rfl | hx
        · exact hok.1
        · exact fun hin => h6 x hx (List.mem_append_left _ hin)
    · exact absurd h (by simp)

/-- **`insert_object` commits all of it or nothing.** -/
theorem insertObject_cases {io : Faults} {obj : Object} {now : Int} {db db' : Db}
    {r : Except DbError Unit} (h : insertObject io obj now db = (r, db')) :
    (r = .ok () ∧ InsertedBy obj now db db') ∨ (∃ e, r = .error e) ∧ db' = db := by
  rcases transaction_cases h with ⟨u, rfl, hb⟩ | ⟨e, rfl, rfl⟩
  · refine Or.inl ⟨rfl, ?_⟩
    simp only [bind_eq_ok, pure_eq_ok] at hb
    obtain ⟨_, -, _, -, _, -, _, -, d, hd, _, -, _, -, hdb⟩ := hb
    obtain ⟨-, rfl⟩ := Prod.mk.inj hdb
    obtain ⟨h1, h2, h3, h4, h5, -⟩ := insertRefs_ok hd
    exact ⟨h5, h1, h4, h2, by rw [Db.setTotal, h3]; rfl⟩
  · exact Or.inr ⟨⟨e, rfl⟩, rfl⟩

/-- A computation that succeeds unless a statement fails. -/
def FailsOnlyOn (io : Faults) {α : Type} (x : Except DbError α) : Prop :=
  (∃ a, x = .ok a) ∨ (∃ k, io k = true) ∧ x = .error .io

theorem FailsOnlyOn.statement (io : Faults) (k : ℕ) : FailsOnlyOn io (statement io k) := by
  unfold Garret.statement
  cases hk : io k with
  | true => exact Or.inr ⟨⟨k, hk⟩, rfl⟩
  | false => exact Or.inl ⟨(), rfl⟩

theorem FailsOnlyOn.bind {io : Faults} {α β : Type} {x : Except DbError α}
    {f : α → Except DbError β} (hx : FailsOnlyOn io x)
    (hf : ∀ a, x = .ok a → FailsOnlyOn io (f a)) : FailsOnlyOn io (x >>= f) := by
  rcases hx with ⟨a, rfl⟩ | ⟨hk, rfl⟩
  · exact hf a rfl
  · exact Or.inr ⟨hk, rfl⟩

/-- The loop over the references fails on a constraint only at a pair it would write twice. -/
theorem insertRefs_fails {io : Faults} {hash : String} :
    ∀ {rs : List String} {k : ℕ} {db : Db}, hash ∈ db.objects → rs.Nodup →
      (∀ r ∈ rs, (⟨hash, r⟩ : ObjectRef) ∉ db.objectRefs) →
      FailsOnlyOn io (insertRefs io hash k rs db)
  | [], _, db, _, _, _ => Or.inl ⟨db, rfl⟩
  | r :: rs, k, db, hfk, hnd, hnew => by
    rw [List.nodup_cons] at hnd
    have hr : (⟨hash, r⟩ : ObjectRef) ∉ db.objectRefs := hnew r List.mem_cons_self
    refine (FailsOnlyOn.statement io k).bind fun _ _ => ?_
    rw [dif_pos ⟨hr, hfk⟩]
    refine insertRefs_fails hfk hnd.2 fun x hx hin => ?_
    rcases List.mem_append.mp hin with hin | hin
    · exact hnew x (List.mem_cons_of_mem _ hx) hin
    · obtain ⟨-, rfl⟩ := ObjectRef.mk.inj (List.mem_singleton.mp hin)
      exact hnd.1 hx

/-- **An object that lists no reference twice meets every constraint of the schema**: only a
failing statement keeps it out. -/
theorem insertObject_fails {obj : Object} (hnd : obj.references.Nodup) (io : Faults) (now : Int)
    (db : Db) : FailsOnlyOn io (insertObject io obj now db).1 := by
  have hrow : obj.storePathHash ∈
      ((db.upsert obj.storePathHash (obj.toRow now)).deleteRefs obj.storePathHash).objects :=
    Db.mem_objects_iff.mpr ⟨obj.toRow now, by simp⟩
  have hnew : ∀ r ∈ obj.references, (⟨obj.storePathHash, r⟩ : ObjectRef) ∉
      ((db.upsert obj.storePathHash (obj.toRow now)).deleteRefs obj.storePathHash).objectRefs := by
    intro r _ hin
    simpa using (List.mem_filter.mp hin).2
  unfold insertObject transaction
  simp only
  split
  · exact Or.inl ⟨_, rfl⟩
  · rename_i e hbody
    suffices hfail : FailsOnlyOn io (Except.error e : Except DbError (Unit × Db)) by
      rcases hfail with ⟨a, ha⟩ | ⟨hk, he⟩
      · exact absurd ha (by simp)
      · exact Or.inr ⟨hk, by rw [Except.error.inj he]⟩
    rw [← hbody]
    refine (FailsOnlyOn.statement io 0).bind fun _ _ => ?_
    refine (FailsOnlyOn.statement io 1).bind fun _ _ => ?_
    refine (FailsOnlyOn.statement io 2).bind fun _ _ => ?_
    refine (FailsOnlyOn.statement io 3).bind fun _ _ => ?_
    refine (insertRefs_fails hrow hnd hnew).bind fun _ _ => ?_
    refine (FailsOnlyOn.statement io _).bind fun _ _ => ?_
    refine (FailsOnlyOn.statement io _).bind fun _ _ => ?_
    exact Or.inl ⟨_, rfl⟩

/-! ## Reads of one row -/

/-- `exists`. -/
def existsRow (io : Faults) (k : ℕ) (hash : String) (db : Db) : Except DbError Bool := do
  statement io k
  return (db.row? hash).isSome

theorem existsRow_true {io : Faults} {k : ℕ} {hash : String} {db : Db}
    (h : existsRow io k hash db = .ok true) : ∃ row, db.row? hash = some row := by
  simp only [existsRow, bind_eq_ok, pure_eq_ok] at h
  obtain ⟨_, -, h⟩ := h
  exact Option.isSome_iff_exists.mp h

theorem existsRow_false {io : Faults} {k : ℕ} {hash : String} {db : Db}
    (h : existsRow io k hash db = .ok false) : db.row? hash = none := by
  simp only [existsRow, bind_eq_ok, pure_eq_ok] at h
  obtain ⟨_, -, hnone⟩ := h
  exact Option.isNone_iff_eq_none.mp (Option.isSome_eq_false_iff.mp hnone)

/-- `created_at`. -/
def createdAt (io : Faults) (k : ℕ) (hash : String) (db : Db) : Except DbError (Option Int) := do
  statement io k
  return (db.row? hash).map Row.createdAt

/-- `file_size`. -/
def fileSize (io : Faults) (k : ℕ) (hash : String) (db : Db) : Except DbError (Option Int) := do
  statement io k
  return (db.row? hash).map Row.fileSize

/-- `reconcile_total_bytes`: the counter is re-derived from the rows. -/
def reconcileTotalBytes (io : Faults) (db : Db) : Except DbError Int × Db :=
  match (do statement io 0; statement io 1 : Except DbError Unit) with
  | .ok () => (.ok db.sumFileSize, db.setTotal db.sumFileSize)
  | .error e => (.error e, db)

/-! ## Deleting rows -/

/-- `debit`: never below zero. -/
def Db.debit (db : Db) (bytes : Int) : Db := db.setTotal (max 0 (db.totalBytes - bytes))

/-- What a committed delete of `hash` leaves, its `size` debited. -/
def Db.removed (db : Db) (hash : String) (size : Int) : Db := (db.deleteRow hash).debit size

@[simp] theorem row?_removed (db : Db) (hash : String) (size : Int) (k : String) :
    (db.removed hash size).row? k = if k = hash then none else db.row? k :=
  Db.row?_deleteRow db hash k

/-- `remove_row`, from statement `k` of its transaction. -/
def removeRow (io : Faults) (k : ℕ) (hash : String) (size : Int) (db : Db) :
    Except DbError Db := do
  statement io k
  let db := db.deleteRow hash
  statement io (k + 1)
  return db.debit size

theorem removeRow_ok {io : Faults} {k : ℕ} {hash : String} {size : Int} {db db' : Db}
    (h : removeRow io k hash size db = .ok db') : db' = db.removed hash size := by
  simp only [removeRow, bind_eq_ok, pure_eq_ok] at h
  obtain ⟨_, -, _, -, rfl⟩ := h
  rfl

/-- `delete_object`. -/
def deleteObject (io : Faults) (hash : String) : Db → Except DbError (Option Int) × Db :=
  transaction fun db => do
    statement io 0
    let size ← fileSize io 1 hash db
    match size with
    | none => return (none, db)
    | some size =>
      let db ← removeRow io 2 hash size db
      statement io 4
      return (some size, db)

/-- **`delete_object` removes the row it reports, or nothing.** -/
theorem deleteObject_cases {io : Faults} {hash : String} {db db' : Db}
    {r : Except DbError (Option Int)} (h : deleteObject io hash db = (r, db')) :
    (∃ row, db.row? hash = some row ∧ r = .ok (some row.fileSize) ∧
      db' = db.removed hash row.fileSize) ∨
    (db.row? hash = none ∧ r = .ok none ∧ db' = db) ∨ (∃ e, r = .error e) ∧ db' = db := by
  rcases transaction_cases h with ⟨a, rfl, hb⟩ | ⟨e, rfl, rfl⟩
  · simp only [bind_eq_ok, fileSize, pure_eq_ok] at hb
    obtain ⟨_, -, size, ⟨_, -, hs⟩, hb⟩ := hb
    cases hrow : db.row? hash with
    | none =>
      rw [hrow] at hs
      subst hs
      simp only [Option.map_none, pure_eq_ok, Prod.mk.injEq] at hb
      obtain ⟨rfl, rfl⟩ := hb
      exact Or.inr (Or.inl ⟨rfl, rfl, rfl⟩)
    | some row =>
      rw [hrow] at hs
      subst hs
      simp only [Option.map_some, bind_eq_ok, pure_eq_ok, Prod.mk.injEq] at hb
      obtain ⟨d, hd, _, -, rfl, rfl⟩ := hb
      exact Or.inl ⟨row, rfl, rfl, removeRow_ok hd⟩
  · exact Or.inr (Or.inr ⟨⟨e, rfl⟩, rfl⟩)

/-! ## Eviction -/

/-- `evictable_where`: nothing else refers to `hash`, no live pin holds it, and its row was not
pushed or negotiated within the grace. -/
def evictableWhere (db : Db) (hash : String) (row : Row) (now : Int) : Bool :=
  !(db.objectRefs.any fun r => r.referenceHash == hash && r.referrer != hash) &&
  !(db.pins.entries.any fun e => e.2.storePathHash == hash && e.2.live now) &&
  decide (row.pushedAt < now - pushGrace)

/-- `ORDER BY last_accessed_at ASC, store_path_hash ASC`. -/
def lruOrder (a b : Int × String) : Prop := a.1 < b.1 ∨ a.1 = b.1 ∧ a.2 ≤ b.2

instance : DecidableRel lruOrder := fun a b => by unfold lruOrder; infer_instance

/-- `evictable`: the candidates and their sizes, least recently accessed first. -/
def evictable (io : Faults) (limit : ℕ) (now : Int) (db : Db) :
    Except DbError (List (String × Int)) := do
  statement io 0
  let rows := db.objects.entries.filter fun e => evictableWhere db e.1 e.2 now
  let rows := rows.insertionSort fun a b => lruOrder (a.2.lastAccessedAt, a.1) (b.2.lastAccessedAt, b.1)
  return (rows.take limit).map fun e => (e.1, e.2.fileSize)

/-- `evict_object`: `delete_object`, if the row is still evictable inside the transaction. -/
def evictObject (io : Faults) (hash : String) (now : Int) :
    Db → Except DbError (Option Int) × Db :=
  transaction fun db => do
    statement io 0
    statement io 1
    let size := ((db.row? hash).filter fun row => evictableWhere db hash row now).map Row.fileSize
    match size with
    | none => return (none, db)
    | some size =>
      let db ← removeRow io 2 hash size db
      statement io 4
      return (some size, db)

/-- **`evict_object` removes an evictable row, or nothing.** -/
theorem evictObject_cases {io : Faults} {hash : String} {now : Int} {db db' : Db}
    {r : Except DbError (Option Int)} (h : evictObject io hash now db = (r, db')) :
    (∃ row, db.row? hash = some row ∧ evictableWhere db hash row now = true ∧
      r = .ok (some row.fileSize) ∧ db' = db.removed hash row.fileSize) ∨
    (r = .ok none ∧ db' = db) ∨ (∃ e, r = .error e) ∧ db' = db := by
  rcases transaction_cases h with ⟨a, rfl, hb⟩ | ⟨e, rfl, rfl⟩
  · simp only [bind_eq_ok] at hb
    obtain ⟨_, -, _, -, hb⟩ := hb
    split at hb
    · simp only [pure_eq_ok, Prod.mk.injEq] at hb
      obtain ⟨rfl, rfl⟩ := hb
      exact Or.inr (Or.inl ⟨rfl, rfl⟩)
    · rename_i size hs
      simp only [bind_eq_ok, pure_eq_ok, Prod.mk.injEq] at hb
      obtain ⟨d, hd, _, -, rfl, rfl⟩ := hb
      obtain ⟨row, hrow, rfl⟩ := Option.map_eq_some_iff.mp hs
      obtain ⟨hrow, hev⟩ := Option.filter_eq_some_iff.mp hrow
      exact Or.inl ⟨row, hrow, hev, rfl, removeRow_ok hd⟩
  · exact Or.inr (Or.inr ⟨⟨e, rfl⟩, rfl⟩)

/-- An evictable row was last pushed before the grace. -/
theorem evictableWhere_pushedAt {db : Db} {hash : String} {row : Row} {now : Int}
    (h : evictableWhere db hash row now = true) : row.pushedAt < now - pushGrace := by
  simp only [evictableWhere, Bool.and_eq_true, decide_eq_true_eq] at h
  exact h.2

/-- An evictable row has no other referrer. -/
theorem evictableWhere_referrer {db : Db} {hash : String} {row : Row} {now : Int}
    (h : evictableWhere db hash row now = true) {r : ObjectRef} (hr : r ∈ db.objectRefs)
    (href : r.referenceHash = hash) : r.referrer = hash := by
  simp only [evictableWhere, Bool.and_eq_true, Bool.not_eq_true', List.any_eq_false] at h
  have := h.1.1 r hr
  simpa [href] using this

/-- An evictable row has no live pin. -/
theorem evictableWhere_pin {db : Db} {hash : String} {row : Row} {now : Int}
    (h : evictableWhere db hash row now = true) {name : String} {p : Pin}
    (hp : db.pins.lookup name = some p) (hh : p.storePathHash = hash) : p.live now = false := by
  simp only [evictableWhere, Bool.and_eq_true, Bool.not_eq_true', List.any_eq_false] at h
  have := h.1.2 _ (Table.lookup_eq_some_iff.mp hp)
  simpa [hh] using this

/-! ## Pins -/

/-- `pin`: refused for a hash without a row. -/
def pin (io : Faults) (name hash : String) (expiresAt : Option Int) (now : Int) (db : Db) :
    Except DbError Unit × Db :=
  match (do statement io 0; statement io 1 : Except DbError Unit) with
  | .error e => (.error e, db)
  | .ok () =>
    if h : hash ∈ db.objects then
      (.ok (), db.putPin name ⟨hash, expiresAt, now⟩ h)
    else (.error (.refused s!"{hash} is not in the cache — nothing to pin"), db)

/-- `unpin`: whether a pin had that name. -/
def unpin (io : Faults) (name : String) (db : Db) : Except DbError Bool × Db :=
  match statement io 0 with
  | .error e => (.error e, db)
  | .ok () => (.ok (db.pins.lookup name).isSome, db.deletePin name)

theorem pin_row? {io : Faults} {name hash : String} {expiresAt : Option Int} {now : Int}
    {db db' : Db} {r : Except DbError Unit} (h : pin io name hash expiresAt now db = (r, db')) :
    db'.objects = db.objects ∧ db'.objectRefs = db.objectRefs := by
  unfold pin at h
  split at h
  · obtain ⟨-, rfl⟩ := Prod.mk.inj h
    exact ⟨rfl, rfl⟩
  · split at h
    · obtain ⟨-, rfl⟩ := Prod.mk.inj h
      exact ⟨rfl, rfl⟩
    · obtain ⟨-, rfl⟩ := Prod.mk.inj h
      exact ⟨rfl, rfl⟩

theorem unpin_row? {io : Faults} {name : String} {db db' : Db} {r : Except DbError Bool}
    (h : unpin io name db = (r, db')) :
    db'.objects = db.objects ∧ db'.objectRefs = db.objectRefs := by
  unfold unpin at h
  split at h
  · obtain ⟨-, rfl⟩ := Prod.mk.inj h
    exact ⟨rfl, rfl⟩
  · obtain ⟨-, rfl⟩ := Prod.mk.inj h
    exact ⟨rfl, rfl⟩

/-! ## Listings -/

/-- The columns listings act on (`ObjectBrief`). -/
structure ObjectBrief where
  storePathHash : String
  name : String
  createdAt : Int
  fileSize : Int
  deriving DecidableEq, Repr

/-- `ObjectBrief::from_row`. -/
def Row.brief (row : Row) (hash : String) : ObjectBrief := ⟨hash, row.name, row.createdAt, row.fileSize⟩

/-- `all_hashes`. -/
def allHashes (io : Faults) (db : Db) : Except DbError (List String) := do
  statement io 0
  return db.objects.keys

/-- `all_objects_brief`. -/
def allObjectsBrief (io : Faults) (db : Db) : Except DbError (List ObjectBrief) := do
  statement io 0
  return db.objects.entries.map fun e => e.2.brief e.1

/-- `pushed_by`: an exact subject, at or after `since` when given, oldest first. -/
def pushedBy (io : Faults) (subject : String) (since : Option Int) (db : Db) :
    Except DbError (List ObjectBrief) := do
  statement io 0
  let rows := db.objects.entries.filter fun e =>
    e.2.pushedBy == some subject && since.all (fun t => decide (t ≤ e.2.createdAt))
  let rows := rows.insertionSort fun a b => lruOrder (a.2.createdAt, a.1) (b.2.createdAt, b.1)
  return rows.map fun e => e.2.brief e.1

theorem mem_pushedBy {io : Faults} {subject : String} {since : Option Int} {db : Db}
    {l : List ObjectBrief} (h : pushedBy io subject since db = .ok l) {b : ObjectBrief}
    (hb : b ∈ l) : ∃ row, db.row? b.storePathHash = some row ∧ b = row.brief b.storePathHash ∧
      row.pushedBy = some subject ∧ ∀ t, since = some t → t ≤ row.createdAt := by
  simp only [pushedBy, bind_eq_ok, pure_eq_ok] at h
  obtain ⟨_, -, rfl⟩ := h
  obtain ⟨e, he, rfl⟩ := List.mem_map.mp hb
  obtain ⟨he, hp⟩ := List.mem_filter.mp ((List.mem_insertionSort _).mp he)
  simp only [Bool.and_eq_true, beq_iff_eq] at hp
  refine ⟨e.2, Table.lookup_eq_some_iff.mpr he, rfl, hp.1, fun t ht => ?_⟩
  simpa [ht] using hp.2

/-- `pushed_by` lists a path once. -/
theorem pushedBy_nodup {io : Faults} {subject : String} {since : Option Int} {db : Db}
    {l : List ObjectBrief} (h : pushedBy io subject since db = .ok l) :
    (l.map ObjectBrief.storePathHash).Nodup := by
  simp only [pushedBy, bind_eq_ok, pure_eq_ok] at h
  obtain ⟨_, -, rfl⟩ := h
  have hkeys : (db.objects.entries.map fun e => e.1).Nodup := db.objects.nodupKeys
  rw [List.map_map]
  refine ((List.perm_insertionSort _ _).map _).nodup_iff.mpr ?_
  exact List.Nodup.sublist (List.Sublist.map _ List.filter_sublist) hkeys

/-- `update_sigs`. -/
def Db.updateSigs (db : Db) (hash : String) (sigs : List String) : Db :=
  db.updateRow hash fun row => { row with sigs := sigs }

/-- Several `update_sigs`, one after the other. -/
def Db.resigned (db : Db) (updates : List (String × List String)) : Db :=
  updates.foldl (fun db u => db.updateSigs u.1 u.2) db

/-! ## Last-accessed bumps -/

/-- `bump_last_accessed`: one transaction per batch, a fresh row is left alone. -/
def bumpLastAccessed (io : Faults) (hashes : List String) (now staleAfter : Int) (db : Db) :
    Except DbError Unit × Db :=
  transaction (fun db => do
    statement io 0
    let db := hashes.foldl (fun db h => db.updateRow h fun row =>
      if row.lastAccessedAt < now - staleAfter then { row with lastAccessedAt := now } else row) db
    statement io 1
    return ((), db)) db

/-- What a bump at `now` does to one row. -/
def Row.bump (now staleAfter : Int) (row : Row) : Row :=
  if row.lastAccessedAt < now - staleAfter then { row with lastAccessedAt := now } else row

/-- Two rows that differ at most in when they were last read. -/
def Row.SameButAccess (a b : Row) : Prop := b = { a with lastAccessedAt := b.lastAccessedAt }

theorem Row.sameButAccess_bump (now staleAfter : Int) (row : Row) :
    row.SameButAccess (row.bump now staleAfter) := by
  unfold Row.SameButAccess Row.bump
  split <;> rfl

@[simp] theorem Row.bump_bump (now staleAfter : Int) (row : Row) :
    (row.bump now staleAfter).bump now staleAfter = row.bump now staleAfter := by
  by_cases h : row.lastAccessedAt < now - staleAfter
  · have hbump : row.bump now staleAfter = { row with lastAccessedAt := now } := if_pos h
    rw [hbump]
    unfold Row.bump
    split <;> rfl
  · have hbump : row.bump now staleAfter = row := if_neg h
    rw [hbump, hbump]

/-- The loop of `bump_last_accessed`. -/
def Db.bumped (db : Db) (hashes : List String) (now staleAfter : Int) : Db :=
  hashes.foldl (fun db h => db.updateRow h (Row.bump now staleAfter)) db

theorem Db.totalBytes_updateRow (db : Db) (hash : String) (f : Row → Row) :
    (db.updateRow hash f).totalBytes = db.totalBytes := by
  unfold updateRow
  split <;> rfl

theorem Db.bumped_frame (now staleAfter : Int) : ∀ (hashes : List String) (db : Db),
    (db.bumped hashes now staleAfter).objectRefs = db.objectRefs ∧
      (db.bumped hashes now staleAfter).pins = db.pins ∧
      (db.bumped hashes now staleAfter).totalBytes = db.totalBytes
  | [], _ => ⟨rfl, rfl, rfl⟩
  | h :: hs, db => by
    obtain ⟨hrefs, hpins, htotal⟩ :=
      Db.bumped_frame now staleAfter hs (db.updateRow h (Row.bump now staleAfter))
    exact ⟨hrefs.trans (Db.objectRefs_updateRow ..), hpins.trans (Db.pins_updateRow ..),
      htotal.trans (Db.totalBytes_updateRow ..)⟩

/-- Every listed row is bumped, however often it is listed; no other one changes. -/
theorem Db.row?_bumped (now staleAfter : Int) (k : String) : ∀ (hashes : List String) (db : Db),
    (db.bumped hashes now staleAfter).row? k =
      if k ∈ hashes then (db.row? k).map (Row.bump now staleAfter) else db.row? k
  | [], _ => rfl
  | h :: hs, db => by
    have hrec : (db.bumped (h :: hs) now staleAfter).row? k = _ :=
      Db.row?_bumped now staleAfter k hs (db.updateRow h (Row.bump now staleAfter))
    rw [hrec, Db.row?_updateRow]
    cases db.row? k with
    | none => simp
    | some row => by_cases hk : k = h <;> by_cases hmem : k ∈ hs <;> simp [hk, hmem]

/-- A committed bump is its loop; a failed one changes nothing. -/
theorem bumpLastAccessed_eq {io : Faults} {hashes : List String} {now staleAfter : Int}
    {db db' : Db} {r : Except DbError Unit}
    (h : bumpLastAccessed io hashes now staleAfter db = (r, db')) :
    (r = .ok () ∧ db' = db.bumped hashes now staleAfter) ∨ (∃ e, r = .error e) ∧ db' = db := by
  rcases transaction_cases h with ⟨u, rfl, hb⟩ | ⟨e, rfl, rfl⟩
  · simp only [bind_eq_ok, pure_eq_ok] at hb
    obtain ⟨_, -, _, -, hdb⟩ := hb
    obtain ⟨-, rfl⟩ := Prod.mk.inj hdb
    exact Or.inl ⟨rfl, rfl⟩
  · exact Or.inr ⟨⟨e, rfl⟩, rfl⟩

theorem bumpLastAccessed_ok {io : Faults} (h₀ : io 0 = false) (h₁ : io 1 = false)
    (hashes : List String) (now staleAfter : Int) (db : Db) :
    bumpLastAccessed io hashes now staleAfter db = (.ok (), db.bumped hashes now staleAfter) := by
  have hstmt : ∀ k, io k = false → statement io k = .ok () := fun _ h => statement_eq_ok.mpr h
  unfold bumpLastAccessed transaction
  rw [hstmt 0 h₀, hstmt 1 h₁]
  rfl

/-- **A bump moves nothing but `last_accessed_at`.** -/
theorem bumpLastAccessed_cases {io : Faults} {hashes : List String} {now staleAfter : Int}
    {db db' : Db} {r : Except DbError Unit}
    (h : bumpLastAccessed io hashes now staleAfter db = (r, db')) :
    db'.objectRefs = db.objectRefs ∧ db'.pins = db.pins ∧
      ∀ k, db'.row? k = db.row? k ∨
        ∃ a b, db.row? k = some a ∧ db'.row? k = some b ∧ a.SameButAccess b := by
  rcases bumpLastAccessed_eq h with ⟨-, rfl⟩ | ⟨-, rfl⟩
  · obtain ⟨hrefs, hpins, -⟩ := Db.bumped_frame now staleAfter hashes db
    refine ⟨hrefs, hpins, fun k => ?_⟩
    rw [Db.row?_bumped]
    split
    · cases db.row? k with
      | none => exact Or.inl rfl
      | some row => exact Or.inr ⟨row, _, rfl, rfl, row.sameButAccess_bump now staleAfter⟩
    · exact Or.inl rfl
  · exact ⟨rfl, rfl, fun k => Or.inl rfl⟩

/-! ## Negotiation -/

/-- `PUSHED_AT_DEBOUNCE`: how stale `pushed_at` must be before Negotiation rewrites it. -/
def pushedAtDebounce : Int := 3600

/-- The read loop of `missing`: the hashes without a row, and those due for a bump. -/
def scanPushedAt (io : Faults) (now : Int) (db : Db) :
    ℕ → List String → Except DbError (List String × List String)
  | _, [] => .ok ([], [])
  | k, hash :: hashes => do
    statement io k
    let (missing, stale) ← scanPushedAt io now db (k + 1) hashes
    match db.row? hash with
    | none => return (hash :: missing, stale)
    | some row =>
      if row.pushedAt < now - pushedAtDebounce then return (missing, hash :: stale)
      else return (missing, stale)

/-- The write loop of `missing`. -/
def touchAll (now : Int) (stale : List String) (db : Db) : Db :=
  stale.foldl (fun db h => db.updateRow h fun row => { row with pushedAt := now }) db

/-- `missing`: the hashes the cache does not hold; every hash it holds has its `pushed_at`
refreshed, debounced. The write transaction is taken only when a bump is due. -/
def missing (io : Faults) (hashes : List String) (now : Int) (db : Db) :
    Except DbError (List String) × Db :=
  match scanPushedAt io now db 0 hashes with
  | .error e => (.error e, db)
  | .ok (missing, []) => (.ok missing, db)
  | .ok (missing, stale) =>
    transaction (fun db => do
      statement io hashes.length
      let db := touchAll now stale db
      statement io (hashes.length + 1)
      return (missing, db)) db

/-- What a committed Negotiation at `now` leaves. -/
structure Touched (now : Int) (db db' : Db) : Prop where
  refs : db'.objectRefs = db.objectRefs
  pins : db'.pins = db.pins
  rows : ∀ k, db'.row? k = db.row? k ∨
    ∃ row, db.row? k = some row ∧ row.pushedAt < now - pushedAtDebounce ∧
      db'.row? k = some { row with pushedAt := now }

theorem scanPushedAt_ok {io : Faults} {now : Int} {db : Db} :
    ∀ {hashes : List String} {k : ℕ} {ms stale : List String},
      scanPushedAt io now db k hashes = .ok (ms, stale) →
      ms = hashes.filter (fun h => (db.row? h).isNone) ∧
      (∀ h ∈ stale, ∃ row, db.row? h = some row ∧ row.pushedAt < now - pushedAtDebounce) ∧
      ∀ h ∈ hashes, h ∉ ms → h ∉ stale →
        ∃ row, db.row? h = some row ∧ now - pushedAtDebounce ≤ row.pushedAt
  | [], k, ms, stale, h => by
    simp only [scanPushedAt, Except.ok.injEq, Prod.mk.injEq] at h
    obtain ⟨rfl, rfl⟩ := h
    simp
  | hash :: hashes, k, ms, stale, h => by
    simp only [scanPushedAt, bind_eq_ok] at h
    obtain ⟨_, -, ⟨ms', stale'⟩, hrec, h⟩ := h
    obtain ⟨h1, h2, h3⟩ := scanPushedAt_ok hrec
    cases hrow : db.row? hash with
    | none =>
      rw [hrow] at h
      simp only [pure_eq_ok, Prod.mk.injEq] at h
      obtain ⟨rfl, rfl⟩ := h
      refine ⟨by rw [List.filter_cons_of_pos (by simp [hrow]), h1], h2, fun x hx hms hst => ?_⟩
      rcases List.mem_cons.mp hx with rfl | hx
      · exact absurd List.mem_cons_self hms
      · exact h3 x hx (fun hin => hms (List.mem_cons_of_mem _ hin)) hst
    | some row =>
      rw [hrow] at h
      have hfil : (hash :: hashes).filter (fun h => (db.row? h).isNone) =
          hashes.filter (fun h => (db.row? h).isNone) := by
        rw [List.filter_cons_of_neg (by simp [hrow])]
      simp only at h
      split at h
      · rename_i hst
        simp only [pure_eq_ok, Prod.mk.injEq] at h
        obtain ⟨rfl, rfl⟩ := h
        refine ⟨by rw [hfil, h1], fun x hx => ?_, fun x hx hms hstale => ?_⟩
        · rcases List.mem_cons.mp hx with rfl | hx
          · exact ⟨row, hrow, hst⟩
          · exact h2 x hx
        · rcases List.mem_cons.mp hx with rfl | hx
          · exact absurd List.mem_cons_self hstale
          · exact h3 x hx hms fun hin => hstale (List.mem_cons_of_mem _ hin)
      · rename_i hst
        simp only [pure_eq_ok, Prod.mk.injEq] at h
        obtain ⟨rfl, rfl⟩ := h
        refine ⟨by rw [hfil, h1], h2, fun x hx hms hstale => ?_⟩
        rcases List.mem_cons.mp hx with rfl | hx
        · exact ⟨row, hrow, by omega⟩
        · exact h3 x hx hms hstale

theorem touchAll_spec (now : Int) : ∀ (stale : List String) (db : Db),
    (touchAll now stale db).objectRefs = db.objectRefs ∧ (touchAll now stale db).pins = db.pins ∧
      ∀ k, (touchAll now stale db).row? k =
        if k ∈ stale then (db.row? k).map fun row => { row with pushedAt := now } else db.row? k
  | [], db => by simp [touchAll]
  | h :: hs, db => by
    obtain ⟨h1, h2, h3⟩ := touchAll_spec now hs
      (db.updateRow h fun row => { row with pushedAt := now })
    have heq : touchAll now (h :: hs) db =
        touchAll now hs (db.updateRow h fun row => { row with pushedAt := now }) := rfl
    refine ⟨by rw [heq, h1, Db.objectRefs_updateRow], by rw [heq, h2, Db.pins_updateRow],
      fun k => ?_⟩
    rw [heq, h3, Db.row?_updateRow]
    cases db.row? k with
    | none => simp
    | some row =>
      by_cases hk : k = h
      · subst hk
        simp
      · simp [hk]

/-- **Negotiation**: a failed call changes nothing. A successful one answers exactly the hashes
without a row, and leaves every other hash with a `pushed_at` no staler than the debounce. -/
theorem missing_cases {io : Faults} {hashes : List String} {now : Int} {db db' : Db}
    {r : Except DbError (List String)} (h : missing io hashes now db = (r, db')) :
    (∃ ms, r = .ok ms ∧ ms = hashes.filter (fun h => (db.row? h).isNone) ∧ Touched now db db' ∧
      ∀ x ∈ hashes, x ∉ ms → ∃ row, db'.row? x = some row ∧ now - pushedAtDebounce ≤ row.pushedAt) ∨
    (∃ e, r = .error e) ∧ db' = db := by
  unfold missing at h
  split at h
  · obtain ⟨rfl, rfl⟩ := Prod.mk.inj h
    exact Or.inr ⟨⟨_, rfl⟩, rfl⟩
  · rename_i ms hs
    obtain ⟨rfl, rfl⟩ := Prod.mk.inj h
    obtain ⟨h1, -, h3⟩ := scanPushedAt_ok hs
    exact Or.inl ⟨ms, rfl, h1, ⟨rfl, rfl, fun k => Or.inl rfl⟩,
      fun x hx hms => h3 x hx hms List.not_mem_nil⟩
  · rename_i ms stale _ hs
    obtain ⟨h1, h2, h3⟩ := scanPushedAt_ok hs
    rcases transaction_cases h with ⟨a, rfl, hb⟩ | ⟨e, rfl, rfl⟩
    · simp only [bind_eq_ok, pure_eq_ok, Prod.mk.injEq] at hb
      obtain ⟨_, -, _, -, rfl, rfl⟩ := hb
      obtain ⟨t1, t2, t3⟩ := touchAll_spec now stale db
      refine Or.inl ⟨ms, rfl, h1, ⟨t1, t2, fun k => ?_⟩, fun x hx hms => ?_⟩
      · rw [t3]
        split
        · rename_i hk
          obtain ⟨row, hrow, hlt⟩ := h2 k hk
          exact Or.inr ⟨row, hrow, hlt, by rw [hrow]; rfl⟩
        · exact Or.inl rfl
      · rw [t3]
        split
        · rename_i hk
          obtain ⟨row, hrow, -⟩ := h2 x hk
          refine ⟨{ row with pushedAt := now }, by rw [hrow]; rfl, ?_⟩
          simp only [pushedAtDebounce]
          omega
        · rename_i hk
          exact h3 x hx hms hk
    · exact Or.inr ⟨⟨e, rfl⟩, rfl⟩

end Garret
