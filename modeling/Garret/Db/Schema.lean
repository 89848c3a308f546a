import Garret.Common
import Garret.Lib.Table

/-!
# The database: tables, constraints and transactions

Model of the schema of `crates/garret-server/src/db.rs` and of how its statements run.

* `Db` holds the three tables and the counter of `stats`. The primary keys of `objects` and `pins`
  are the keys of a `Table`; the primary key of `object_refs` and the two foreign keys are fields
  of the structure, so a state that violates the schema cannot be written down.
* `sigs` is stored as JSON text; the model keeps the list it encodes.
* Columns are 64-bit in SQLite; they are exact integers here, and the results that depend on the
  range say so.
* Deleting a row cascades to its references and pins (`Db.deleteRow`, `ON DELETE CASCADE` with
  `foreign_keys = ON`).
* `Faults` decides which statements of an operation fail (a busy database, an I/O error). A
  transaction that does not reach its commit leaves the database as it was (`transaction`).
-/

namespace Garret

open Garret.Lib

/-- One cached store path (`db::Object`). -/
structure Object where
  storePathHash : String
  storePath : String
  name : String
  narHash : String
  narSize : Int
  fileHash : String
  fileSize : Int
  deriver : Option String
  ca : Option String
  references : List String
  sigs : List String
  pushedBy : Option String
  deriving DecidableEq, Repr

/-- A row of `objects`, its key `store_path_hash` aside. -/
structure Row where
  storePath : String
  name : String
  narHash : String
  narSize : Int
  fileHash : String
  fileSize : Int
  deriver : Option String
  ca : Option String
  sigs : List String
  pushedBy : Option String
  createdAt : Int
  lastAccessedAt : Int
  pushedAt : Int
  deriving DecidableEq, Repr

/-- The row `insert_object` writes for `obj` at `now`. -/
def Object.toRow (obj : Object) (now : Int) : Row where
  storePath := obj.storePath
  name := obj.name
  narHash := obj.narHash
  narSize := obj.narSize
  fileHash := obj.fileHash
  fileSize := obj.fileSize
  deriver := obj.deriver
  ca := obj.ca
  sigs := obj.sigs
  pushedBy := obj.pushedBy
  createdAt := now
  lastAccessedAt := now
  pushedAt := now

/-- The object a row and its references spell, under its hash. -/
def Row.toObject (row : Row) (hash : String) (references : List String) : Object where
  storePathHash := hash
  storePath := row.storePath
  name := row.name
  narHash := row.narHash
  narSize := row.narSize
  fileHash := row.fileHash
  fileSize := row.fileSize
  deriver := row.deriver
  ca := row.ca
  references := references
  sigs := row.sigs
  pushedBy := row.pushedBy

/-- A row of `object_refs`: `reference` is a basename, not necessarily in the cache. -/
structure ObjectRef where
  referrer : String
  reference : String
  deriving DecidableEq, Repr

/-- The generated column `reference_hash`: `substr(reference, 1, 32)`. -/
def ObjectRef.referenceHash (r : ObjectRef) : String := String.ofList (r.reference.toList.take 32)

/-- A row of `pins`, its key `name` aside; no expiry is permanent. -/
structure Pin where
  storePathHash : String
  expiresAt : Option Int
  createdAt : Int
  deriving DecidableEq, Repr

/-- `expires_at IS NULL OR expires_at > :now`. -/
def Pin.live (p : Pin) (now : Int) : Bool :=
  match p.expiresAt with
  | none => true
  | some t => decide (now < t)

theorem Pin.live_mono {p : Pin} {now clock : Int} (h : p.live clock = true) (hle : now ≤ clock) :
    p.live now = true := by
  unfold Pin.live at *
  split
  · rfl
  · rename_i t ht
    rw [ht] at h
    simp only [decide_eq_true_eq] at h ⊢
    omega

/-- The database, with the constraints of the schema. -/
structure Db where
  objects : Table String Row
  objectRefs : List ObjectRef
  pins : Table String Pin
  totalBytes : Int
  /-- `PRIMARY KEY (referrer, reference)`. -/
  refs_nodup : objectRefs.Nodup
  /-- `referrer … REFERENCES objects`. -/
  refs_fk : ∀ r ∈ objectRefs, r.referrer ∈ objects
  /-- `pins.store_path_hash … REFERENCES objects`. -/
  pins_fk : ∀ e ∈ pins.entries, e.2.storePathHash ∈ objects

namespace Db

/-- A freshly migrated database: no row, `stats` at `(1, 0)`. -/
def empty : Db where
  objects := ∅
  objectRefs := []
  pins := ∅
  totalBytes := 0
  refs_nodup := List.nodup_nil
  refs_fk := by simp
  pins_fk := by simp

/-- The row of `hash`, if it has one. -/
def row? (db : Db) (hash : String) : Option Row := db.objects.lookup hash

/-- The references of `hash`, in table order. -/
def refsOf (db : Db) (hash : String) : List String :=
  (db.objectRefs.filter fun r => r.referrer == hash).map ObjectRef.reference

/-- The `(referrer, reference_hash)` pairs of `object_refs`. -/
def edges (db : Db) : List (String × String) :=
  db.objectRefs.map fun r => (r.referrer, r.referenceHash)

/-- `SELECT COALESCE(SUM(file_size), 0) FROM objects`. -/
def sumFileSize (db : Db) : Int := Table.sum Row.fileSize db.objects

/-! ## Statements -/

/-- The upsert of `insert_object`: the row is written, its pins stay. -/
def upsert (db : Db) (hash : String) (row : Row) : Db where
  objects := db.objects.insert hash row
  objectRefs := db.objectRefs
  pins := db.pins
  totalBytes := db.totalBytes
  refs_nodup := db.refs_nodup
  refs_fk r hr := (AList.mem_insert _).mpr (Or.inr (db.refs_fk r hr))
  pins_fk e he := (AList.mem_insert _).mpr (Or.inr (db.pins_fk e he))

/-- `DELETE FROM object_refs WHERE referrer = ?1`. -/
def deleteRefs (db : Db) (hash : String) : Db where
  objects := db.objects
  objectRefs := db.objectRefs.filter fun r => r.referrer != hash
  pins := db.pins
  totalBytes := db.totalBytes
  refs_nodup := db.refs_nodup.filter _
  refs_fk r hr := db.refs_fk r (List.mem_filter.mp hr).1
  pins_fk := db.pins_fk

/-- `INSERT INTO object_refs`, for a pair not in the table and a referrer that has a row. -/
def addRef (db : Db) (r : ObjectRef) (hnew : r ∉ db.objectRefs) (hfk : r.referrer ∈ db.objects) :
    Db where
  objects := db.objects
  objectRefs := db.objectRefs ++ [r]
  pins := db.pins
  totalBytes := db.totalBytes
  refs_nodup := List.nodup_append.mpr ⟨db.refs_nodup, List.nodup_singleton r, by
    intro a ha b hb
    rw [List.mem_singleton.mp hb]
    exact fun e => hnew (e ▸ ha)⟩
  refs_fk x hx := by
    rcases List.mem_append.mp hx with hx | hx
    · exact db.refs_fk x hx
    · rw [List.mem_singleton.mp hx]
      exact hfk
  pins_fk := db.pins_fk

/-- `DELETE FROM objects WHERE store_path_hash = ?1`, with its cascades. -/
def deleteRow (db : Db) (hash : String) : Db where
  objects := db.objects.erase hash
  objectRefs := db.objectRefs.filter fun r => r.referrer != hash
  pins := Table.filter (fun _ p => p.storePathHash != hash) db.pins
  totalBytes := db.totalBytes
  refs_nodup := db.refs_nodup.filter _
  refs_fk r hr := by
    obtain ⟨hr, hne⟩ := List.mem_filter.mp hr
    exact AList.mem_erase.mpr ⟨by simpa using hne, db.refs_fk r hr⟩
  pins_fk e he := by
    obtain ⟨he, hne⟩ := List.mem_filter.mp he
    exact AList.mem_erase.mpr ⟨by simpa using hne, db.pins_fk e he⟩

/-- `UPDATE stats SET total_bytes = …`. -/
def setTotal (db : Db) (n : Int) : Db := { db with totalBytes := n }

/-- `UPDATE objects SET … WHERE store_path_hash = ?1`, for columns other than the key. -/
def updateRow (db : Db) (hash : String) (f : Row → Row) : Db :=
  match db.row? hash with
  | none => db
  | some row => db.upsert hash (f row)

/-- `INSERT OR REPLACE INTO pins`, for a hash that has a row. -/
def putPin (db : Db) (name : String) (p : Pin) (hfk : p.storePathHash ∈ db.objects) : Db where
  objects := db.objects
  objectRefs := db.objectRefs
  pins := db.pins.insert name p
  totalBytes := db.totalBytes
  refs_nodup := db.refs_nodup
  refs_fk := db.refs_fk
  pins_fk e he := by
    rw [AList.entries_insert] at he
    rcases List.mem_cons.mp he with rfl | he
    · exact hfk
    · exact db.pins_fk e ((List.kerase_sublist name db.pins.entries).subset he)

/-- `DELETE FROM pins WHERE name = ?1`. -/
def deletePin (db : Db) (name : String) : Db where
  objects := db.objects
  objectRefs := db.objectRefs
  pins := db.pins.erase name
  totalBytes := db.totalBytes
  refs_nodup := db.refs_nodup
  refs_fk := db.refs_fk
  pins_fk e he := db.pins_fk e ((List.kerase_sublist name db.pins.entries).subset he)

/-! ## What each statement leaves -/

@[simp] theorem row?_empty (k : String) : empty.row? k = none := rfl

@[simp] theorem row?_upsert (db : Db) (hash : String) (row : Row) (k : String) :
    (db.upsert hash row).row? k = if k = hash then some row else db.row? k :=
  Table.lookup_insert_eq

@[simp] theorem objectRefs_upsert (db : Db) (hash : String) (row : Row) :
    (db.upsert hash row).objectRefs = db.objectRefs := rfl

@[simp] theorem pins_upsert (db : Db) (hash : String) (row : Row) :
    (db.upsert hash row).pins = db.pins := rfl

@[simp] theorem row?_deleteRow (db : Db) (hash k : String) :
    (db.deleteRow hash).row? k = if k = hash then none else db.row? k :=
  Table.lookup_erase_eq

theorem mem_refs_deleteRow {db : Db} {hash : String} {r : ObjectRef} :
    r ∈ (db.deleteRow hash).objectRefs ↔ r ∈ db.objectRefs ∧ r.referrer ≠ hash := by
  simp [deleteRow]

theorem pin?_deleteRow {db : Db} {hash name : String} {p : Pin} :
    (db.deleteRow hash).pins.lookup name = some p ↔
      db.pins.lookup name = some p ∧ p.storePathHash ≠ hash := by
  simp [deleteRow, Table.lookup_filter_eq_some]

@[simp] theorem row?_setTotal (db : Db) (n : Int) (k : String) :
    (db.setTotal n).row? k = db.row? k := rfl

@[simp] theorem objectRefs_setTotal (db : Db) (n : Int) :
    (db.setTotal n).objectRefs = db.objectRefs := rfl

@[simp] theorem pins_setTotal (db : Db) (n : Int) : (db.setTotal n).pins = db.pins := rfl

@[simp] theorem row?_deleteRefs (db : Db) (hash k : String) :
    (db.deleteRefs hash).row? k = db.row? k := rfl

@[simp] theorem row?_updateRow (db : Db) (hash : String) (f : Row → Row) (k : String) :
    (db.updateRow hash f).row? k = if k = hash then (db.row? k).map f else db.row? k := by
  unfold updateRow
  split
  · rename_i h
    by_cases hk : k = hash
    · subst hk
      simp [h]
    · simp [hk]
  · rename_i row h
    by_cases hk : k = hash
    · subst hk
      simp [h]
    · simp [hk]

@[simp] theorem objectRefs_updateRow (db : Db) (hash : String) (f : Row → Row) :
    (db.updateRow hash f).objectRefs = db.objectRefs := by
  unfold updateRow
  split <;> rfl

@[simp] theorem pins_updateRow (db : Db) (hash : String) (f : Row → Row) :
    (db.updateRow hash f).pins = db.pins := by
  unfold updateRow
  split <;> rfl

theorem mem_objects_iff {db : Db} {k : String} : k ∈ db.objects ↔ ∃ row, db.row? k = some row :=
  Table.mem_iff_lookup

end Db

/-! ## Transactions -/

/-- Why a database call failed. -/
inductive DbError where
  /-- A statement failed: a busy database, an I/O error. -/
  | io
  /-- A constraint of the schema. -/
  | constraint
  /-- A refusal of the code itself, with its message. -/
  | refused (message : String)
  deriving DecidableEq, Repr

/-- Which statements of an operation fail, by position. -/
abbrev Faults := ℕ → Bool

/-- No statement fails. -/
def noFaults : Faults := fun _ => false

/-- The body of a transaction: what it wrote is lost when it fails. -/
abbrev Tx (α : Type) := Db → Except DbError (α × Db)

/-- Run a body in one transaction: a failure rolls everything back. -/
def transaction {α : Type} (body : Tx α) (db : Db) : Except DbError α × Db :=
  match body db with
  | .ok (a, db') => (.ok a, db')
  | .error e => (.error e, db)

/-- **A transaction is all or nothing.** -/
theorem transaction_cases {α : Type} {body : Tx α} {db db' : Db} {r : Except DbError α}
    (h : transaction body db = (r, db')) :
    (∃ a, r = .ok a ∧ body db = .ok (a, db')) ∨ (∃ e, r = .error e ∧ db' = db) := by
  unfold transaction at h
  split at h
  · rename_i a d hb
    obtain ⟨rfl, rfl⟩ := Prod.mk.inj h
    exact Or.inl ⟨a, rfl, hb⟩
  · rename_i e hb
    obtain ⟨rfl, rfl⟩ := Prod.mk.inj h
    exact Or.inr ⟨e, rfl, rfl⟩

end Garret
