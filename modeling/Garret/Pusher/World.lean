import Garret.Db.Prune
import Garret.InFlight
import Garret.Upload.Store

/-!
# What the Pusher's tasks share

The state every task of the Pusher works on: the database behind one connection, the in-flight map,
the bucket and the clock. A task runs in steps; a step is what happens between two awaits, and other
tasks may run in between.

* A database closure (`db_run`) is one step, or several while the task keeps the connection
  (`World.conn`): prune commits batch by batch, the sweep claims path by path. While a task keeps
  the connection no other closure runs.
* An S3 request is one step: it takes effect at one moment before it returns. A failed one may have
  taken effect.
* What the outside decides in a step is its `Oracle`.

`Deletion` and `Finish` model `crates/garret-pusher/src/deletion.rs`: the claims held and the blobs
queued, and `finish`, which deletes the blobs request by request and then releases the claims.
-/

namespace Garret

open Garret.Lib

/-- What the tasks share. -/
structure World where
  db : Db
  inFlight : InFlight
  /-- Blobs by key. -/
  bucket : Table String Bytes
  /-- `unix_now()`. -/
  clock : Int
  /-- The task that keeps the connection between its steps. -/
  conn : Option ℕ

/-- The Pusher's configuration: that of a transfer, the low watermark and the orphan grace. -/
structure Env (δ : Type) extends Server δ where
  low : Int
  orphanGrace : Int

/-- How a `DeleteObjects` request ended: whether it was answered, the keys it deleted, and the
failures its answer lists. -/
structure DeleteReply where
  ok : Bool
  applied : List String
  errors : List String

/-- One page of a listing: the last key it covers (`none` for the last page), the ages it reports,
and whether the request failed. -/
structure Page where
  fails : Bool
  upTo : Option String
  age : String → Int

/-- What the outside decides in one step. -/
structure Oracle where
  /-- Which statements of a database closure fail. -/
  io : Faults
  /-- No upload slot is free. -/
  shed : Bool
  /-- The body, the check thread and S3, for a transfer. -/
  transfer : Transfer
  delete : DeleteReply
  page : Page
  /-- The iteration order of a hash set. -/
  order : List String
  /-- Whether a drain ran into its timeout, or a request that changes no blob failed. -/
  timedOut : Bool

/-- Nothing fails, nothing is sent and every request succeeds. -/
def Oracle.calm : Oracle where
  io := fun _ => false
  shed := false
  transfer := ⟨[], fun _ => ⟨0, false⟩, ⟨.ok, true, fun _ => true, fun _ => 0, .ok⟩⟩
  delete := ⟨true, [], []⟩
  page := ⟨false, none, fun _ => 0⟩
  order := []
  timedOut := false

namespace World

/-- A started process over a database and a bucket. -/
def boot (db : Db) (bucket : Table String Bytes) (clock : Int) : World :=
  ⟨db, .new, bucket, clock, none⟩

/-- The row of `hash`. -/
def row? (w : World) (hash : String) : Option Row := w.db.row? hash

/-- The blob of `hash`. -/
def blob? (w : World) (hash : String) : Option Bytes := w.bucket.lookup (keyFor hash)

/-- Whether task `me` may run a closure: nobody else keeps the connection. -/
def free (w : World) (me : ℕ) : Prop := w.conn = none ∨ w.conn = some me

instance (w : World) (me : ℕ) : Decidable (w.free me) := by unfold free; infer_instance

/-- The claims on `hashes` are dropped. -/
def release (w : World) (hashes : List String) : World :=
  { w with inFlight := w.inFlight.releaseAll hashes }

/-- What a store makes visible. -/
def putBlob (w : World) (hash : String) : Option Bytes → World
  | none => w
  | some blob => { w with bucket := w.bucket.insert (keyFor hash) blob }

/-- The blobs of `keys` are deleted. -/
def unlink (w : World) (keys : List String) : World :=
  { w with bucket := Table.eraseAll w.bucket keys }

@[simp] theorem release_db (w : World) (l : List String) : (w.release l).db = w.db := rfl

@[simp] theorem release_bucket (w : World) (l : List String) : (w.release l).bucket = w.bucket :=
  rfl

@[simp] theorem release_clock (w : World) (l : List String) : (w.release l).clock = w.clock := rfl

@[simp] theorem release_conn (w : World) (l : List String) : (w.release l).conn = w.conn := rfl

@[simp] theorem putBlob_db (w : World) (h : String) (b : Option Bytes) :
    (w.putBlob h b).db = w.db := by cases b <;> rfl

@[simp] theorem putBlob_inFlight (w : World) (h : String) (b : Option Bytes) :
    (w.putBlob h b).inFlight = w.inFlight := by cases b <;> rfl

@[simp] theorem putBlob_clock (w : World) (h : String) (b : Option Bytes) :
    (w.putBlob h b).clock = w.clock := by cases b <;> rfl

@[simp] theorem putBlob_conn (w : World) (h : String) (b : Option Bytes) :
    (w.putBlob h b).conn = w.conn := by cases b <;> rfl

theorem blob?_putBlob_self {w : World} {h : String} {b : Bytes} :
    (w.putBlob h (some b)).blob? h = some b := by
  unfold putBlob blob?
  rw [Table.lookup_insert_eq, if_pos rfl]

theorem blob?_putBlob_ne {w : World} {h k : String} {b : Option Bytes} (hne : k ≠ h) :
    (w.putBlob h b).blob? k = w.blob? k := by
  cases b with
  | none => rfl
  | some b =>
    unfold putBlob blob?
    rw [Table.lookup_insert_eq, if_neg fun e => hne (keyFor_injective e)]

theorem blob?_unlink {w : World} {keys : List String} {k : String} :
    (w.unlink keys).blob? k = if keyFor k ∈ keys then none else w.blob? k :=
  Table.lookup_eraseAll

end World

/-! ## `Deletion` -/

/-- Delete claims held and blobs queued. -/
structure Deletion where
  claims : List String
  keys : List String
  deriving DecidableEq, Repr

namespace Deletion

/-- `queue_blob`. -/
def queueBlob (d : Deletion) (hash : String) : Deletion := { d with keys := d.keys ++ [keyFor hash] }

/-- `hold`: keeps the claim and queues the blob. -/
def hold (d : Deletion) (hash : String) : Deletion :=
  { d.queueBlob hash with claims := d.claims ++ [hash] }

/-- The claimed paths whose blob is queued: their rows are gone. -/
def queued (d : Deletion) : List String := d.claims.filter fun h => decide (keyFor h ∈ d.keys)

/-- Every queued blob is one of a claimed path. -/
def Wf (d : Deletion) : Prop := ∀ k ∈ d.keys, ∃ h ∈ d.claims, k = keyFor h

theorem mem_queued {d : Deletion} {h : String} :
    h ∈ d.queued ↔ h ∈ d.claims ∧ keyFor h ∈ d.keys := by
  simp [queued]

theorem wf_nil (claims : List String) : Wf ⟨claims, []⟩ := by simp [Wf]

theorem Wf.queueBlob {d : Deletion} (h : d.Wf) {hash : String} (hc : hash ∈ d.claims) :
    (d.queueBlob hash).Wf := by
  intro k hk
  rcases List.mem_append.mp hk with hk | hk
  · exact h k hk
  · exact ⟨hash, hc, List.mem_singleton.mp hk⟩

theorem Wf.hold {d : Deletion} (h : d.Wf) (hash : String) : (d.hold hash).Wf := by
  intro k hk
  rcases List.mem_append.mp hk with hk | hk
  · obtain ⟨x, hx, he⟩ := h k hk
    exact ⟨x, List.mem_append_left _ hx, he⟩
  · exact ⟨hash, by simp [Deletion.hold], List.mem_singleton.mp hk⟩

theorem mem_queued_queueBlob {d : Deletion} {hash h : String}
    (hq : h ∈ (d.queueBlob hash).queued) : h ∈ d.queued ∨ h = hash := by
  obtain ⟨hc, hk⟩ := mem_queued.mp hq
  rcases List.mem_append.mp hk with hk | hk
  · exact Or.inl (mem_queued.mpr ⟨hc, hk⟩)
  · exact Or.inr (keyFor_injective (List.mem_singleton.mp hk))

theorem mem_queued_hold {d : Deletion} {hash h : String} (hq : h ∈ (d.hold hash).queued) :
    h ∈ d.queued ∨ h = hash := by
  obtain ⟨hc, hk⟩ := mem_queued.mp hq
  rcases List.mem_append.mp hc with hc | hc
  · rcases List.mem_append.mp hk with hk | hk
    · exact Or.inl (mem_queued.mpr ⟨hc, hk⟩)
    · exact Or.inr (keyFor_injective (List.mem_singleton.mp hk))
  · exact Or.inr (List.mem_singleton.mp hc)

end Deletion

/-- The batch size of `delete_objects`. -/
def deleteBatch : ℕ := 1000

/-- `finish` under way: the claims it holds, the requests still to send, and the failures counted. -/
structure Finish where
  claims : List String
  batches : List (List String)
  failed : ℕ
  deriving DecidableEq, Repr

namespace Finish

/-- `finish` before its first request. -/
def start (d : Deletion) : Finish := ⟨d.claims, chunks deleteBatch d.keys, 0⟩

/-- What is left to delete, as a `Deletion`. -/
def deletion (f : Finish) : Deletion := ⟨f.claims, f.batches.flatten⟩

/-- One request, or the end of `finish`: the claims are released whether or not the deletes
succeeded. -/
def step (w : World) (o : Oracle) (f : Finish) : World × (Finish ⊕ Except String Unit) :=
  match f.batches with
  | [] => (w.release f.claims, .inr (if f.failed = 0 then .ok () else .error "blob(s) not deleted"))
  | batch :: batches =>
    let w := w.unlink (batch.filter fun k => o.delete.applied.contains k)
    if o.delete.ok then (w, .inl ⟨f.claims, batches, f.failed + o.delete.errors.length⟩)
    else (w.release f.claims, .inr (.error "deleting blobs"))

theorem start_deletion (d : Deletion) : (start d).deletion = d := by
  unfold start deletion
  simp only
  rw [flatten_chunks (by decide)]

/-- **All a step of `finish` can do**: some blobs of the first batch go, and either the rest is left
or the claims are released. -/
theorem step_cases {w w' : World} {o : Oracle} {f : Finish} {next : Finish ⊕ Except String Unit}
    (h : f.step w o = (w', next)) :
    ∃ gone : List String, (∀ k ∈ gone, k ∈ f.deletion.keys) ∧
      ((∃ f', next = .inl f' ∧ w' = w.unlink gone ∧ f'.claims = f.claims ∧
          ∀ k ∈ f'.deletion.keys, k ∈ f.deletion.keys) ∨
        (∃ r, next = .inr r) ∧ w' = (w.unlink gone).release f.claims) := by
  unfold step at h
  split at h
  · obtain ⟨rfl, rfl⟩ := Prod.mk.inj h
    exact ⟨[], by simp, Or.inr ⟨⟨_, rfl⟩, rfl⟩⟩
  · rename_i batch batches hb
    have hkeys : f.deletion.keys = batch ++ batches.flatten := by
      simp [deletion, hb]
    refine ⟨batch.filter fun k => o.delete.applied.contains k, fun k hk => ?_, ?_⟩
    · rw [hkeys]
      exact List.mem_append_left _ (List.mem_filter.mp hk).1
    · simp only at h
      split at h
      · obtain ⟨rfl, rfl⟩ := Prod.mk.inj h
        refine Or.inl ⟨_, rfl, rfl, rfl, fun k hk => ?_⟩
        rw [hkeys]
        exact List.mem_append_right _ hk
      · obtain ⟨rfl, rfl⟩ := Prod.mk.inj h
        exact Or.inr ⟨⟨_, rfl⟩, rfl⟩

end Finish

/-! ## Listings of the bucket -/

/-- One blob of a listing (`storage::Blob`). -/
structure Blob where
  hash : String
  age : Int
  size : Int
  deriving DecidableEq, Repr

/-- A key lies on the page after `token` that ends at `upTo`. -/
def onPage (token upTo : Option String) (key : String) : Bool :=
  token.all (fun t => decide (t < key)) && upTo.all fun u => decide (key ≤ u)

/-- The blobs of one page, in key order; keys outside the layout are skipped. -/
def listPage (w : World) (token : Option String) (page : Page) : List Blob :=
  let entries := (w.bucket.entries.filter fun e => onPage token page.upTo e.1).insertionSort
    fun a b => a.1 ≤ b.1
  entries.filterMap fun e => (hashFor e.1).map fun h => ⟨h, page.age e.1, (e.2.length : Int)⟩

/-- `orphan_hashes`: blobs without a row, not in flight, past the grace. -/
def orphanHashes (blobs : List Blob) (known : List String) (f : InFlight) (grace : Int) :
    List String :=
  (blobs.filter fun b => !known.contains b.hash && !f.contains b.hash && decide (grace ≤ b.age)).map
    Blob.hash

end Garret
