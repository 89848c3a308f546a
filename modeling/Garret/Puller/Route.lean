import Garret.Db.Read
import Garret.Lib.Tasks
import Garret.Wire
import Mathlib.Data.List.Basic

/-!
# The pull routes

Model of `narinfo`, `nar_redirect`, `db_read`, `counted` and `degraded_miss`
(`crates/garret-puller/src/main.rs`): any number of requests over the one pull connection. Instants
are nanoseconds.

* A task is one request and the blocking thread of its read. Nothing cancels the thread: it goes on
  when its request is answered or dropped.
* `db_read` takes two instants, that of `deadline` and that of its timeout. The thread may run from
  the first on.
* A narinfo's row and its references are two statements (`Garret.Pull`). Commits, of any process,
  come at any time.
* The deep readiness probe reads over the same connection; here it only takes the lock and frees it.
  `Bumps::hit` is in `Garret.Bumps`.
* Where the code waits (the lock, a statement, S3), the outside says when it goes on, and whether.
-/

namespace Garret.PullRoute

open Garret.Lib

/-- The part of `AppState` the routes read. `presignedGet` is what `Storage::presigned_get` answers
for a key; the number stands for its clock and its credentials. -/
structure Config where
  dbReadBudget : ℕ
  presignBudget : ℕ
  presignedGet : String → ℕ → Option String

/-! ## Answers -/

/-- Why a request degraded to a miss. -/
inductive Degraded where
  | dbTimeout
  | dbError
  | presignTimeout
  | presignError
  deriving DecidableEq, Repr

def Degraded.reason : Degraded → String
  | dbTimeout => "db_timeout"
  | dbError => "db_error"
  | presignTimeout => "presign_timeout"
  | presignError => "presign_error"

inductive Response where
  | narinfo (body : String)
  | redirect (url : String)
  | notFound
  | unavailable
  deriving DecidableEq, Repr

def Response.status : Response → ℕ
  | narinfo _ => 200
  | redirect _ => 307
  | notFound => 404
  | unavailable => 503

/-- How a request ended. -/
inductive Outcome where
  | hit (response : Response)
  | miss
  /-- The database does not exist yet. -/
  | unavailable
  | degraded (why : Degraded)
  /-- Not the file name of a store hash. -/
  | junk
  deriving DecidableEq, Repr

/-- Increments of counters: the counter, its label and the label's value. -/
abbrev Counts := List (String × String × String)

def degradedMiss (degraded : Degraded) : Counts × Response :=
  ([("garret_degraded_total", "reason", degraded.reason)], .notFound)

/-- `counted`: what is counted, and the response. -/
def counted (counter : String) : Outcome → Counts × Response
  | .hit response => ([(counter, "outcome", "hit")], response)
  | .miss => ([(counter, "outcome", "miss")], .notFound)
  | .unavailable => ([(counter, "outcome", "miss")], .unavailable)
  | .degraded degraded =>
    let (counts, response) := degradedMiss degraded
    (counts ++ [(counter, "outcome", "miss")], response)
  | .junk => ([], .notFound)

/-- The two routes. -/
inductive Route where
  | narinfo
  | nar
  deriving DecidableEq, Repr

namespace Route

def counter : Route → String
  | narinfo => "garret_narinfo_requests_total"
  | nar => "garret_nar_requests_total"

/-- The store hash a file name asks for. -/
def hash : Route → String → Option String
  | narinfo, file => (narinfoHash file).filter isStoreHash
  | nar, file => (narFileHash file).filter isStoreHash

end Route

/-! ## Requests -/

structure World where
  clock : ℕ
  /-- When `AppState::db` was set. -/
  openedAt : Option ℕ
  /-- The lock of the pull connection. -/
  locked : Bool
  /-- The deep readiness probe has it. -/
  probe : Bool
  db : Db
  /-- The states committed before `db`, the newest first. -/
  past : List Db

/-- A Puller that has just started. -/
def World.boot (clock : ℕ) (db : Db) (past : List Db) : World :=
  ⟨clock, none, false, false, db, past⟩

/-- The states from number `base` on. -/
def World.seen (w : World) (base : ℕ) : List Db := (w.db :: w.past).take (w.past.length + 1 - base)

/-- What a read returned. -/
inductive Read where
  /-- `get_object_and_last_accessed` -/
  | object (obj : Object) (lastAccessedAt : Int)
  /-- `exists` -/
  | present
  | missing
  /-- An error or a panic. -/
  | failed
  deriving DecidableEq

/-- Where the blocking thread is. -/
inductive Thread where
  /-- It waits for the lock, or for a thread of the pool. -/
  | queued
  /-- It has the lock since `begun`, and has run no statement. -/
  | row (begun : ℕ)
  /-- It has read the row, and not its references. -/
  | refs (begun : ℕ) (row : Row)
  /-- `begun` is `none` when the budget had elapsed in the queue. -/
  | ended (begun : Option ℕ) (read : Read)
  deriving DecidableEq

namespace Thread

/-- When it got the lock. -/
def begun? : Thread → Option ℕ
  | queued => none
  | row begun => some begun
  | refs begun _ => some begun
  | ended begun _ => begun

/-- It has the lock. -/
def working : Thread → Bool
  | row _ => true
  | refs _ _ => true
  | _ => false

end Thread

/-- A call of `db_read`: its first instant, the number of states before it, and its thread. -/
structure DbRead where
  start : ℕ
  base : ℕ
  thread : Thread
  deriving DecidableEq

/-- Where the request itself is. -/
inductive Phase where
  | arrived
  /-- The thread is spawned, the timeout not yet set. -/
  | spawned
  /-- It waits for its thread, until `due`. -/
  | waiting (due : ℕ)
  /-- It waits for the presigned URL, until `due`. -/
  | presigning (due : ℕ)
  | answered (at' : ℕ) (outcome : Outcome)
  /-- The client is gone. -/
  | gone
  deriving DecidableEq

structure Request where
  route : Route
  file : String
  since : ℕ
  phase : Phase
  dbRead : Option DbRead
  deriving DecidableEq

/-- What happens to the request itself. -/
inductive Move where
  | go
  /-- The timeout fires. -/
  | expire
  /-- `presigned_get` returns. -/
  | presigned (n : ℕ)
  | drop
  deriving DecidableEq

/-- What its thread does. -/
inductive Work where
  /-- It gets the lock. -/
  | lock
  /-- It runs its next statement. -/
  | statement (fails : Bool)
  deriving DecidableEq

inductive Choice where
  | handler (m : Move)
  | thread (k : Work)
  deriving DecidableEq

namespace Request

variable (c : Config)

/-- A new request. -/
def new (route : Route) (file : String) (since : ℕ) : Request :=
  ⟨route, file, since, .arrived, none⟩

def hash (r : Request) : Option String := r.route.hash r.file

/-- The request is answered. -/
def answer (r : Request) (w : World) (outcome : Outcome) : Request :=
  { r with phase := .answered w.clock outcome }

/-- The request wakes with what its read returned. -/
def resume (r : Request) (w : World) : Read → Request
  | .object obj _ => r.answer w (.hit (.narinfo (render obj)))
  | .present => { r with phase := .presigning (w.clock + c.presignBudget) }
  | .missing => r.answer w .miss
  | .failed => r.answer w (.degraded .dbError)

/-- One step of `narinfo` or `nar_redirect`. -/
def handle (r : Request) (w : World) : Move → Option Request
  | .go =>
    match r.phase with
    | .arrived =>
      if r.hash.isNone then some (r.answer w .junk)
      else if w.openedAt.isNone then some (r.answer w .unavailable)
      else some { r with phase := .spawned, dbRead := some ⟨w.clock, w.past.length, .queued⟩ }
    | .spawned => some { r with phase := .waiting (w.clock + c.dbReadBudget) }
    | .waiting _ =>
      match r.dbRead with
      | some ⟨_, _, .ended _ read⟩ => some (r.resume c w read)
      | _ => none
    | _ => none
  | .expire =>
    match r.phase with
    | .waiting due => if due ≤ w.clock then some (r.answer w (.degraded .dbTimeout)) else none
    | .presigning due =>
      if due ≤ w.clock then some (r.answer w (.degraded .presignTimeout)) else none
    | _ => none
  | .presigned n =>
    match r.phase, r.hash with
    | .presigning _, some hash =>
      match c.presignedGet (keyFor hash) n with
      | some url => some (r.answer w (.hit (.redirect url)))
      | none => some (r.answer w (.degraded .presignError))
    | _, _ => none
  | .drop =>
    match r.phase with
    | .answered _ _ => none
    | .gone => none
    | _ => some { r with phase := .gone }

end Request

/-- One step of the blocking thread of `db_read`. -/
def DbRead.work (c : Config) (route : Route) (hash : String) (q : DbRead) (w : World) :
    Work → Option (World × Thread)
  | .lock =>
    match q.thread with
    | .queued =>
      if w.locked then none
      else if q.start + c.dbReadBudget < w.clock then some (w, .ended none .failed)
      else some ({ w with locked := true }, .row w.clock)
    | _ => none
  | .statement fails =>
    let free := { w with locked := false }
    match q.thread with
    | .row begun =>
      if fails then some (free, .ended begun .failed)
      else
        match w.db.row? hash, route with
        | none, _ => some (free, .ended begun .missing)
        | some _, .nar => some (free, .ended begun .present)
        | some row, .narinfo => some (w, .refs begun row)
    | .refs begun row =>
      if fails then some (free, .ended begun .failed)
      else some (free, .ended begun
        (.object (row.toObject hash (w.db.references hash)) row.lastAccessedAt))
    | _ => none

/-- One step of a request or of its thread. -/
def Request.step (c : Config) (w : World) : Choice → Request → Option (World × Request)
  | .handler m, r => (r.handle c w m).map fun r' => (w, r')
  | .thread k, r =>
    match r.dbRead, r.hash with
    | some q, some hash =>
      (q.work c r.route hash w k).map fun x =>
        (x.1, { r with dbRead := some { q with thread := x.2 } })
    | _, _ => none

/-- What comes from outside. -/
inductive Outside where
  | pass (n : ℕ)
  /-- The database is opened. -/
  | opened
  | commit (db : Db)
  /-- The deep readiness probe takes the lock, or frees it. -/
  | probe

def Outside.apply (w : World) : Outside → Option World
  | .pass n => some { w with clock := w.clock + n }
  | .opened => if w.openedAt.isSome then none else some { w with openedAt := some w.clock }
  | .commit db => some { w with db := db, past := w.db :: w.past }
  | .probe =>
    if w.probe then some { w with locked := false, probe := false }
    else if w.locked then none
    else some { w with locked := true, probe := true }

/-- The Puller's two pull routes. A restarted Puller has no request, and opens the database anew. -/
def program (c : Config) : Program World Request Choice Outside where
  initial r := decide (r.phase = .arrived) && r.dbRead.isNone
  run _ w o r := r.step c w o
  outside w e := e.apply w
  restart w _ := .boot w.clock w.db w.past

abbrev State := Tasks World Request

abbrev Act := Tasks.Act Request Choice Outside

/-! ## The steps -/

variable {c : Config}

/-- What happens to a request, one constructor for each way. -/
inductive Handled (c : Config) (r : Request) (w : World) : Move → Request → Prop
  | junk (hp : r.phase = .arrived) (hh : r.hash = none) : Handled c r w .go (r.answer w .junk)
  | unavailable {hash : String} (hp : r.phase = .arrived) (hh : r.hash = some hash)
    (ho : w.openedAt = none) : Handled c r w .go (r.answer w .unavailable)
  | spawned {hash : String} (hp : r.phase = .arrived) (hh : r.hash = some hash) :
    Handled c r w .go
      { r with phase := .spawned, dbRead := some ⟨w.clock, w.past.length, .queued⟩ }
  | armed (hp : r.phase = .spawned) :
    Handled c r w .go { r with phase := .waiting (w.clock + c.dbReadBudget) }
  | woken {due : ℕ} {q : DbRead} {begun : Option ℕ} {read : Read} (hp : r.phase = .waiting due)
    (hq : r.dbRead = some q) (hover : q.thread = .ended begun read) :
    Handled c r w .go (r.resume c w read)
  | expired {due : ℕ} (hp : r.phase = .waiting due) (hdue : due ≤ w.clock) :
    Handled c r w .expire (r.answer w (.degraded .dbTimeout))
  | presignExpired {due : ℕ} (hp : r.phase = .presigning due) (hdue : due ≤ w.clock) :
    Handled c r w .expire (r.answer w (.degraded .presignTimeout))
  | redirected {due n : ℕ} {hash url : String} (hp : r.phase = .presigning due)
    (hh : r.hash = some hash) (hu : c.presignedGet (keyFor hash) n = some url) :
    Handled c r w (.presigned n) (r.answer w (.hit (.redirect url)))
  | unsigned {due n : ℕ} (hp : r.phase = .presigning due) :
    Handled c r w (.presigned n) (r.answer w (.degraded .presignError))
  | dropped (hp : ∀ at' o, r.phase ≠ .answered at' o) :
    Handled c r w .drop { r with phase := .gone }

theorem handle_cases {r r' : Request} {w : World} {m : Move} (h : r.handle c w m = some r') :
    Handled c r w m r' := by
  cases m with
  | go =>
    simp only [Request.handle] at h
    split at h
    · rename_i hp
      split at h
      · rename_i hh
        obtain rfl := Option.some.inj h
        exact .junk hp (Option.isNone_iff_eq_none.mp hh)
      · rename_i hh
        obtain ⟨hash, hh⟩ := Option.ne_none_iff_exists'.mp fun he : r.hash = none =>
          hh (by rw [he]; rfl)
        split at h
        · rename_i ho
          obtain rfl := Option.some.inj h
          exact .unavailable hp hh (Option.isNone_iff_eq_none.mp ho)
        · obtain rfl := Option.some.inj h
          exact .spawned hp hh
    · rename_i hp
      obtain rfl := Option.some.inj h
      exact .armed hp
    · rename_i hp
      split at h
      · rename_i hq
        obtain rfl := Option.some.inj h
        exact .woken hp hq rfl
      · exact absurd h (by simp)
    · exact absurd h (by simp)
  | expire =>
    simp only [Request.handle] at h
    split at h
    · rename_i hp
      split at h
      · rename_i hdue
        obtain rfl := Option.some.inj h
        exact .expired hp hdue
      · exact absurd h (by simp)
    · rename_i hp
      split at h
      · rename_i hdue
        obtain rfl := Option.some.inj h
        exact .presignExpired hp hdue
      · exact absurd h (by simp)
    · exact absurd h (by simp)
  | presigned n =>
    simp only [Request.handle] at h
    split at h
    · rename_i hp hh
      split at h
      · rename_i hu
        obtain rfl := Option.some.inj h
        exact .redirected hp hh hu
      · obtain rfl := Option.some.inj h
        exact .unsigned hp
    · exact absurd h (by simp)
  | drop =>
    simp only [Request.handle] at h
    split at h
    · exact absurd h (by simp)
    · exact absurd h (by simp)
    · rename_i hp _
      obtain rfl := Option.some.inj h
      exact .dropped hp

/-- What a read with the thread at `t` can return. -/
inductive Returns (w : World) (route : Route) (hash : String) : Thread → Read → Prop
  | failed {t : Thread} : Returns w route hash t .failed
  | missing {begun : ℕ} (h : w.db.row? hash = none) : Returns w route hash (.row begun) .missing
  | present {begun : ℕ} {row : Row} (h : w.db.row? hash = some row) (hr : route = .nar) :
    Returns w route hash (.row begun) .present
  | object {begun : ℕ} {row : Row} : Returns w route hash (.refs begun row)
      (.object (row.toObject hash (w.db.references hash)) row.lastAccessedAt)

/-- What a thread does. -/
inductive Worked (c : Config) (route : Route) (hash : String) (q : DbRead) (w : World) :
    Work → World → Thread → Prop
  | abandoned (hq : q.thread = .queued) (hlate : q.start + c.dbReadBudget < w.clock) :
    Worked c route hash q w .lock w (.ended none .failed)
  | begun (hq : q.thread = .queued) (hfree : w.locked = false)
    (hdue : w.clock ≤ q.start + c.dbReadBudget) :
    Worked c route hash q w .lock { w with locked := true } (.row w.clock)
  | row {begun : ℕ} {row : Row} (hq : q.thread = .row begun) (hr : route = .narinfo)
    (hrow : w.db.row? hash = some row) :
    Worked c route hash q w (.statement false) w (.refs begun row)
  | ended {fails : Bool} {read : Read} (hq : q.thread.working = true)
    (hret : Returns w route hash q.thread read) :
    Worked c route hash q w (.statement fails) { w with locked := false }
      (.ended q.thread.begun? read)

theorem work_cases {route : Route} {hash : String} {q : DbRead} {w w' : World} {k : Work}
    {t : Thread} (h : q.work c route hash w k = some (w', t)) : Worked c route hash q w k w' t := by
  obtain ⟨start, base, thread⟩ := q
  cases k with
  | lock =>
    simp only [DbRead.work] at h
    split at h
    · split at h
      · exact absurd h (by simp)
      · rename_i hfree
        split at h
        · rename_i hlate
          obtain ⟨rfl, rfl⟩ := Prod.mk.inj (Option.some.inj h)
          exact .abandoned rfl hlate
        · rename_i hdue
          obtain ⟨rfl, rfl⟩ := Prod.mk.inj (Option.some.inj h)
          exact .begun rfl (Bool.eq_false_of_not_eq_true hfree) (Nat.le_of_not_lt hdue)
    · exact absurd h (by simp)
  | statement fails =>
    simp only [DbRead.work] at h
    split at h
    -- the row, and for a narinfo the lock is kept
    · split at h
      · obtain ⟨rfl, rfl⟩ := Prod.mk.inj (Option.some.inj h)
        exact .ended rfl .failed
      · rename_i hok
        split at h
        · rename_i hrow
          obtain ⟨rfl, rfl⟩ := Prod.mk.inj (Option.some.inj h)
          exact .ended rfl (.missing hrow)
        · rename_i hrow
          obtain ⟨rfl, rfl⟩ := Prod.mk.inj (Option.some.inj h)
          exact .ended rfl (.present hrow rfl)
        · rename_i hrow
          obtain ⟨rfl, rfl⟩ := Prod.mk.inj (Option.some.inj h)
          obtain rfl := Bool.eq_false_of_not_eq_true hok
          exact .row rfl rfl hrow
    -- the references
    · split at h
      · obtain ⟨rfl, rfl⟩ := Prod.mk.inj (Option.some.inj h)
        exact .ended rfl .failed
      · obtain ⟨rfl, rfl⟩ := Prod.mk.inj (Option.some.inj h)
        exact .ended rfl .object
    · exact absurd h (by simp)

/-- A request's step is the request's own or its thread's. -/
theorem step_cases {w w' : World} {o : Choice} {r r' : Request}
    (h : r.step c w o = some (w', r')) :
    (∃ m, o = .handler m ∧ w' = w ∧ Handled c r w m r') ∨
    ∃ k q hash t, o = .thread k ∧ r.dbRead = some q ∧ r.hash = some hash ∧
      r' = { r with dbRead := some { q with thread := t } } ∧
      Worked c r.route hash q w k w' t := by
  cases o with
  | handler m =>
    obtain ⟨r₁, hr, he⟩ := Option.map_eq_some_iff.mp h
    obtain ⟨rfl, rfl⟩ := Prod.mk.inj he
    exact Or.inl ⟨m, rfl, rfl, handle_cases hr⟩
  | thread k =>
    simp only [Request.step] at h
    split at h
    · rename_i q hash hq hh
      obtain ⟨⟨w₁, t⟩, hk, he⟩ := Option.map_eq_some_iff.mp h
      obtain ⟨rfl, rfl⟩ := Prod.mk.inj he
      exact Or.inr ⟨k, q, hash, t, rfl, hq, hh, rfl, work_cases hk⟩
    · exact absurd h (by simp)

/-- `w'` comes later than `w`. -/
structure World.After (w w' : World) : Prop where
  clock : w.clock ≤ w'.clock
  past : w.past.length ≤ w'.past.length
  seen : ∀ base, ∀ d ∈ w.seen base, d ∈ w'.seen base
  opened : ∀ t, w'.openedAt = some t → w.openedAt = some t ∨ w.clock ≤ t

theorem World.After.of_lock (w : World) (locked probe : Bool) :
    w.After { w with locked := locked, probe := probe } :=
  ⟨Nat.le_refl _, Nat.le_refl _, fun _ _ => id, fun _ => Or.inl⟩

theorem work_after {route : Route} {hash : String} {q : DbRead} {w w' : World} {k : Work}
    {t : Thread} (h : Worked c route hash q w k w' t) : w.After w' := by
  cases h with
  | abandoned => exact .of_lock w _ _
  | begun => exact .of_lock w _ _
  | row => exact .of_lock w _ _
  | ended => exact .of_lock w _ _

theorem step_after {w w' : World} {o : Choice} {r r' : Request}
    (h : r.step c w o = some (w', r')) : w.After w' := by
  rcases step_cases h with ⟨m, -, rfl, -⟩ | ⟨k, q, hash, t, -, -, -, -, hk⟩
  · exact .of_lock w' _ _
  · exact work_after hk

theorem mem_seen_self {w : World} {base : ℕ} (h : base ≤ w.past.length) : w.db ∈ w.seen base := by
  unfold World.seen
  rw [Nat.succ_sub h]
  exact List.mem_cons_self

/-- What comes from outside, one constructor for each way. -/
inductive Outside.Applied (w : World) : Outside → World → Prop
  | passed {n : ℕ} : Applied w (.pass n) { w with clock := w.clock + n }
  | opened : Applied w .opened { w with openedAt := some w.clock }
  | committed {db : Db} : Applied w (.commit db) { w with db := db, past := w.db :: w.past }
  | freed (hprobe : w.probe = true) : Applied w .probe { w with locked := false, probe := false }
  | taken (hfree : w.locked = false) : Applied w .probe { w with locked := true, probe := true }

theorem outside_cases {w w' : World} {e : Outside} (h : e.apply w = some w') : e.Applied w w' := by
  cases e with
  | pass n =>
    obtain rfl := Option.some.inj h
    exact .passed
  | opened =>
    simp only [Outside.apply] at h
    split at h
    · exact absurd h (by simp)
    · obtain rfl := Option.some.inj h
      exact .opened
  | commit db =>
    obtain rfl := Option.some.inj h
    exact .committed
  | probe =>
    simp only [Outside.apply] at h
    split at h
    · rename_i hprobe
      obtain rfl := Option.some.inj h
      exact .freed hprobe
    · split at h
      · exact absurd h (by simp)
      · rename_i hfree
        obtain rfl := Option.some.inj h
        exact .taken (Bool.eq_false_of_not_eq_true hfree)

theorem outside_after {w w' : World} {e : Outside} (h : e.apply w = some w') : w.After w' := by
  cases outside_cases h with
  | passed => exact ⟨Nat.le_add_right _ _, Nat.le_refl _, fun _ _ => id, fun _ => Or.inl⟩
  | opened =>
    refine ⟨Nat.le_refl _, Nat.le_refl _, fun _ _ => id, fun t ht => Or.inr ?_⟩
    exact Nat.le_of_eq (Option.some.inj ht)
  | committed =>
    refine ⟨Nat.le_refl _, Nat.le_succ _, fun base d hd => ?_, fun _ => Or.inl⟩
    unfold World.seen at hd ⊢
    rw [List.length_cons]
    rcases Nat.lt_or_ge (w.past.length + 1) base with hlt | hge
    · rw [Nat.sub_eq_zero_of_le hlt.le] at hd
      exact absurd hd (by simp)
    · rw [Nat.succ_sub hge, List.take_succ_cons]
      exact List.mem_cons_of_mem _ hd
  | freed => exact .of_lock w _ _
  | taken => exact .of_lock w _ _

end Garret.PullRoute
