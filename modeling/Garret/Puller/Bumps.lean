import Garret.Db.Read
import Garret.Lib.Table
import Garret.Pusher.Effect

/-!
# Last-accessed bumps

Model of `Bumps`, `flush_bumps` and of the end of `narinfo` (`crates/garret-puller/src/main.rs`):
any number of narinfo requests, the one flush task and the Pusher's commits, in any order.

* A hit takes three steps: its row is read, `unix_now()` is evaluated, and `Bumps::hit` compares and
  queues. The pending set is behind a lock, so that last part is one step.
* A flush takes three steps as well: `unix_now()` is an argument of `Bumps::flush` and evaluated
  before the call, the call swaps the pending set out, and `bump_last_accessed` commits. The task
  waits for one flush before it starts the next.
* A failed flush drops its batch.

`gone`, `log` and `ever` are history: when a row of a hash was deleted last, the hits since the last
insertion of their row, and the hashes hit so far.
-/

namespace Garret.Bumps

open Garret.Lib

/-- A narinfo request between its row read and the end of `Bumps::hit`. -/
structure Hit where
  hash : String
  /-- The row's `last_accessed_at`, as read. -/
  lastAccessedAt : Int
  /-- `unix_now()`, once evaluated. -/
  now : Option Int
  deriving DecidableEq

/-- Where the flush task is. -/
inductive Flush where
  | idle
  /-- `unix_now()` is evaluated, the pending set is not swapped out yet. -/
  | timed (now : Int)
  | taken (now : Int) (batch : List String)
  deriving DecidableEq

/-- The clock reading of the flush under way. -/
def Flush.now? : Flush → Option Int
  | idle => none
  | timed now => some now
  | taken now _ => some now

/-- The hashes of the batch under way. -/
def Flush.batch : Flush → List String
  | taken _ batch => batch
  | _ => []

/-- The database, the clock, the Puller's `Bumps`, its requests and its flush task. -/
structure State where
  db : Db
  clock : Int
  pending : List String
  hits : Table ℕ Hit
  flush : Flush
  gone : String → Int
  log : List (String × Int)
  ever : List String

/-- The Puller as it starts; rows may have gone before. -/
def start (db : Db) (clock : Int) (gone : String → Int) : State where
  db := db
  clock := clock
  pending := []
  hits := ∅
  flush := .idle
  gone := gone
  log := []
  ever := []

inductive Act where
  | tick (clock : Int)
  /-- The Pusher commits. -/
  | commit (c : Pull.Commit)
  /-- Request `i` reads its row. -/
  | read (i : ℕ) (hash : String)
  /-- Request `i` evaluates `unix_now()`. -/
  | time (i : ℕ)
  /-- Request `i` runs `Bumps::hit`. -/
  | queue (i : ℕ)
  /-- The flush task evaluates `unix_now()`. -/
  | flush
  /-- `Bumps::flush` swaps the pending set out. -/
  | take
  /-- `bump_last_accessed`. -/
  | write (io : Faults)

/-- The hash whose row a commit inserts. -/
def inserts (db : Db) : Pull.Commit → Option String
  | .insert io obj now =>
    match (insertObject io obj now db).1 with
    | .ok () => some obj.storePathHash
    | .error _ => none
  | _ => none

/-- `Bumps::hit`: a fresh row queues nothing, a hash is queued once. -/
def hit (debounce : Int) (pending : List String) (hash : String) (lastAccessedAt now : Int) :
    List String :=
  if now - debounce ≤ lastAccessedAt then pending
  else if pending.contains hash then pending
  else hash :: pending

/-- One step. -/
def step (debounce : Int) (s : State) : Act → Option State
  | .tick clock => some { s with clock := clock }
  | .commit c =>
    let db := c.apply s.db
    some { s with
      db := db
      gone := fun k => if (s.db.row? k).isSome && (db.row? k).isNone then s.clock else s.gone k
      log := s.log.filter fun e => decide (inserts s.db c ≠ some e.1) }
  | .read i hash =>
    match s.hits.lookup i, s.db.row? hash with
    | none, some row => some { s with hits := s.hits.insert i ⟨hash, row.lastAccessedAt, none⟩ }
    | _, _ => none
  | .time i =>
    match s.hits.lookup i with
    | some h => if h.now = none then
        some { s with hits := s.hits.insert i { h with now := some s.clock } } else none
    | none => none
  | .queue i =>
    match s.hits.lookup i with
    | some ⟨hash, lastAccessedAt, some now⟩ =>
      some { s with
        pending := hit debounce s.pending hash lastAccessedAt now
        hits := s.hits.erase i
        log := (hash, now) :: s.log
        ever := hash :: s.ever }
    | _ => none
  | .flush => if s.flush = .idle then some { s with flush := .timed s.clock } else none
  | .take =>
    match s.flush with
    | .timed now =>
      some { s with pending := [], flush := if s.pending = [] then .idle else .taken now s.pending }
    | _ => none
  | .write io =>
    match s.flush with
    | .taken now batch =>
      some { s with db := (bumpLastAccessed io batch now debounce s.db).2, flush := .idle }
    | _ => none

/-- What each action does. -/
inductive Moves (debounce : Int) (s : State) : Act → State → Prop
  | ticked (clock : Int) : Moves debounce s (.tick clock) { s with clock := clock }
  | committed (c : Pull.Commit) : Moves debounce s (.commit c) { s with
      db := c.apply s.db
      gone := fun k => if (s.db.row? k).isSome && ((c.apply s.db).row? k).isNone then s.clock
        else s.gone k
      log := s.log.filter fun e => decide (inserts s.db c ≠ some e.1) }
  | read {i : ℕ} {hash : String} {row : Row} (hi : s.hits.lookup i = none)
      (hrow : s.db.row? hash = some row) :
      Moves debounce s (.read i hash)
        { s with hits := s.hits.insert i ⟨hash, row.lastAccessedAt, none⟩ }
  | timed {i : ℕ} {h : Hit} (hi : s.hits.lookup i = some h) (hnow : h.now = none) :
      Moves debounce s (.time i) { s with hits := s.hits.insert i { h with now := some s.clock } }
  | queued {i : ℕ} {hash : String} {lastAccessedAt now : Int}
      (hi : s.hits.lookup i = some ⟨hash, lastAccessedAt, some now⟩) :
      Moves debounce s (.queue i) { s with
        pending := hit debounce s.pending hash lastAccessedAt now
        hits := s.hits.erase i
        log := (hash, now) :: s.log
        ever := hash :: s.ever }
  | clocked (hf : s.flush = .idle) : Moves debounce s .flush { s with flush := .timed s.clock }
  | skipped {now : Int} (hf : s.flush = .timed now) (hp : s.pending = []) :
      Moves debounce s .take { s with pending := [], flush := .idle }
  | took {now : Int} (hf : s.flush = .timed now) (hp : s.pending ≠ []) :
      Moves debounce s .take { s with pending := [], flush := .taken now s.pending }
  | wrote {io : Faults} {now : Int} {batch : List String} (hf : s.flush = .taken now batch) :
      Moves debounce s (.write io)
        { s with db := (bumpLastAccessed io batch now debounce s.db).2, flush := .idle }

theorem step_cases {debounce : Int} {s s' : State} {a : Act} (h : step debounce s a = some s') :
    Moves debounce s a s' := by
  cases a with
  | tick clock =>
    obtain rfl := Option.some.inj h
    exact .ticked clock
  | commit c =>
    obtain rfl := Option.some.inj h
    exact .committed c
  | read i hash =>
    simp only [step] at h
    split at h
    · rename_i row hi hrow
      obtain rfl := Option.some.inj h
      exact .read hi hrow
    · exact absurd h (by simp)
  | time i =>
    simp only [step] at h
    split at h
    · rename_i x hi
      split at h
      · rename_i hnow
        obtain rfl := Option.some.inj h
        exact .timed hi hnow
      · exact absurd h (by simp)
    · exact absurd h (by simp)
  | queue i =>
    simp only [step] at h
    split at h
    · rename_i hash lastAccessedAt now hi
      obtain rfl := Option.some.inj h
      exact .queued hi
    · exact absurd h (by simp)
  | flush =>
    simp only [step] at h
    split at h
    · rename_i hf
      obtain rfl := Option.some.inj h
      exact .clocked hf
    · exact absurd h (by simp)
  | take =>
    simp only [step] at h
    split at h
    · rename_i now hf
      obtain rfl := Option.some.inj h
      by_cases hp : s.pending = []
      · rw [if_pos hp]
        exact .skipped hf hp
      · rw [if_neg hp]
        exact .took hf hp
    · exact absurd h (by simp)
  | write io =>
    simp only [step] at h
    split at h
    · rename_i now batch hf
      obtain rfl := Option.some.inj h
      exact .wrote hf
    · exact absurd h (by simp)

/-- What a hit leaves pending: what was, and its hash unless its row was fresh. -/
theorem mem_hit {debounce : Int} {pending : List String} {hash k : String}
    {lastAccessedAt now : Int} : k ∈ hit debounce pending hash lastAccessedAt now ↔
      k ∈ pending ∨ k = hash ∧ lastAccessedAt < now - debounce := by
  unfold hit
  split
  · rename_i hfresh
    simp only [not_lt.mpr hfresh, and_false, or_false]
  · rename_i hstale
    rw [not_le] at hstale
    split
    · rename_i hin
      rw [List.contains_iff_mem] at hin
      constructor
      · exact Or.inl
      · rintro (hk | ⟨rfl, -⟩)
        · exact hk
        · exact hin
    · rw [List.mem_cons, or_comm]
      simp only [hstale, and_true]

/-! ## What runs assume -/

/-- An object is stamped with a time at which its hash had no row, or with the time of its
commit. -/
def Stamped (s : State) : Pull.Commit → Prop
  | .insert _ obj now =>
    now ≤ s.clock ∧ s.gone obj.storePathHash ≤ now ∧
      ((s.db.row? obj.storePathHash).isSome = true → now = s.clock)
  | _ => True

/-- The clock does not run back, inserts are stamped, and flushes succeed. -/
def Orderly (s : State) : Act → Prop
  | .tick clock => s.clock ≤ clock
  | .commit c => Stamped s c
  | .write io => io 0 = false ∧ io 1 = false
  | _ => True

/-- A flush that read the clock at `now` comes too early for a hit at `t` on a row accessed at
`lastAccessedAt`: the row is stale for the hit, and it is fresh for the reading and stays as it is,
or the reading itself is too old for the hit. -/
def TooEarly (debounce now lastAccessedAt t : Int) : Prop :=
  lastAccessedAt < t - debounce ∧ (now - debounce ≤ lastAccessedAt ∨ now < t - debounce)

/-- The pending set is swapped out only by a flush that is not too early for a hit queued in it. -/
def InTime (debounce : Int) (s : State) : Act → Prop
  | .take => ∀ now ∈ s.flush.now?, ∀ e ∈ s.log, e.1 ∈ s.pending →
      ∀ row ∈ s.db.row? e.1, ¬TooEarly debounce now row.lastAccessedAt e.2
  | _ => True

instance (s : State) (c : Pull.Commit) : Decidable (Stamped s c) :=
  match c with
  | .insert _ _ _ => inferInstanceAs (Decidable (_ ∧ _ ∧ (_ → _)))
  | .evict _ _ _ => isTrue trivial
  | .delete _ _ => isTrue trivial
  | .pruneBatch _ _ => isTrue trivial
  | .updateSigs _ => isTrue trivial

instance (s : State) (a : Act) : Decidable (Orderly s a) :=
  match a with
  | .tick _ => inferInstanceAs (Decidable (_ ≤ _))
  | .commit c => inferInstanceAs (Decidable (Stamped s c))
  | .write _ => inferInstanceAs (Decidable (_ ∧ _))
  | .read _ _ => isTrue trivial
  | .time _ => isTrue trivial
  | .queue _ => isTrue trivial
  | .flush => isTrue trivial
  | .take => isTrue trivial

instance (debounce : Int) (s : State) (a : Act) : Decidable (InTime debounce s a) :=
  match a with
  | .take => inferInstanceAs (Decidable (∀ now ∈ s.flush.now?, ∀ e ∈ s.log, e.1 ∈ s.pending →
      ∀ row ∈ s.db.row? e.1, ¬(_ ∧ _)))
  | .tick _ => isTrue trivial
  | .commit _ => isTrue trivial
  | .read _ _ => isTrue trivial
  | .time _ => isTrue trivial
  | .queue _ => isTrue trivial
  | .flush => isTrue trivial
  | .write _ => isTrue trivial

end Garret.Bumps
