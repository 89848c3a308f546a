import Garret.Lib.Run
import Garret.Lib.Semaphore
import Garret.Upload.Budget

/-!
# Uploads sharing the part slots

Any number of `put_streaming` calls (`crates/garret-server/src/storage.rs`) over one semaphore, as
a step relation: `put_streaming` and `multipart_body` stop at every await, the part tasks of
`upload_part` run on their own, and any call is dropped at any await. Only lengths are kept of the
bytes. A step is what one thread does before another may look: a buffer and its reservation are
dropped one after the other.

* `Upload.step`: one call and its part tasks, with what they ask of the semaphore.
* `Upload.Ok`: what holds of a call at every point; `Upload.step_ok` keeps it.
* `Upload.step_permits`: a step moves permits between the semaphore and the call, and loses none.
* `Upload.step_tickets`: a call stands in line exactly while it waits.
-/

namespace Garret.Slots

open Garret.Lib

/-- A part buffer: what was reserved for it, and what it holds. -/
structure Buffer where
  cap : ℕ
  len : ℕ
  deriving DecidableEq, Repr

/-- Which part is read: the first one, or one of `multipart_body`. -/
inductive Turn where
  | first
  | next
  deriving DecidableEq, Repr

/-- How a call goes on once it has let a reservation go. -/
inductive After where
  | returned
  | shutdown
  | dropped
  deriving DecidableEq, Repr

/-- Where a call stands. -/
inductive Phase where
  /-- Before `limits.acquire`. -/
  | acquire (turn : Turn) (reserve : ℕ)
  /-- In the semaphore's line. -/
  | waiting (turn : Turn) (reserve : ℕ)
  /-- The permit is there, the buffer is not. -/
  | reserved (turn : Turn) (reserve permit : ℕ)
  /-- In `fill`. -/
  | filling (turn : Turn) (part : Buffer) (permit : ℕ)
  /-- In `has_more`. -/
  | probing (first : Buffer) (permit : ℕ)
  /-- In `put`. -/
  | putting (first : Buffer) (permit : ℕ)
  /-- In `create_multipart_upload`. -/
  | creating (first : Buffer) (permit : ℕ)
  /-- The buffer is gone, the permit goes next. -/
  | dropping (permit : ℕ) (after : After)
  /-- `part.is_empty()`: `drop(permit)` comes next. -/
  | emptied (part : Buffer) (permit : ℕ)
  /-- The permit is gone, `part` goes next. -/
  | letGo (part : Buffer)
  /-- At the head of the loop of `multipart_body`. -/
  | room
  /-- After that loop. -/
  | draining
  | completing
  /-- In `parts.shutdown()`. -/
  | shutdown
  | aborting
  /-- The call has returned. -/
  | returned
  /-- The call was dropped; the `JoinSet` has aborted its tasks. -/
  | dropped
  deriving DecidableEq, Repr

/-- Where a part task stands. -/
inductive Task where
  | uploading (body : Buffer) (permit : ℕ)
  /-- The request is over and the buffer is gone. -/
  | sent (permit : ℕ) (ok : Bool)
  | done (ok : Bool)
  deriving DecidableEq, Repr

/-- A `put_streaming` call: the carry of its reader, the bytes it appended to parts, its
`JoinSet`. -/
structure Upload where
  phase : Phase
  carry : Option ℕ
  received : ℕ
  tasks : List Task
  deriving DecidableEq, Repr

/-- What the body yields: a chunk of a length, its end, or an error (a stall is one). -/
inductive Item where
  | chunk (len : ℕ)
  | eof
  | fail
  deriving DecidableEq, Repr

/-- What a call or one of its tasks may do next. -/
inductive Event where
  /-- `acquire_many_owned` is polled for the first time. -/
  | acquire
  /-- A waiter is polled. -/
  | poll
  /-- `BytesMut::with_capacity`. -/
  | alloc
  /-- The reader takes its carry. -/
  | carry
  /-- The body yields. -/
  | read (item : Item)
  /-- The awaited S3 call is over. -/
  | s3 (ok : Bool)
  /-- What needs no await. -/
  | proceed
  /-- `join_next` yields the `j`-th task. -/
  | join (j : ℕ)
  /-- The request of the `j`-th task is over. -/
  | sent (j : ℕ) (ok : Bool)
  /-- The `j`-th task lets its permit go and ends. -/
  | finish (j : ℕ)
  /-- The `j`-th task, aborted, is dropped before its request is over. -/
  | abort (j : ℕ)
  /-- The call is dropped. -/
  | cancel
  deriving DecidableEq, Repr

/-! ## One call -/

/-- `put_streaming` called with a hint, and not yet polled. -/
def Upload.start (l : Budget) (firstPartHint : ℕ) : Upload where
  phase := .acquire .first (min (max firstPartHint 1) l.partSize)
  carry := none
  received := 0
  tasks := []

/-- Where an error in `fill` leads. -/
def Turn.onError : Turn → After
  | .first => .returned
  | .next => .shutdown

def After.phase : After → Phase
  | .returned => .returned
  | .shutdown => .shutdown
  | .dropped => .dropped

namespace Upload

variable (l : Budget)

/-- The first part decides the shape. -/
def shape (u : Upload) (first : Buffer) (permit : ℕ) : Upload :=
  { u with
    phase := if first.len < l.partSize then .putting first permit else .creating first permit }

/-- `fill` has returned. -/
def filled (u : Upload) (turn : Turn) (part : Buffer) (permit : ℕ) : Upload :=
  match turn with
  | .first =>
    if part.len = part.cap ∧ part.cap < l.partSize then { u with phase := .probing part permit }
    else u.shape l part permit
  | .next =>
    if part.len = 0 then { u with phase := .emptied part permit }
    else
      { u with
        phase := if part.len < l.partSize then .draining else .room
        tasks := u.tasks ++ [.uploading part permit] }

/-- `append` and what `fill` does after it. -/
def append (u : Upload) (turn : Turn) (part : Buffer) (permit n : ℕ) : Upload :=
  let part' : Buffer := { part with len := part.len + n }
  let u' := { u with received := u.received + n }
  if part'.len < part.cap then { u' with phase := .filling turn part' permit }
  else u'.filled l turn part' permit

/-- A turn of the loop of `fill`, or of `has_more`. -/
def item (u : Upload) (item : Item) : Option Upload :=
  match u.phase, item with
  | .filling turn part permit, .chunk n =>
    let room := part.cap - part.len
    if room < n then some ({ u with carry := some (n - room) }.append l turn part permit room)
    else some (u.append l turn part permit n)
  | .filling turn part permit, .eof => some (u.filled l turn part permit)
  | .filling turn _ permit, .fail => some { u with phase := .dropping permit turn.onError }
  | .probing _ permit, .chunk n =>
    if n = 0 then some u
    else some { u with carry := some n, phase := .dropping permit .returned }
  | .probing first permit, .eof => some (u.shape l first permit)
  | .probing _ permit, .fail => some { u with phase := .dropping permit .returned }
  | _, _ => none

/-- The awaited S3 call is over. -/
def s3 (u : Upload) (ok : Bool) : Option Upload :=
  match u.phase with
  | .putting _ permit => some { u with phase := .dropping permit .returned }
  | .creating first permit =>
    if ok then some { u with phase := .room, tasks := [.uploading first permit] }
    else some { u with phase := .dropping permit .returned }
  | .completing => some { u with phase := if ok then .returned else .shutdown }
  | .aborting => some { u with phase := .returned }
  | _ => none

/-- What needs no await, and the permits it returns. -/
def proceed (u : Upload) : Option (Upload × ℕ) :=
  match u.phase with
  | .dropping permit after => some ({ u with phase := after.phase }, permit)
  | .emptied part permit => some ({ u with phase := .letGo part }, permit)
  | .letGo _ => some ({ u with phase := .draining }, 0)
  | .room =>
    if u.tasks.length < l.maxPartsInFlight then
      some ({ u with phase := .acquire .next l.partSize }, 0)
    else none
  | .draining => if u.tasks = [] then some ({ u with phase := .completing }, 0) else none
  | .shutdown => if u.tasks = [] then some ({ u with phase := .aborting }, 0) else none
  | _ => none

/-- `collect`, the joins of `shutdown`, or the runtime letting an aborted task go. -/
def join (u : Upload) (j : ℕ) : Option Upload :=
  match u.tasks[j]? with
  | some (.done ok) =>
    let u' := { u with tasks := u.tasks.eraseIdx j }
    match u.phase with
    | .room =>
      if u.tasks.length < l.maxPartsInFlight then none
      else some { u' with phase := if ok then .room else .shutdown }
    | .draining => some { u' with phase := if ok then .draining else .shutdown }
    | .shutdown | .dropped => some u'
    | _ => none
  | _ => none

/-- The call is dropped: its buffer, then its permit, then its tasks. -/
def cancel (u : Upload) : Option Upload :=
  match u.phase with
  | .filling _ _ permit | .probing _ permit | .putting _ permit | .creating _ permit =>
    some { u with phase := .dropping permit .dropped }
  | .acquire _ _ | .waiting _ _ | .room | .draining | .completing | .shutdown | .aborting =>
    some { u with phase := .dropped }
  | _ => none

/-- One step of the call `i` or one of its tasks. -/
def step (i : ℕ) (sem : Semaphore ℕ) (u : Upload) : Event → Option (Upload × Semaphore ℕ)
  | .acquire =>
    match u.phase with
    | .acquire turn reserve =>
      match sem.acquire i (l.units reserve) with
      | (sem', true) => some ({ u with phase := .reserved turn reserve (l.units reserve) }, sem')
      | (sem', false) => some ({ u with phase := .waiting turn reserve }, sem')
    | _ => none
  | .poll =>
    match u.phase with
    | .waiting turn reserve =>
      (sem.poll i).map fun r => ({ u with phase := .reserved turn reserve r.1 }, r.2)
    | _ => none
  | .alloc =>
    match u.phase with
    | .reserved turn reserve permit =>
      some ({ u with phase := .filling turn ⟨reserve, 0⟩ permit }, sem)
    | _ => none
  | .carry =>
    match u.carry with
    | some n => ({ u with carry := none }.item l (.chunk n)).map fun u' => (u', sem)
    | none => none
  | .read item => if u.carry = none then (u.item l item).map fun u' => (u', sem) else none
  | .s3 ok => (u.s3 ok).map fun u' => (u', sem)
  | .proceed => (u.proceed l).map fun r => (r.1, sem.release r.2)
  | .join j => (u.join l j).map fun u' => (u', sem)
  | .sent j ok =>
    match u.tasks[j]? with
    | some (.uploading _ permit) => some ({ u with tasks := u.tasks.set j (.sent permit ok) }, sem)
    | _ => none
  | .finish j =>
    match u.tasks[j]? with
    | some (.sent permit ok) =>
      some ({ u with tasks := u.tasks.set j (.done ok) }, sem.release permit)
    | _ => none
  | .abort j =>
    match u.phase, u.tasks[j]? with
    | .shutdown, some (.uploading _ permit) | .dropped, some (.uploading _ permit) =>
      some ({ u with tasks := u.tasks.set j (.sent permit false) }, sem)
    | _, _ => none
  | .cancel =>
    u.cancel.map fun u' => (u', if let .waiting _ _ := u.phase then sem.cancel i else sem)

end Upload

/-! ## All calls -/

/-- The calls ever made, and the shared semaphore. -/
structure State where
  uploads : List Upload
  sem : Semaphore ℕ

/-- A call is made, or one goes on. -/
inductive Act where
  | start (firstPartHint : ℕ)
  | upload (i : ℕ) (event : Event)
  deriving DecidableEq, Repr

/-- No call was made yet. -/
def init (l : Budget) : State := ⟨[], .new l.totalUnits⟩

/-- One step. -/
def step (l : Budget) (s : State) : Act → Option State
  | .start firstPartHint => some { s with uploads := s.uploads ++ [.start l firstPartHint] }
  | .upload i event =>
    match s.uploads[i]? with
    | some u =>
      (u.step l i s.sem event).map fun r => { uploads := s.uploads.set i r.1, sem := r.2 }
    | none => none

/-! ## Permits, buffers and tickets -/

/-- The permits of the call's own reservation. -/
def Phase.permits : Phase → ℕ
  | .reserved _ _ permit | .filling _ _ permit | .probing _ permit | .putting _ permit
  | .creating _ permit | .dropping permit _ | .emptied _ permit => permit
  | _ => 0

def Task.permits : Task → ℕ
  | .uploading _ permit | .sent permit _ => permit
  | .done _ => 0

/-- The part buffer that is alive, with the reservation it is charged to. -/
def Phase.live : Phase → List (Buffer × Option ℕ)
  | .filling _ part permit | .probing part permit | .putting part permit | .creating part permit
  | .emptied part permit => [(part, some permit)]
  | .letGo part => [(part, none)]
  | _ => []

def Task.live : Task → List (Buffer × Option ℕ)
  | .uploading body permit => [(body, some permit)]
  | _ => []

/-- All reservations of a call. -/
def Upload.permits (u : Upload) : ℕ := u.phase.permits + (u.tasks.map Task.permits).sum

/-- All its part buffers. -/
def Upload.live (u : Upload) : List (Buffer × Option ℕ) := u.phase.live ++ u.tasks.flatMap Task.live

/-- What is waited for. -/
def Phase.tickets (l : Budget) : Phase → List ℕ
  | .waiting _ reserve => [l.units reserve]
  | _ => []

def Upload.tickets (l : Budget) (u : Upload) : List ℕ := u.phase.tickets l

/-- The call is over and none of its tasks is left. -/
def Upload.Over (u : Upload) : Prop := (u.phase = .returned ∨ u.phase = .dropped) ∧ u.tasks = []

/-- A buffer within its reserved capacity, and the permits for that capacity. -/
structure Buffer.Paid (l : Budget) (b : Buffer) (permit : ℕ) : Prop where
  filled : b.len ≤ b.cap
  part : b.cap ≤ l.partSize
  permit : permit = l.units b.cap

/-- What is reserved for this turn, what was read before it, and the tasks there are. -/
def Turn.Ok (l : Budget) (reserve base tasks : ℕ) : Turn → Prop
  | .first => (0 < reserve ∧ reserve ≤ l.partSize) ∧ base = 0 ∧ tasks = 0
  | .next => reserve = l.partSize ∧ (0 < base ∧ l.partSize ∣ base) ∧ tasks < l.maxPartsInFlight

/-- What holds where a call stands, by the bytes it received and the number of its tasks. -/
def Phase.Ok (l : Budget) (received tasks : ℕ) : Phase → Prop
  | .acquire turn reserve | .waiting turn reserve => turn.Ok l reserve received tasks
  | .reserved turn reserve permit => turn.Ok l reserve received tasks ∧ permit = l.units reserve
  | .filling turn part permit =>
    part.Paid l permit ∧ part.len < part.cap ∧
      ∃ base, received = base + part.len ∧ turn.Ok l part.cap base tasks
  | .probing first permit =>
    first.Paid l permit ∧ (received = first.cap ∧ first.cap < l.partSize) ∧ tasks = 0 ∧
      first.len = first.cap
  | .putting first permit => first.Paid l permit ∧ tasks = 0
  | .creating first permit =>
    first.Paid l permit ∧ received = l.partSize ∧ tasks = 0
  | .dropping _ after => tasks ≤ l.maxPartsInFlight ∧ (after = .returned → tasks = 0)
  | .emptied part permit =>
    part.Paid l permit ∧ part.len = 0 ∧ tasks < l.maxPartsInFlight
  | .letGo part => part.len = 0 ∧ tasks < l.maxPartsInFlight
  | .room => (0 < received ∧ l.partSize ∣ received) ∧ tasks ≤ l.maxPartsInFlight
  | .draining | .shutdown | .dropped => tasks ≤ l.maxPartsInFlight
  | .completing | .aborting | .returned => tasks = 0

def Task.Ok (l : Budget) : Task → Prop
  | .uploading body permit => body.Paid l permit
  | _ => True

/-- What holds of a call at every point. -/
structure Upload.Ok (l : Budget) (u : Upload) : Prop where
  phase : u.phase.Ok l u.received u.tasks.length
  tasks : ∀ t ∈ u.tasks, t.Ok l

/-! ## What a step changes -/

variable {l : Budget}

theorem Turn.Ok.reserve {turn : Turn} {reserve base tasks : ℕ} (h : turn.Ok l reserve base tasks) :
    0 < reserve ∧ reserve ≤ l.partSize := by
  cases turn with
  | first => exact h.1
  | next => exact ⟨h.1 ▸ l.partSize_pos, h.1.le⟩

theorem Turn.Ok.tasks {turn : Turn} {reserve base tasks : ℕ} (hmax : 0 < l.maxPartsInFlight)
    (h : turn.Ok l reserve base tasks) : tasks < l.maxPartsInFlight := by
  cases turn with
  | first => exact h.2.2 ▸ hmax
  | next => exact h.2.2

/-- A sum over a list with one element replaced. -/
theorem sum_map_set {α : Type} (f : α → ℕ) {a : α} (b : α) :
    ∀ {xs : List α} {j : ℕ}, xs[j]? = some a →
      ((xs.set j b).map f).sum + f a = (xs.map f).sum + f b
  | [], _, h => absurd h (by simp)
  | x :: xs, 0, h => by
    obtain rfl : x = a := by simpa using h
    simp only [List.set_cons_zero, List.map_cons, List.sum_cons]
    omega
  | x :: xs, j + 1, h => by
    have hj : xs[j]? = some a := by simpa using h
    have := sum_map_set f b hj
    simp only [List.set_cons_succ, List.map_cons, List.sum_cons]
    omega

/-- A sum over a list with one element taken out. -/
theorem sum_map_eraseIdx {α : Type} (f : α → ℕ) {a : α} :
    ∀ {xs : List α} {j : ℕ}, xs[j]? = some a →
      ((xs.eraseIdx j).map f).sum + f a = (xs.map f).sum
  | [], _, h => absurd h (by simp)
  | x :: xs, 0, h => by
    obtain rfl : x = a := by simpa using h
    simp only [List.eraseIdx_cons_zero, List.map_cons, List.sum_cons]
    omega
  | x :: xs, j + 1, h => by
    have hj : xs[j]? = some a := by simpa using h
    have := sum_map_eraseIdx f hj
    simp only [List.eraseIdx_cons_succ, List.map_cons, List.sum_cons]
    omega

/-- The call goes on and returns `n` permits; its place in line stays. -/
structure Moves (l : Budget) (u u' : Upload) (n : ℕ) : Prop where
  permits : u'.permits + n = u.permits
  tickets : u'.tickets l = u.tickets l
  ok : u.Ok l → u'.Ok l

theorem Buffer.Paid.grow {part : Buffer} {permit n : ℕ} (h : part.Paid l permit)
    (hn : part.len + n ≤ part.cap) : Buffer.Paid l { part with len := part.len + n } permit :=
  ⟨hn, h.part, h.permit⟩

namespace Upload

theorem permits_mk (phase : Phase) (carry : Option ℕ) (received : ℕ) (tasks : List Task) :
    Upload.permits ⟨phase, carry, received, tasks⟩ =
      phase.permits + (tasks.map Task.permits).sum := rfl

/-- The reservation `fill` was called with goes where the part goes. -/
theorem filled_permits (u : Upload) (turn : Turn) (part : Buffer) (permit : ℕ) :
    (u.filled l turn part permit).permits = permit + (u.tasks.map Task.permits).sum := by
  cases turn with
  | first =>
    simp only [filled, shape]
    split
    · rfl
    · split <;> rfl
  | next =>
    simp only [filled]
    split
    · rfl
    · have hphase : (if part.len < l.partSize then Phase.draining else Phase.room).permits = 0 := by
        split <;> rfl
      simp only [permits, hphase, List.map_append, List.sum_append, List.map_cons, List.map_nil,
        List.sum_cons, List.sum_nil, Task.permits]
      omega

theorem filled_tickets (u : Upload) (turn : Turn) (part : Buffer) (permit : ℕ) :
    (u.filled l turn part permit).tickets l = [] := by
  cases turn with
  | first =>
    simp only [filled, shape]
    split
    · rfl
    · split <;> rfl
  | next =>
    simp only [filled]
    split
    · rfl
    · by_cases hlt : part.len < l.partSize <;> simp [tickets, Phase.tickets, hlt]

theorem filled_ok {u : Upload} {turn : Turn} {part : Buffer}
    {permit base : ℕ} (ht : ∀ t ∈ u.tasks, t.Ok l) (hp : part.Paid l permit)
    (hr : u.received = base + part.len) (hturn : turn.Ok l part.cap base u.tasks.length) :
    (u.filled l turn part permit).Ok l := by
  have hfilled := hp.filled
  have hpart := hp.part
  cases turn with
  | first =>
    obtain ⟨-, rfl, htasks⟩ := hturn
    simp only [filled, shape]
    split
    · rename_i hc
      exact ⟨⟨hp, ⟨by simp only; omega, hc.2⟩, htasks, hc.1⟩, ht⟩
    · split
      · exact ⟨⟨hp, htasks⟩, ht⟩
      · exact ⟨⟨hp, by simp only; omega, htasks⟩, ht⟩
  | next =>
    obtain ⟨hcap, hbase, htasks⟩ := hturn
    simp only [filled]
    split
    · rename_i h0
      exact ⟨⟨hp, h0, htasks⟩, ht⟩
    · have htask : ∀ t ∈ u.tasks ++ [.uploading part permit], t.Ok l := by
        intro t htm
        rcases List.mem_append.mp htm with htm | htm
        · exact ht t htm
        · rw [List.mem_singleton.mp htm]
          exact hp
      refine ⟨?_, htask⟩
      simp only [List.length_append, List.length_singleton]
      split
      · exact htasks
      · -- a whole part was read: the bytes received are whole parts again
        have hlen : part.len = l.partSize := by omega
        refine ⟨⟨by omega, ?_⟩, htasks⟩
        rw [hr, hlen]
        exact Nat.dvd_add hbase.2 (Nat.dvd_refl _)

theorem append_moves {u : Upload} {turn : Turn} {part : Buffer}
    {permit n : ℕ} (carry : Option ℕ) (hu : u.phase = .filling turn part permit)
    (hn : part.Paid l permit → part.len + n ≤ part.cap) :
    Moves l u ({ u with carry := carry }.append l turn part permit n) 0 := by
  have htickets : u.tickets l = [] := by simp [tickets, hu, Phase.tickets]
  have hpermits : u.permits = permit + (u.tasks.map Task.permits).sum := by
    simp [permits, hu, Phase.permits]
  unfold append
  refine ⟨?_, ?_, fun hok => ?_⟩
  · rw [hpermits]
    dsimp only
    split
    · rfl
    · exact filled_permits ..
  · rw [htickets]
    dsimp only
    split
    · rfl
    · exact filled_tickets ..
  · obtain ⟨hphase, ht⟩ := hok
    rw [hu] at hphase
    obtain ⟨hp, -, base, hr, hturn⟩ := hphase
    have hr' : u.received + n = base + (part.len + n) := by omega
    dsimp only
    split
    · rename_i hlt
      exact ⟨⟨hp.grow (hn hp), hlt, base, hr', hturn⟩, ht⟩
    · exact filled_ok ht (hp.grow (hn hp)) hr' hturn

/-- A move between phases with the same place in line, to tasks that hold the same permits. -/
theorem moves_mk {u : Upload} {old new : Phase} {carry : Option ℕ} {tasks : List Task} {n : ℕ}
    (hu : u.phase = old) (hpermits : new.permits + n = old.permits)
    (htickets : new.tickets l = old.tickets l)
    (hsum : (tasks.map Task.permits).sum = (u.tasks.map Task.permits).sum)
    (hsub : ∀ t ∈ tasks, t ∈ u.tasks)
    (hok : old.Ok l u.received u.tasks.length → new.Ok l u.received tasks.length) :
    Moves l u { u with phase := new, carry := carry, tasks := tasks } n where
  permits := by
    simp only [permits, hu]
    omega
  tickets := by
    rw [tickets, tickets, hu, htickets]
  ok h := ⟨hok (hu ▸ h.phase), fun t ht => h.tasks t (hsub t ht)⟩

theorem moves_phase {u : Upload} {old new : Phase} {carry : Option ℕ} {n : ℕ} (hu : u.phase = old)
    (hpermits : new.permits + n = old.permits) (htickets : new.tickets l = old.tickets l)
    (hok : old.Ok l u.received u.tasks.length → new.Ok l u.received u.tasks.length) :
    Moves l u { u with phase := new, carry := carry } n :=
  moves_mk hu hpermits htickets rfl (fun _ => id) hok

theorem shape_moves {u : Upload} {first : Buffer} {permit : ℕ}
    (hu : u.phase = .probing first permit) : Moves l u (u.shape l first permit) 0 := by
  unfold shape
  split
  · exact moves_phase hu rfl rfl fun hok => ⟨hok.1, hok.2.2.1⟩
  · -- a probed buffer is smaller than a part
    refine moves_phase hu rfl rfl fun hok => ?_
    obtain ⟨-, ⟨-, hlt⟩, -, hlen⟩ := hok
    omega

theorem item_moves (hmax : 0 < l.maxPartsInFlight) {u u' : Upload} {it : Item}
    (h : u.item l it = some u') : Moves l u u' 0 := by
  unfold item at h
  split at h
  · rename_i turn part permit n hphase
    simp only at h
    split at h
    · obtain rfl := Option.some.inj h
      refine append_moves _ hphase fun hp => ?_
      have := hp.filled
      omega
    · obtain rfl := Option.some.inj h
      refine append_moves u.carry hphase fun hp => ?_
      have := hp.filled
      omega
  · rename_i turn part permit hphase
    obtain rfl := Option.some.inj h
    refine ⟨?_, ?_, fun hok => ?_⟩
    · rw [filled_permits]
      simp [permits, hphase, Phase.permits]
    · rw [filled_tickets, tickets, hphase]
      rfl
    · obtain ⟨hok, ht⟩ := hok
      rw [hphase] at hok
      obtain ⟨hp, -, base, hr, hturn⟩ := hok
      exact filled_ok ht hp hr hturn
  · rename_i turn part permit hphase
    obtain rfl := Option.some.inj h
    refine moves_phase hphase rfl rfl fun hok => ?_
    obtain ⟨-, -, base, -, hturn⟩ := hok
    refine ⟨(hturn.tasks hmax).le, fun hafter => ?_⟩
    cases turn with
    | first => exact hturn.2.2
    | next => exact absurd hafter (by simp [Turn.onError])
  · rename_i first permit n hphase
    split at h
    · obtain rfl := Option.some.inj h
      exact ⟨rfl, rfl, id⟩
    · obtain rfl := Option.some.inj h
      exact moves_phase hphase rfl rfl fun hok => ⟨hok.2.2.1 ▸ Nat.zero_le _, fun _ => hok.2.2.1⟩
  · rename_i first permit hphase
    obtain rfl := Option.some.inj h
    exact shape_moves hphase
  · rename_i first permit hphase
    obtain rfl := Option.some.inj h
    exact moves_phase hphase rfl rfl fun hok => ⟨hok.2.2.1 ▸ Nat.zero_le _, fun _ => hok.2.2.1⟩
  · exact absurd h (by simp)

theorem s3_moves (hmax : 0 < l.maxPartsInFlight) {u u' : Upload} {ok : Bool} (hu : u.Ok l)
    (h : u.s3 ok = some u') : Moves l u u' 0 := by
  unfold s3 at h
  split at h
  · rename_i first permit hphase
    obtain rfl := Option.some.inj h
    exact moves_phase hphase rfl rfl fun hok => ⟨hok.2 ▸ Nat.zero_le _, fun _ => hok.2⟩
  · rename_i first permit hphase
    split at h
    · obtain rfl := Option.some.inj h
      obtain ⟨hp, hr, htasks⟩ : first.Paid l permit ∧ u.received = l.partSize ∧
          u.tasks.length = 0 := by
        have := hu.phase
        rwa [hphase] at this
      refine ⟨?_, ?_, fun _ => ⟨⟨⟨hr ▸ l.partSize_pos, hr ▸ Nat.dvd_refl _⟩, hmax⟩, ?_⟩⟩
      · simp [permits, hphase, Phase.permits, Task.permits, List.length_eq_zero_iff.mp htasks]
      · rw [tickets, tickets, hphase]
        rfl
      · intro t ht
        rw [List.mem_singleton.mp ht]
        exact hp
    · obtain rfl := Option.some.inj h
      exact moves_phase hphase rfl rfl fun hok => ⟨hok.2.2 ▸ Nat.zero_le _, fun _ => hok.2.2⟩
  · rename_i hphase
    obtain rfl := Option.some.inj h
    cases ok with
    | true => exact moves_phase hphase rfl rfl id
    | false => exact moves_phase hphase rfl rfl fun hok => hok.trans_le (Nat.zero_le _)
  · rename_i hphase
    obtain rfl := Option.some.inj h
    exact moves_phase hphase rfl rfl id
  · exact absurd h (by simp)

theorem proceed_moves {u u' : Upload} {n : ℕ} (h : u.proceed l = some (u', n)) :
    Moves l u u' n := by
  unfold proceed at h
  split at h
  · rename_i permit after hphase
    obtain ⟨rfl, rfl⟩ := Prod.mk.inj (Option.some.inj h)
    cases after with
    | returned => exact moves_phase hphase (Nat.zero_add _) rfl fun hok => hok.2 rfl
    | shutdown => exact moves_phase hphase (Nat.zero_add _) rfl fun hok => hok.1
    | dropped => exact moves_phase hphase (Nat.zero_add _) rfl fun hok => hok.1
  · rename_i part permit hphase
    obtain ⟨rfl, rfl⟩ := Prod.mk.inj (Option.some.inj h)
    exact moves_phase hphase (Nat.zero_add _) rfl fun hok => hok.2
  · rename_i part hphase
    obtain ⟨rfl, rfl⟩ := Prod.mk.inj (Option.some.inj h)
    exact moves_phase hphase rfl rfl fun hok => hok.2.le
  · rename_i hphase
    split at h
    · rename_i hroom
      obtain ⟨rfl, rfl⟩ := Prod.mk.inj (Option.some.inj h)
      exact moves_phase hphase rfl rfl fun hok => ⟨rfl, hok.1, hroom⟩
    · exact absurd h (by simp)
  · rename_i hphase
    split at h
    · rename_i hnone
      obtain ⟨rfl, rfl⟩ := Prod.mk.inj (Option.some.inj h)
      exact moves_phase hphase rfl rfl fun _ => List.length_eq_zero_iff.mpr hnone
    · exact absurd h (by simp)
  · rename_i hphase
    split at h
    · rename_i hnone
      obtain ⟨rfl, rfl⟩ := Prod.mk.inj (Option.some.inj h)
      exact moves_phase hphase rfl rfl fun _ => List.length_eq_zero_iff.mpr hnone
    · exact absurd h (by simp)
  · exact absurd h (by simp)

theorem join_moves {u u' : Upload} {j : ℕ} (h : u.join l j = some u') : Moves l u u' 0 := by
  have hlen := List.length_eraseIdx_le u.tasks j
  unfold join at h
  split at h
  · rename_i ok hj
    have hsum := sum_map_eraseIdx Task.permits hj
    simp only [Task.permits, Nat.add_zero] at hsum
    have hsub : ∀ t ∈ u.tasks.eraseIdx j, t ∈ u.tasks := fun _ => List.mem_of_mem_eraseIdx
    split at h
    · rename_i hphase
      split at h
      · exact absurd h (by simp)
      · obtain rfl := Option.some.inj h
        cases ok with
        | true => exact moves_mk hphase rfl rfl hsum hsub fun hok => ⟨hok.1, hlen.trans hok.2⟩
        | false => exact moves_mk hphase rfl rfl hsum hsub fun hok => hlen.trans hok.2
    · rename_i hphase
      obtain rfl := Option.some.inj h
      cases ok <;> exact moves_mk hphase rfl rfl hsum hsub fun hok => hlen.trans hok
    · rename_i hphase
      obtain rfl := Option.some.inj h
      exact moves_mk rfl rfl rfl hsum hsub (hphase ▸ fun hok => hlen.trans hok)
    · rename_i hphase
      obtain rfl := Option.some.inj h
      exact moves_mk rfl rfl rfl hsum hsub (hphase ▸ fun hok => hlen.trans hok)
    · exact absurd h (by simp)
  · exact absurd h (by simp)

/-- A task goes on, and returns `n` permits. -/
theorem task_moves {u : Upload} {j n : ℕ} {old new : Task} (hj : u.tasks[j]? = some old)
    (hpermits : new.permits + n = old.permits) (hok : old.Ok l → new.Ok l) :
    Moves l u { u with tasks := u.tasks.set j new } n := by
  refine ⟨?_, rfl, fun h => ⟨?_, fun t ht => ?_⟩⟩
  · have := sum_map_set Task.permits new hj
    simp only [permits]
    omega
  · simp only [List.length_set]
    exact h.phase
  · rcases List.mem_or_eq_of_mem_set ht with ht | rfl
    · exact h.tasks t ht
    · exact hok (h.tasks old (List.mem_of_getElem? hj))

/-- A dropped call that does not wait in line keeps its permit for now. -/
theorem cancel_moves (hmax : 0 < l.maxPartsInFlight) {u u' : Upload} (h : u.cancel = some u')
    (hwait : ∀ turn reserve, u.phase ≠ .waiting turn reserve) : Moves l u u' 0 := by
  unfold cancel at h
  split at h
  · rename_i turn part permit hphase
    obtain rfl := Option.some.inj h
    refine moves_phase hphase rfl rfl fun hok => ⟨?_, by simp⟩
    obtain ⟨-, -, base, -, hturn⟩ := hok
    exact (hturn.tasks hmax).le
  · rename_i first permit hphase
    obtain rfl := Option.some.inj h
    exact moves_phase hphase rfl rfl fun hok => ⟨hok.2.2.1 ▸ Nat.zero_le _, by simp⟩
  · rename_i first permit hphase
    obtain rfl := Option.some.inj h
    exact moves_phase hphase rfl rfl fun hok => ⟨hok.2 ▸ Nat.zero_le _, by simp⟩
  · rename_i first permit hphase
    obtain rfl := Option.some.inj h
    exact moves_phase hphase rfl rfl fun hok => ⟨hok.2.2 ▸ Nat.zero_le _, by simp⟩
  · rename_i turn reserve hphase
    obtain rfl := Option.some.inj h
    exact moves_phase hphase rfl rfl fun hok => (Turn.Ok.tasks hmax hok).le
  · rename_i turn reserve hphase
    exact absurd hphase (hwait turn reserve)
  · rename_i hphase
    obtain rfl := Option.some.inj h
    exact moves_phase hphase rfl rfl fun hok => hok.2
  · rename_i hphase
    obtain rfl := Option.some.inj h
    exact moves_phase hphase rfl rfl id
  · rename_i hphase
    obtain rfl := Option.some.inj h
    exact moves_phase hphase rfl rfl fun hok => hok.trans_le (Nat.zero_le _)
  · rename_i hphase
    obtain rfl := Option.some.inj h
    exact moves_phase hphase rfl rfl id
  · rename_i hphase
    obtain rfl := Option.some.inj h
    exact moves_phase hphase rfl rfl fun hok => hok.trans_le (Nat.zero_le _)
  · exact absurd h (by simp)

end Upload

/-- What one step of the call `i` does to the semaphore and the call. -/
structure Stepped (l : Budget) (i : ℕ) (sem : Semaphore ℕ) (u u' : Upload) (sem' : Semaphore ℕ) :
    Prop where
  permits : sem'.inside + u'.permits = sem.inside + u.permits
  tickets : sem'.tickets i = u'.tickets l
  others : ∀ j, j ≠ i → sem'.tickets j = sem.tickets j
  ok : u'.Ok l

/-- A move whose permits go back to the semaphore. -/
theorem Moves.stepped {i n : ℕ} {sem : Semaphore ℕ} {u u' : Upload} (hu : u.Ok l)
    (hi : sem.tickets i = u.tickets l) (h : Moves l u u' n) :
    Stepped l i sem u u' (sem.release n) where
  permits := by
    have := h.permits
    rw [Semaphore.inside_release]
    omega
  tickets := by rw [Semaphore.tickets_release, hi, h.tickets]
  others j _ := Semaphore.tickets_release ..
  ok := h.ok hu

theorem Moves.stepped_zero {i : ℕ} {sem : Semaphore ℕ} {u u' : Upload} (hu : u.Ok l)
    (hi : sem.tickets i = u.tickets l) (h : Moves l u u' 0) : Stepped l i sem u u' sem where
  permits := by
    have := h.permits
    omega
  tickets := by rw [hi, h.tickets]
  others _ _ := rfl
  ok := h.ok hu

namespace Upload

/-- A call that asks for permits takes them, or joins the line. -/
theorem acquire_stepped {i : ℕ} {sem sem' : Semaphore ℕ} {u u' : Upload} (hu : u.Ok l)
    (hi : sem.tickets i = u.tickets l) (h : u.step l i sem .acquire = some (u', sem')) :
    Stepped l i sem u u' sem' := by
  simp only [step] at h
  split at h
  · rename_i turn reserve hphase
    have hturn : turn.Ok l reserve u.received u.tasks.length := by
      have := hu.phase
      rwa [hphase] at this
    have hnone : sem.tickets i = [] := by rw [hi, tickets, hphase]; rfl
    have hzero : u.permits = (u.tasks.map Task.permits).sum := by
      simp [permits, hphase, Phase.permits]
    split at h
    · rename_i sem₁ hacq
      obtain ⟨rfl, rfl⟩ := Prod.mk.inj (Option.some.inj h)
      obtain ⟨-, hle, rfl⟩ | ⟨hf, -⟩ := Semaphore.acquire_cases hacq
      · have := Semaphore.inside_take hle
        refine ⟨?_, hnone, fun _ _ => rfl, ⟨⟨hturn, rfl⟩, hu.tasks⟩⟩
        rw [hzero, permits_mk]
        simp only [Phase.permits]
        omega
      · exact absurd hf (by simp)
    · rename_i sem₁ hacq
      obtain ⟨rfl, rfl⟩ := Prod.mk.inj (Option.some.inj h)
      obtain ⟨ht, -⟩ | ⟨-, hlt, rfl⟩ := Semaphore.acquire_cases hacq
      · exact absurd ht (by simp)
      · refine ⟨?_, ?_, fun j hj => ?_, ⟨hturn, hu.tasks⟩⟩
        · rw [Semaphore.inside_wait, hzero, permits_mk]
          simp [Phase.permits]
        · rw [Semaphore.tickets_wait, hnone, if_pos rfl]
          rfl
        · rw [Semaphore.tickets_wait, if_neg (Ne.symm hj), List.append_nil]
  · exact absurd h (by simp)

/-- A waiter that is polled takes what it asked for. -/
theorem poll_stepped {i : ℕ} {sem sem' : Semaphore ℕ} {u u' : Upload} (hu : u.Ok l)
    (hi : sem.tickets i = u.tickets l) (h : u.step l i sem .poll = some (u', sem')) :
    Stepped l i sem u u' sem' := by
  simp only [step] at h
  split at h
  · rename_i turn reserve hphase
    obtain ⟨⟨n, sem₁⟩, hpoll, he⟩ := Option.map_eq_some_iff.mp h
    obtain ⟨rfl, rfl⟩ := Prod.mk.inj he
    have hturn : turn.Ok l reserve u.received u.tasks.length := by
      have := hu.phase
      rwa [hphase] at this
    have hone : sem.tickets i = [l.units reserve] := by rw [hi, tickets, hphase]; rfl
    obtain ⟨rfl, hnone⟩ := Semaphore.tickets_poll_self hpoll hone
    refine ⟨?_, hnone, fun j hj => Semaphore.tickets_poll_of_ne hpoll hj,
      ⟨⟨hturn, rfl⟩, hu.tasks⟩⟩
    have := Semaphore.inside_poll hpoll
    simp only [permits, hphase, Phase.permits]
    omega
  · exact absurd h (by simp)

/-- A dropped call leaves the line. -/
theorem cancel_stepped (hmax : 0 < l.maxPartsInFlight) {i : ℕ} {sem sem' : Semaphore ℕ}
    {u u' : Upload} (hu : u.Ok l) (hi : sem.tickets i = u.tickets l)
    (h : u.step l i sem .cancel = some (u', sem')) : Stepped l i sem u u' sem' := by
  simp only [step] at h
  obtain ⟨u₁, hcancel, he⟩ := Option.map_eq_some_iff.mp h
  obtain ⟨rfl, rfl⟩ := Prod.mk.inj he
  split
  · rename_i turn reserve hphase
    have hone : sem.tickets i = [l.units reserve] := by rw [hi, tickets, hphase]; rfl
    have hturn : turn.Ok l reserve u.received u.tasks.length := by
      have := hu.phase
      rwa [hphase] at this
    simp only [cancel, hphase, Option.some.injEq] at hcancel
    subst hcancel
    refine ⟨?_, Semaphore.tickets_cancel_self hone, fun j hj => Semaphore.tickets_cancel_of_ne hj,
      ⟨(hturn.tasks hmax).le, hu.tasks⟩⟩
    simp [permits, hphase, Phase.permits]
  · rename_i hwait
    exact Moves.stepped_zero hu hi (cancel_moves hmax hcancel hwait)

/-- **What any step of a call or its tasks does.** -/
theorem step_stepped (hmax : 0 < l.maxPartsInFlight) {i : ℕ} {sem sem' : Semaphore ℕ}
    {u u' : Upload} {e : Event} (hu : u.Ok l) (hi : sem.tickets i = u.tickets l)
    (h : u.step l i sem e = some (u', sem')) : Stepped l i sem u u' sem' := by
  cases e with
  | acquire => exact acquire_stepped hu hi h
  | poll => exact poll_stepped hu hi h
  | cancel => exact cancel_stepped hmax hu hi h
  | alloc =>
    simp only [step] at h
    split at h
    · rename_i turn reserve permit hphase
      obtain ⟨rfl, rfl⟩ := Prod.mk.inj (Option.some.inj h)
      refine Moves.stepped_zero hu hi (moves_phase hphase rfl rfl fun hok => ?_)
      have hreserve := hok.1.reserve
      exact ⟨⟨Nat.zero_le _, hreserve.2, hok.2⟩, hreserve.1, u.received, rfl, hok.1⟩
    · exact absurd h (by simp)
  | carry =>
    simp only [step] at h
    split at h
    · obtain ⟨u₁, hitem, he⟩ := Option.map_eq_some_iff.mp h
      obtain ⟨rfl, rfl⟩ := Prod.mk.inj he
      have hm := item_moves hmax hitem
      refine Moves.stepped_zero hu hi ⟨hm.permits, hm.tickets, fun hok => ?_⟩
      exact hm.ok ⟨hok.phase, hok.tasks⟩
    · exact absurd h (by simp)
  | read item =>
    simp only [step] at h
    split at h
    · obtain ⟨u₁, hitem, he⟩ := Option.map_eq_some_iff.mp h
      obtain ⟨rfl, rfl⟩ := Prod.mk.inj he
      exact Moves.stepped_zero hu hi (item_moves hmax hitem)
    · exact absurd h (by simp)
  | s3 ok =>
    obtain ⟨u₁, hs3, he⟩ := Option.map_eq_some_iff.mp h
    obtain ⟨rfl, rfl⟩ := Prod.mk.inj he
    exact Moves.stepped_zero hu hi (s3_moves hmax hu hs3)
  | proceed =>
    obtain ⟨⟨u₁, n⟩, hproceed, he⟩ := Option.map_eq_some_iff.mp h
    obtain ⟨rfl, rfl⟩ := Prod.mk.inj he
    exact Moves.stepped hu hi (proceed_moves hproceed)
  | join j =>
    obtain ⟨u₁, hjoin, he⟩ := Option.map_eq_some_iff.mp h
    obtain ⟨rfl, rfl⟩ := Prod.mk.inj he
    exact Moves.stepped_zero hu hi (join_moves hjoin)
  | sent j ok =>
    simp only [step] at h
    split at h
    · rename_i body permit hj
      obtain ⟨rfl, rfl⟩ := Prod.mk.inj (Option.some.inj h)
      exact Moves.stepped_zero hu hi (task_moves hj rfl fun _ => trivial)
    · exact absurd h (by simp)
  | finish j =>
    simp only [step] at h
    split at h
    · rename_i permit ok hj
      obtain ⟨rfl, rfl⟩ := Prod.mk.inj (Option.some.inj h)
      exact Moves.stepped hu hi (task_moves hj (Nat.zero_add _) fun _ => trivial)
    · exact absurd h (by simp)
  | abort j =>
    simp only [step] at h
    split at h
    · rename_i body permit _ hj
      obtain ⟨rfl, rfl⟩ := Prod.mk.inj (Option.some.inj h)
      exact Moves.stepped_zero hu hi (task_moves hj rfl fun _ => trivial)
    · rename_i body permit _ hj
      obtain ⟨rfl, rfl⟩ := Prod.mk.inj (Option.some.inj h)
      exact Moves.stepped_zero hu hi (task_moves hj rfl fun _ => trivial)
    · exact absurd h (by simp)

end Upload

end Garret.Slots
