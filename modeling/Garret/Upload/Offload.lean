import Garret.Lib.Run
import Garret.Upload.Store

/-!
# The inline and the offloaded check

The offloaded engine of `VerifiedNar` (`crates/garret-pusher/src/verify.rs`) step by step: the
request's task, which reads a chunk, reserves a slot of the queue, sends the chunk and passes it on;
and the check thread, which receives, feeds, drops its end of the queue and sends the verdict. The
two interleave anywhere (`Offload.step`); a poll that returns `Pending` is no step. The thread does
not panic.

`Offload.engines_agree`: every run ends, within five steps a chunk, and it ends as the inline engine
does. `VerifiedNar.drain_outcome` says the same of the coarser stream that the storage model polls,
where a `Sched` stands for the thread's progress between two chunks.
-/

namespace Garret

open Garret.Lib

section

variable {δ : Type} (z : Zstd δ) (sha256 : Bytes → Bytes)

/-! ## The verdict -/

/-- The check fed with one chunk after the other. -/
def Checker.feedAll (c : Checker δ) : List Bytes → Except String (Checker δ)
  | [] => .ok c
  | chunk :: chunks =>
    match c.feed z chunk with
    | .ok c => c.feedAll chunks
    | .error reason => .error reason

/-- The check of a whole stream. -/
def Checker.verdict (c : Checker δ) (chunks : List Bytes) : Except String Unit :=
  match c.feedAll z chunks with
  | .ok c => c.finish sha256
  | .error reason => .error reason

/-- The outcome of a verdict. -/
def Outcome.of : Except String Unit → Outcome
  | .ok () => .accepted
  | .error reason => .refused reason

variable {z} {sha256}

theorem Checker.feedAll_append {c : Checker δ} : ∀ {a : List Bytes} (b : List Bytes),
    c.feedAll z (a ++ b) = match c.feedAll z a with
      | .ok c => c.feedAll z b
      | .error reason => .error reason := by
  intro a
  induction a generalizing c with
  | nil => intro b; rfl
  | cons chunk a ih =>
    intro b
    rw [List.cons_append, feedAll, feedAll]
    cases c.feed z chunk with
    | error reason => rfl
    | ok c => exact ih b

/-- A refusal stays, whatever follows. -/
theorem Checker.feedAll_error {c : Checker δ} {w chunks : List Bytes} {reason : String}
    (h : c.feedAll z w = .error reason) (hw : w <+: chunks) :
    c.feedAll z chunks = .error reason := by
  obtain ⟨rest, rfl⟩ := hw
  rw [feedAll_append, h]

theorem Checker.feedAll_snoc {c c' : Checker δ} {w : List Bytes} (h : c.feedAll z w = .ok c')
    (chunk : Bytes) : c.feedAll z (w ++ [chunk]) = c'.feed z chunk := by
  rw [feedAll_append, h]
  simp only [feedAll]
  cases c'.feed z chunk <;> rfl

/-- A refusal, or all that was fed: the verdict of what is left decides. -/
theorem Checker.verdict_append {c c' : Checker δ} {w : List Bytes} (h : c.feedAll z w = .ok c')
    (chunks : List Bytes) : c.verdict z sha256 (w ++ chunks) = c'.verdict z sha256 chunks := by
  rw [verdict, verdict, feedAll_append, h]

theorem Checker.verdict_error {c : Checker δ} {w chunks : List Bytes} {reason : String}
    (h : c.feedAll z w = .error reason) (hw : w <+: chunks) :
    c.verdict z sha256 chunks = .error reason := by
  rw [verdict, feedAll_error h hw]

/-! ## The stream between two chunks -/

/-- Poll until the stream ends: the chunks it passed on, and the outcome. -/
def VerifiedNar.drain (z : Zstd δ) (sha256 : Bytes → Bytes) (sched : ℕ → Sched) :
    ℕ → VerifiedNar δ → List Bytes × Option Outcome
  | 0, nar => ([], nar.outcome)
  | fuel + 1, nar =>
    match nar.next z sha256 (sched fuel) with
    | (some (.ok chunk), nar) =>
      let rest := nar.drain z sha256 sched fuel
      (chunk :: rest.1, rest.2)
    | (_, nar) => ([], nar.outcome)

/-- How a stream of `chunks` should end: with the outcome of the verdict, and when that is
`Accepted`, after every chunk. -/
def Ends (v : Except String Unit) (chunks : List Bytes) (r : List Bytes × Option Outcome) : Prop :=
  r.2 = some (.of v) ∧ (v = .ok () → r.1 = chunks)

theorem Ends.cons {v : Except String Unit} {chunk : Bytes} {chunks : List Bytes}
    {r : List Bytes × Option Outcome} (h : Ends v chunks r) :
    Ends v (chunk :: chunks) (chunk :: r.1, r.2) :=
  ⟨h.1, fun hv => by rw [h.2 hv]⟩

theorem Ends.refused {reason : String} {chunks p : List Bytes} :
    Ends (.error reason) chunks (p, some (.refused reason)) := ⟨rfl, by simp⟩

/-- **The inline engine ends with the verdict of the stream.** -/
theorem VerifiedNar.drain_inline (sched : ℕ → Sched) : ∀ (chunks : List Bytes) (c : Checker δ),
    Ends (c.verdict z sha256 chunks) chunks
      (drain z sha256 sched (chunks.length + 1) ⟨chunks.map .ok, .inline c, none⟩) := by
  intro chunks
  induction chunks with
  | nil =>
    intro c
    simp only [List.length_nil, List.map_nil, drain, next, Checker.verdict, Checker.feedAll]
    cases c.finish sha256 with
    | ok u => exact ⟨rfl, fun _ => rfl⟩
    | error reason => exact .refused
  | cons chunk chunks ih =>
    intro c
    rw [List.length_cons, drain]
    simp only [List.map_cons, next]
    cases hf : c.feed z chunk with
    | error reason =>
      have hfed : c.feedAll z [chunk] = .error reason := by simp [Checker.feedAll, hf]
      have hv : c.verdict z sha256 (chunk :: chunks) = .error reason :=
        Checker.verdict_error hfed ⟨chunks, rfl⟩
      rw [hv]
      exact .refused
    | ok c' =>
      have hfed : c.feedAll z [chunk] = .ok c' := by simp [Checker.feedAll, hf]
      have hv : c.verdict z sha256 (chunk :: chunks) = c'.verdict z sha256 chunks :=
        Checker.verdict_append hfed chunks
      rw [hv]
      exact (ih c').cons

/-- What the thread makes of its queue: it has fed a part of it, or refused one. -/
def CheckThread.FedFrom (z : Zstd δ) (c : Checker δ) (queue : List Bytes) : CheckThread δ → Prop
  | .running c' queue' => ∃ w, queue = w ++ queue' ∧ c.feedAll z w = .ok c'
  | .verdict v => ∃ w reason, w <+: queue ∧ c.feedAll z w = .error reason ∧ v = .error reason
  | .dead => False

theorem CheckThread.take_fedFrom {c : Checker δ} {queue : List Bytes} {t : CheckThread δ}
    (h : FedFrom z c queue t) : FedFrom z c queue (t.take z) := by
  cases t with
  | running c' queue' =>
    cases queue' with
    | nil => exact h
    | cons chunk queue' =>
      obtain ⟨w, hq, hf⟩ := h
      unfold CheckThread.take
      simp only
      split
      · rename_i c'' hf'
        exact ⟨w ++ [chunk], by simp [hq], (Checker.feedAll_snoc hf chunk).trans hf'⟩
      · rename_i reason hf'
        exact ⟨w ++ [chunk], reason, ⟨queue', by simp [hq]⟩,
          (Checker.feedAll_snoc hf chunk).trans hf', rfl⟩
  | verdict v => exact h
  | dead => exact h

theorem CheckThread.takes_fedFrom {c : Checker δ} {queue : List Bytes} :
    ∀ {n : ℕ} {t : CheckThread δ}, FedFrom z c queue t → FedFrom z c queue (t.takes z n)
  | 0, _, h => h
  | n + 1, t, h => takes_fedFrom (n := n) (t := t.take z) (take_fedFrom h)

theorem CheckThread.reserve_fedFrom {o : Sched} (ho : o.dies = false) (c : Checker δ)
    (queue : List Bytes) : FedFrom z c queue (reserve z o (.running c queue)) := by
  have hstart : FedFrom z c queue (takes z o.steps (.running c queue)) :=
    takes_fedFrom ⟨[], rfl, rfl⟩
  unfold reserve
  rw [ho]
  simp only [Bool.false_eq_true, if_false]
  split
  · rename_i c' queue' heq
    rw [heq] at hstart
    split
    · exact hstart
    · exact take_fedFrom hstart
  · exact hstart

/-- The closed queue is fed to its end, so the thread's verdict is the verdict of the queue. -/
theorem CheckThread.close_eq {o : Sched} (ho : o.dies = false) (c : Checker δ)
    (queue : List Bytes) :
    close z sha256 o (.running c queue) = .verdict (c.verdict z sha256 queue) := by
  have hfed : FedFrom z c queue (takes z queue.length (.running c queue)) :=
    takes_fedFrom ⟨[], rfl, rfl⟩
  unfold close
  rw [ho]
  simp only [Bool.false_eq_true, if_false]
  cases heq : takes z queue.length (.running c queue) with
  | running c' queue' =>
    rw [heq] at hfed
    obtain ⟨w, hq, hf⟩ := hfed
    rw [takes_queue heq, List.append_nil] at hq
    simp only
    rw [Checker.verdict, hq, hf]
  | verdict v =>
    rw [heq] at hfed
    obtain ⟨w, reason, hw, hf, rfl⟩ := hfed
    simp only
    rw [Checker.verdict_error hf hw]
  | dead =>
    rw [heq] at hfed
    exact hfed.elim

/-- **The offloaded stream ends with the same verdict, whatever the thread does between two
chunks.** -/
theorem VerifiedNar.drain_offload {sched : ℕ → Sched} (hs : ∀ n, (sched n).dies = false) :
    ∀ (chunks queue : List Bytes) (c : Checker δ),
      Ends (c.verdict z sha256 (queue ++ chunks)) chunks
        (drain z sha256 sched (chunks.length + 1)
          ⟨chunks.map .ok, .offload (.running c queue), none⟩) := by
  intro chunks
  induction chunks with
  | nil =>
    intro queue c
    simp only [List.length_nil, List.map_nil, drain, next, List.append_nil]
    rw [CheckThread.close_eq (hs _)]
    cases c.verdict z sha256 queue with
    | ok u => exact ⟨rfl, fun _ => rfl⟩
    | error reason => exact .refused
  | cons chunk chunks ih =>
    intro queue c
    rw [List.length_cons, drain]
    simp only [List.map_cons, next]
    have hfed := CheckThread.reserve_fedFrom (z := z) (hs (chunks.length + 1)) c queue
    cases heq : CheckThread.reserve z (sched (chunks.length + 1)) (.running c queue) with
    | running c' queue' =>
      rw [heq] at hfed
      obtain ⟨w, rfl, hf⟩ := hfed
      simp only
      have hv : c.verdict z sha256 (w ++ queue' ++ chunk :: chunks) =
          c'.verdict z sha256 (queue' ++ [chunk] ++ chunks) := by
        rw [List.append_assoc, Checker.verdict_append hf]
        simp
      rw [hv]
      exact (ih (queue' ++ [chunk]) c').cons
    | verdict v =>
      rw [heq] at hfed
      obtain ⟨w, reason, hw, hf, rfl⟩ := hfed
      rw [Checker.verdict_error hf (hw.trans (List.prefix_append _ _))]
      exact .refused
    | dead =>
      rw [heq] at hfed
      exact hfed.elim

end

/-! ## The two sides -/

variable {δ : Type}

/-- The check thread. -/
inductive Worker (δ : Type) where
  /-- At `blocking_recv`. -/
  | recv (c : Checker δ)
  /-- It has taken a chunk off the queue. -/
  | feed (c : Checker δ) (chunk : Bytes)
  /-- Out of the loop, before `drop(rx)`. -/
  | drop (r : Except String (Checker δ))
  /-- The queue is closed, the verdict not sent. -/
  | finish (r : Except String (Checker δ))
  | sent (verdict : Except String Unit)

/-- Whether the receiver is still there. -/
def Worker.isOpen : Worker δ → Bool
  | recv _ => true
  | feed _ _ => true
  | drop _ => true
  | finish _ => false
  | sent _ => false

/-- The request's task. The sender is dropped on the way into `poll_verdict`. -/
inductive Poll where
  /-- At the head of `poll_next`. -/
  | start
  /-- A slot is reserved, `send_item` comes next. -/
  | send (chunk : Bytes)
  /-- In `poll_verdict`. -/
  | verdict
  /-- The stream has ended: with an error, or with EOF. -/
  | ended (error : Option String)
  deriving DecidableEq, Repr

/-- Whether the sender is gone. -/
def Poll.txGone : Poll → Bool
  | start => false
  | send _ => false
  | verdict => true
  | ended _ => true

/-- The stream, the queue and the thread. -/
structure Offload (δ : Type) where
  inner : List Bytes
  pending : Option Bytes
  queue : List Bytes
  worker : Worker δ
  poll : Poll
  passed : List Bytes
  outcome : Option Outcome

namespace Offload

/-- What happens next. -/
inductive Act where
  /-- `inner` is ready. -/
  | read
  /-- `poll_reserve` is ready. -/
  | reserve
  /-- `send_item`, on a reserved slot. -/
  | send
  /-- `send_item` finds the queue closed. -/
  | sendClosed
  /-- The verdict is there. -/
  | verdict
  | recv
  | feed
  | drop
  | finish
  deriving DecidableEq, Repr

section

variable (z : Zstd δ) (sha256 : Bytes → Bytes)

/-- `with_offload`, before the first poll. -/
def start (chunks : List Bytes) (claimedHash : String) (claimedSize : Int) : Offload δ where
  inner := chunks
  pending := none
  queue := []
  worker := .recv (.new z claimedHash claimedSize)
  poll := .start
  passed := []
  outcome := none

/-- One step; `none` when it is not possible. -/
def step (s : Offload δ) : Act → Option (Offload δ)
  | .read =>
    match s.poll, s.pending, s.inner with
    | .start, none, chunk :: rest => some { s with pending := some chunk, inner := rest }
    | .start, none, [] => some { s with poll := .verdict }
    | _, _, _ => none
  | .reserve =>
    match s.poll, s.pending with
    | .start, some chunk =>
      if s.worker.isOpen then
        if s.queue.length < offloadDepth then some { s with pending := none, poll := .send chunk }
        else none
      else some { s with pending := none, poll := .verdict }
    | _, _ => none
  | .send =>
    match s.poll with
    | .send chunk =>
      some { s with
        queue := if s.worker.isOpen then s.queue ++ [chunk] else s.queue
        passed := s.passed ++ [chunk]
        poll := .start }
    | _ => none
  | .sendClosed =>
    match s.poll with
    | .send _ => if s.worker.isOpen then none else some { s with poll := .verdict }
    | _ => none
  | .verdict =>
    match s.poll, s.worker with
    | .verdict, .sent (.ok ()) => some { s with poll := .ended none, outcome := some .accepted }
    | .verdict, .sent (.error reason) =>
      some { s with poll := .ended (some reason), outcome := some (.refused reason) }
    | _, _ => none
  | .recv =>
    match s.worker, s.queue with
    | .recv c, chunk :: queue => some { s with worker := .feed c chunk, queue := queue }
    | .recv c, [] => if s.poll.txGone then some { s with worker := .drop (.ok c) } else none
    | _, _ => none
  | .feed =>
    match s.worker with
    | .feed c chunk =>
      match c.feed z chunk with
      | .ok c => some { s with worker := .recv c }
      | .error reason => some { s with worker := .drop (.error reason) }
    | _ => none
  | .drop =>
    match s.worker with
    | .drop r => some { s with worker := .finish r, queue := [] }
    | _ => none
  | .finish =>
    match s.worker with
    | .finish (.ok c) => some { s with worker := .sent (c.finish sha256) }
    | .finish (.error reason) => some { s with worker := .sent (.error reason) }
    | _ => none

/-! ## What one step does -/

/-- Every step there is, with what it needs and what it leaves. -/
inductive Stepped (s : Offload δ) : Act → Offload δ → Prop
  | read {chunk : Bytes} {rest : List Bytes} (hp : s.poll = .start) (hn : s.pending = none)
      (hi : s.inner = chunk :: rest) : Stepped s .read { s with pending := some chunk, inner := rest }
  | eof (hp : s.poll = .start) (hn : s.pending = none) (hi : s.inner = []) :
      Stepped s .read { s with poll := .verdict }
  | reserve {chunk : Bytes} (hp : s.poll = .start) (hn : s.pending = some chunk)
      (ho : s.worker.isOpen = true) : Stepped s .reserve { s with pending := none, poll := .send chunk }
  | reserveClosed {chunk : Bytes} (hp : s.poll = .start) (hn : s.pending = some chunk)
      (ho : s.worker.isOpen = false) : Stepped s .reserve { s with pending := none, poll := .verdict }
  | send {chunk : Bytes} (hp : s.poll = .send chunk) (ho : s.worker.isOpen = true) :
      Stepped s .send { s with
        queue := s.queue ++ [chunk], passed := s.passed ++ [chunk], poll := .start }
  | sendLost {chunk : Bytes} (hp : s.poll = .send chunk) (ho : s.worker.isOpen = false) :
      Stepped s .send { s with passed := s.passed ++ [chunk], poll := .start }
  | sendClosed {chunk : Bytes} (hp : s.poll = .send chunk) (ho : s.worker.isOpen = false) :
      Stepped s .sendClosed { s with poll := .verdict }
  | accepted (hp : s.poll = .verdict) (hw : s.worker = .sent (.ok ())) :
      Stepped s .verdict { s with poll := .ended none, outcome := some .accepted }
  | refused {reason : String} (hp : s.poll = .verdict) (hw : s.worker = .sent (.error reason)) :
      Stepped s .verdict { s with
        poll := .ended (some reason), outcome := some (.refused reason) }
  | recv {c : Checker δ} {chunk : Bytes} {queue : List Bytes} (hw : s.worker = .recv c)
      (hq : s.queue = chunk :: queue) :
      Stepped s .recv { s with worker := .feed c chunk, queue := queue }
  | recvNone {c : Checker δ} (hw : s.worker = .recv c) (hq : s.queue = [])
      (hgone : s.poll.txGone = true) : Stepped s .recv { s with worker := .drop (.ok c) }
  | feed {c c' : Checker δ} {chunk : Bytes} (hw : s.worker = .feed c chunk)
      (hf : c.feed z chunk = .ok c') : Stepped s .feed { s with worker := .recv c' }
  | feedBad {c : Checker δ} {chunk : Bytes} {reason : String} (hw : s.worker = .feed c chunk)
      (hf : c.feed z chunk = .error reason) :
      Stepped s .feed { s with worker := .drop (.error reason) }
  | drop {r : Except String (Checker δ)} (hw : s.worker = .drop r) :
      Stepped s .drop { s with worker := .finish r, queue := [] }
  | finish {c : Checker δ} (hw : s.worker = .finish (.ok c)) :
      Stepped s .finish { s with worker := .sent (c.finish sha256) }
  | finishBad {reason : String} (hw : s.worker = .finish (.error reason)) :
      Stepped s .finish { s with worker := .sent (.error reason) }

variable {z} {sha256}

theorem step_cases {s s' : Offload δ} {a : Act} (h : s.step z sha256 a = some s') :
    Stepped z sha256 s a s' := by
  cases a with
  | read =>
    simp only [step] at h
    split at h
    · rename_i chunk rest hp hn hi
      obtain rfl := Option.some.inj h
      exact .read hp hn hi
    · rename_i hp hn hi
      obtain rfl := Option.some.inj h
      exact .eof hp hn hi
    · exact absurd h (by simp)
  | reserve =>
    simp only [step] at h
    split at h
    · rename_i chunk hp hn
      split at h
      · rename_i ho
        split at h
        · obtain rfl := Option.some.inj h
          exact .reserve hp hn ho
        · exact absurd h (by simp)
      · rename_i ho
        obtain rfl := Option.some.inj h
        exact .reserveClosed hp hn (by simpa using ho)
    · exact absurd h (by simp)
  | send =>
    simp only [step] at h
    split at h
    · rename_i chunk hp
      obtain rfl := Option.some.inj h
      cases ho : s.worker.isOpen with
      | true => exact .send hp ho
      | false => exact .sendLost hp ho
    · exact absurd h (by simp)
  | sendClosed =>
    simp only [step] at h
    split at h
    · rename_i chunk hp
      split at h
      · exact absurd h (by simp)
      · rename_i ho
        obtain rfl := Option.some.inj h
        exact .sendClosed hp (by simpa using ho)
    · exact absurd h (by simp)
  | verdict =>
    simp only [step] at h
    split at h
    · rename_i hp hw
      obtain rfl := Option.some.inj h
      exact .accepted hp hw
    · rename_i reason hp hw
      obtain rfl := Option.some.inj h
      exact .refused hp hw
    · exact absurd h (by simp)
  | recv =>
    simp only [step] at h
    split at h
    · rename_i c chunk queue hw hq
      obtain rfl := Option.some.inj h
      exact .recv hw hq
    · rename_i c hw hq
      split at h
      · rename_i hgone
        obtain rfl := Option.some.inj h
        exact .recvNone hw hq hgone
      · exact absurd h (by simp)
    · exact absurd h (by simp)
  | feed =>
    simp only [step] at h
    split at h
    · rename_i c chunk hw
      split at h
      · rename_i c' hf
        obtain rfl := Option.some.inj h
        exact .feed hw hf
      · rename_i reason hf
        obtain rfl := Option.some.inj h
        exact .feedBad hw hf
    · exact absurd h (by simp)
  | drop =>
    simp only [step] at h
    split at h
    · rename_i r hw
      obtain rfl := Option.some.inj h
      exact .drop hw
    · exact absurd h (by simp)
  | finish =>
    simp only [step] at h
    split at h
    · rename_i c hw
      obtain rfl := Option.some.inj h
      exact .finish hw
    · rename_i reason hw
      obtain rfl := Option.some.inj h
      exact .finishBad hw
    · exact absurd h (by simp)

/-! ## Every byte passed on is under check -/

/-- What a loop that was left says about the chunks passed on: some of them are refused, or all of
them were fed, and there are no more (`gone`). -/
def Settles (z : Zstd δ) (c₀ : Checker δ) (passed : List Bytes) (gone : Bool) :
    Except String (Checker δ) → Prop
  | .error reason => ∃ w, w <+: passed ∧ c₀.feedAll z w = .error reason
  | .ok c => c₀.feedAll z passed = .ok c ∧ gone = true

/-- The thread has fed the chunks passed on, but for the one it holds and those in the queue. -/
def Tracks (z : Zstd δ) (sha256 : Bytes → Bytes) (c₀ : Checker δ) (s : Offload δ) : Prop :=
  match s.worker with
  | .recv c => ∃ w, c₀.feedAll z w = .ok c ∧ w ++ s.queue = s.passed
  | .feed c chunk => ∃ w, c₀.feedAll z w = .ok c ∧ w ++ chunk :: s.queue = s.passed
  | .drop r => Settles z c₀ s.passed s.poll.txGone r
  | .finish r => Settles z c₀ s.passed s.poll.txGone r
  | .sent v => ∃ r, Settles z c₀ s.passed s.poll.txGone r ∧
      v = match r with
        | .ok c => c.finish sha256
        | .error reason => .error reason

/-- Where the chunks are: passed on, at hand, or to come. Only a closed queue stops the stream
before its end, and then a chunk that was passed on is refused. -/
def Streams (z : Zstd δ) (sha256 : Bytes → Bytes) (c₀ : Checker δ) (chunks : List Bytes)
    (s : Offload δ) : Prop :=
  match s.poll with
  | .start => s.outcome = none ∧ s.passed ++ (s.pending.toList ++ s.inner) = chunks
  | .send chunk => s.outcome = none ∧ s.pending = none ∧ s.passed ++ chunk :: s.inner = chunks
  | .verdict => s.outcome = none ∧ (s.passed = chunks ∨
      s.passed <+: chunks ∧ ∃ w reason, w <+: s.passed ∧ c₀.feedAll z w = .error reason)
  | .ended error => s.outcome = some (.of (c₀.verdict z sha256 chunks)) ∧
      (error = none → s.outcome = some .accepted) ∧
      (s.outcome = some .accepted → s.passed = chunks)

/-- The invariant of the protocol. -/
structure Inv (z : Zstd δ) (sha256 : Bytes → Bytes) (c₀ : Checker δ) (chunks : List Bytes)
    (s : Offload δ) : Prop where
  tracks : s.Tracks z sha256 c₀
  streams : s.Streams z sha256 c₀ chunks

theorem inv_start (chunks : List Bytes) (hash : String) (size : Int) :
    Inv z sha256 (.new z hash size) chunks (start z chunks hash size) :=
  ⟨⟨[], rfl, rfl⟩, rfl, rfl⟩

section

variable {c₀ : Checker δ} {chunks passed : List Bytes} {r : Except String (Checker δ)}

theorem Settles.of_gone {gone : Bool} (h : Settles z c₀ passed gone r) :
    Settles z c₀ passed true r := by
  cases r with
  | error reason => exact h
  | ok c => exact ⟨h.1, rfl⟩

/-- While chunks are still sent, a loop that was left has refused one. -/
theorem Settles.refused (h : Settles z c₀ passed false r) :
    ∃ reason w, r = .error reason ∧ w <+: passed ∧ c₀.feedAll z w = .error reason := by
  cases r with
  | error reason =>
    obtain ⟨w, hw, hf⟩ := h
    exact ⟨reason, w, rfl, hw, hf⟩
  | ok c => exact absurd h.2 (by simp)

theorem Settles.push (h : Settles z c₀ passed false r) (chunk : Bytes) :
    Settles z c₀ (passed ++ [chunk]) false r := by
  obtain ⟨reason, w, rfl, hw, hf⟩ := h.refused
  exact ⟨w, hw.trans (List.prefix_append _ _), hf⟩

/-- The task's own steps, where nothing is passed on. -/
theorem Tracks.of_poll {s s' : Offload δ} (h : s.Tracks z sha256 c₀) (hw : s'.worker = s.worker)
    (hq : s'.queue = s.queue) (hp : s'.passed = s.passed)
    (hg : s'.poll.txGone = s.poll.txGone ∨ s'.poll.txGone = true) : s'.Tracks z sha256 c₀ := by
  have hset : ∀ r, Settles z c₀ s.passed s.poll.txGone r →
      Settles z c₀ s'.passed s'.poll.txGone r := by
    intro r hr
    rcases hg with hg | hg
    · rw [hp, hg]
      exact hr
    · rw [hp, hg]
      exact hr.of_gone
  unfold Tracks at h ⊢
  rw [hw]
  cases hwk : s.worker with
  | recv c => rw [hwk] at h; rw [hq, hp]; exact h
  | feed c chunk => rw [hwk] at h; rw [hq, hp]; exact h
  | drop r => rw [hwk] at h; exact hset r h
  | finish r => rw [hwk] at h; exact hset r h
  | sent v =>
    rw [hwk] at h
    obtain ⟨r, hr, hv⟩ := h
    exact ⟨r, hset r hr, hv⟩

/-- A chunk sent into an open queue. -/
theorem Tracks.push {s : Offload δ} (h : s.Tracks z sha256 c₀) {chunk : Bytes}
    (hp : s.poll = .send chunk) (ho : s.worker.isOpen = true) :
    Tracks z sha256 c₀ { s with
      queue := s.queue ++ [chunk], passed := s.passed ++ [chunk], poll := .start } := by
  have hg : s.poll.txGone = false := by rw [hp]; rfl
  unfold Tracks at h ⊢
  cases hwk : s.worker with
  | recv c =>
    rw [hwk] at h
    obtain ⟨w, hw, hq⟩ := h
    exact ⟨w, hw, by simp [← hq]⟩
  | feed c x =>
    rw [hwk] at h
    obtain ⟨w, hw, hq⟩ := h
    exact ⟨w, hw, by simp [← hq]⟩
  | drop r =>
    rw [hwk, hg] at h
    exact h.push chunk
  | finish r => rw [hwk] at ho; exact absurd ho (by simp [Worker.isOpen])
  | sent v => rw [hwk] at ho; exact absurd ho (by simp [Worker.isOpen])

/-- A chunk sent after the queue was closed: it is lost, and the verdict is there already. -/
theorem Tracks.pushLost {s : Offload δ} (h : s.Tracks z sha256 c₀) {chunk : Bytes}
    (hp : s.poll = .send chunk) (ho : s.worker.isOpen = false) :
    Tracks z sha256 c₀ { s with passed := s.passed ++ [chunk], poll := .start } := by
  have hg : s.poll.txGone = false := by rw [hp]; rfl
  unfold Tracks at h ⊢
  cases hwk : s.worker with
  | recv c => rw [hwk] at ho; exact absurd ho (by simp [Worker.isOpen])
  | feed c x => rw [hwk] at ho; exact absurd ho (by simp [Worker.isOpen])
  | drop r => rw [hwk] at ho; exact absurd ho (by simp [Worker.isOpen])
  | finish r =>
    rw [hwk, hg] at h
    exact h.push chunk
  | sent v =>
    rw [hwk, hg] at h
    obtain ⟨r, hr, hv⟩ := h
    exact ⟨r, hr.push chunk, hv⟩

/-- A queue that is closed while chunks are sent was closed by a refusal. -/
theorem Tracks.closed {s : Offload δ} (h : s.Tracks z sha256 c₀) (hg : s.poll.txGone = false)
    (ho : s.worker.isOpen = false) :
    ∃ w reason, w <+: s.passed ∧ c₀.feedAll z w = .error reason := by
  unfold Tracks at h
  cases hwk : s.worker with
  | recv c => rw [hwk] at ho; exact absurd ho (by simp [Worker.isOpen])
  | feed c x => rw [hwk] at ho; exact absurd ho (by simp [Worker.isOpen])
  | drop r => rw [hwk] at ho; exact absurd ho (by simp [Worker.isOpen])
  | finish r =>
    rw [hwk, hg] at h
    obtain ⟨reason, w, -, hw, hf⟩ := h.refused
    exact ⟨w, reason, hw, hf⟩
  | sent v =>
    rw [hwk, hg] at h
    obtain ⟨r, hr, -⟩ := h
    obtain ⟨reason, w, -, hw, hf⟩ := hr.refused
    exact ⟨w, reason, hw, hf⟩

/-- **The verdict that was sent is the verdict of the whole stream.** -/
theorem Inv.verdict_eq {s : Offload δ} (h : Inv z sha256 c₀ chunks s) (hp : s.poll = .verdict)
    {v : Except String Unit} (hw : s.worker = .sent v) :
    v = c₀.verdict z sha256 chunks ∧ (v = .ok () → s.passed = chunks) ∧ s.outcome = none := by
  have ht := h.tracks
  have hs := h.streams
  unfold Tracks at ht
  unfold Streams at hs
  rw [hw] at ht
  rw [hp] at hs
  obtain ⟨r, hr, rfl⟩ := ht
  obtain ⟨hout, hall⟩ := hs
  have hpre : s.passed <+: chunks := by
    rcases hall with he | ⟨hpre, -⟩
    · exact he ▸ List.prefix_refl _
    · exact hpre
  cases r with
  | error reason =>
    obtain ⟨w, hw, hf⟩ := hr
    refine ⟨?_, by simp, hout⟩
    rw [Checker.verdict, Checker.feedAll_error hf (hw.trans hpre)]
  | ok c =>
    have hchunks : s.passed = chunks := by
      rcases hall with he | ⟨-, w, reason, hw, hf⟩
      · exact he
      · have := Checker.feedAll_error hf hw
        rw [hr.1] at this
        exact absurd this (by simp)
    refine ⟨?_, fun _ => hchunks, hout⟩
    rw [Checker.verdict, ← hchunks, hr.1]

/-- **Every step keeps the invariant.** -/
theorem inv_step {s s' : Offload δ} {a : Act} (h : Inv z sha256 c₀ chunks s)
    (hs : s.step z sha256 a = some s') : Inv z sha256 c₀ chunks s' := by
  have ht := h.tracks
  have hst := h.streams
  cases step_cases hs with
  | read hp hn hi =>
    refine ⟨ht.of_poll rfl rfl rfl (Or.inl rfl), ?_⟩
    unfold Streams at hst ⊢
    simp only [hp] at hst ⊢
    rw [hn, hi] at hst
    simpa using hst
  | eof hp hn hi =>
    refine ⟨ht.of_poll rfl rfl rfl (Or.inr rfl), ?_⟩
    unfold Streams at hst
    simp only [hp] at hst
    rw [hn, hi] at hst
    exact ⟨hst.1, Or.inl (by simpa using hst.2)⟩
  | reserve hp hn ho =>
    refine ⟨ht.of_poll rfl rfl rfl (Or.inl (by rw [hp]; rfl)), ?_⟩
    unfold Streams at hst
    simp only [hp] at hst
    rw [hn] at hst
    exact ⟨hst.1, rfl, by simpa using hst.2⟩
  | reserveClosed hp hn ho =>
    have hbad := ht.closed (by rw [hp]; rfl) ho
    refine ⟨ht.of_poll rfl rfl rfl (Or.inr rfl), ?_⟩
    unfold Streams at hst
    simp only [hp] at hst
    exact ⟨hst.1, Or.inr ⟨⟨_, hst.2⟩, hbad⟩⟩
  | send hp ho =>
    refine ⟨ht.push hp ho, ?_⟩
    unfold Streams at hst
    simp only [hp] at hst
    obtain ⟨hout, hnone, hchunks⟩ := hst
    exact ⟨hout, by simp [hnone, ← hchunks]⟩
  | sendLost hp ho =>
    refine ⟨ht.pushLost hp ho, ?_⟩
    unfold Streams at hst
    simp only [hp] at hst
    obtain ⟨hout, hnone, hchunks⟩ := hst
    exact ⟨hout, by simp [hnone, ← hchunks]⟩
  | sendClosed hp ho =>
    have hbad := ht.closed (by rw [hp]; rfl) ho
    refine ⟨ht.of_poll rfl rfl rfl (Or.inr rfl), ?_⟩
    unfold Streams at hst
    simp only [hp] at hst
    exact ⟨hst.1, Or.inr ⟨⟨_, hst.2.2⟩, hbad⟩⟩
  | accepted hp hw =>
    obtain ⟨hv, hpass, -⟩ := h.verdict_eq hp hw
    refine ⟨ht.of_poll rfl rfl rfl (Or.inr rfl), ?_⟩
    exact ⟨by rw [← hv]; rfl, fun _ => rfl, fun _ => hpass rfl⟩
  | refused hp hw =>
    obtain ⟨hv, -, -⟩ := h.verdict_eq hp hw
    refine ⟨ht.of_poll rfl rfl rfl (Or.inr rfl), ?_⟩
    exact ⟨by rw [← hv]; rfl, by simp, by simp⟩
  | recv hw hq =>
    refine ⟨?_, hst⟩
    unfold Tracks at ht
    rw [hw, hq] at ht
    exact ht
  | recvNone hw hq hgone =>
    refine ⟨?_, hst⟩
    unfold Tracks at ht
    rw [hw, hq] at ht
    obtain ⟨w, hf, hp⟩ := ht
    rw [List.append_nil] at hp
    exact ⟨hp ▸ hf, hgone⟩
  | feed hw hf =>
    refine ⟨?_, hst⟩
    unfold Tracks at ht
    rw [hw] at ht
    obtain ⟨w, hfed, hp⟩ := ht
    exact ⟨w ++ [_], (Checker.feedAll_snoc hfed _).trans hf, by simpa using hp⟩
  | feedBad hw hf =>
    refine ⟨?_, hst⟩
    unfold Tracks at ht
    rw [hw] at ht
    obtain ⟨w, hfed, hp⟩ := ht
    exact ⟨w ++ [_], ⟨_, by simpa using hp⟩, (Checker.feedAll_snoc hfed _).trans hf⟩
  | drop hw =>
    refine ⟨?_, hst⟩
    unfold Tracks at ht
    rw [hw] at ht
    exact ht
  | finish hw =>
    refine ⟨?_, hst⟩
    unfold Tracks at ht
    rw [hw] at ht
    exact ⟨_, ht, rfl⟩
  | finishBad hw =>
    refine ⟨?_, hst⟩
    unfold Tracks at ht
    rw [hw] at ht
    exact ⟨_, ht, rfl⟩

/-! ## Every run ends -/

/-- What is left to do at the worker. -/
def workerCost : Worker δ → ℕ
  | .recv _ => 3
  | .feed _ _ => 4
  | .drop _ => 2
  | .finish _ => 1
  | .sent _ => 0

/-- What is left to do at the task. -/
def pollCost : Poll → ℕ
  | .start => 2
  | .send _ => 5
  | .verdict => 1
  | .ended _ => 0

/-- A bound on the steps left: five for a chunk that is still to come. -/
def cost (s : Offload δ) : ℕ :=
  5 * s.inner.length + 4 * s.pending.toList.length + 2 * s.queue.length + workerCost s.worker +
    pollCost s.poll

theorem cost_step {s s' : Offload δ} {a : Act} (hs : s.step z sha256 a = some s') :
    s'.cost < s.cost := by
  unfold cost
  cases step_cases hs with
  | read hp hn hi => simp [hn, hi, hp, pollCost]; omega
  | eof hp hn hi => simp [hn, hi, hp, pollCost]
  | reserve hp hn ho => simp [hn, hp, pollCost]; omega
  | reserveClosed hp hn ho =>
    simp only [hn, hp, pollCost, Option.toList_some, Option.toList_none, List.length_singleton,
      List.length_nil]
    omega
  | send hp ho => simp [hp, pollCost]; omega
  | sendLost hp ho => simp [hp, pollCost]
  | sendClosed hp ho => simp [hp, pollCost]
  | accepted hp hw => simp [hp, pollCost]
  | refused hp hw => simp [hp, pollCost]
  | recv hw hq => simp [hw, hq, workerCost]; omega
  | recvNone hw hq hgone => simp [hw, workerCost]
  | feed hw hf => simp [hw, workerCost]
  | feedBad hw hf => simp [hw, workerCost]
  | drop hw =>
    simp only [hw, workerCost, List.length_nil]
    omega
  | finish hw => simp [hw, workerCost]
  | finishBad hw => simp [hw, workerCost]

/-- **No run is longer than the cost of its start.** -/
theorem length_le_cost : ∀ {acts : List Act} {s s' : Offload δ},
    exec (step z sha256) (fun _ _ => True) acts s = some s' → acts.length + s'.cost ≤ s.cost := by
  intro acts
  induction acts with
  | nil =>
    intro s s' h
    obtain rfl := Option.some.inj h
    simp
  | cons a acts ih =>
    intro s s' h
    simp only [exec, if_true] at h
    split at h
    · rename_i t ht
      have h1 := cost_step ht
      have h2 := ih h
      rw [List.length_cons]
      omega
    · exact absurd h (by simp)

/-- The thread can go on, unless it waits for a chunk or has sent its verdict. -/
theorem worker_enabled (s : Offload δ) :
    (∃ a s', s.step z sha256 a = some s') ∨
      (∃ c, s.worker = .recv c ∧ s.queue = [] ∧ s.poll.txGone = false) ∨ ∃ v, s.worker = .sent v := by
  cases hw : s.worker with
  | recv c =>
    cases hq : s.queue with
    | nil =>
      cases hg : s.poll.txGone with
      | true => exact Or.inl ⟨.recv, _, by simp [step, hw, hq, hg]; rfl⟩
      | false => exact Or.inr (Or.inl ⟨c, rfl, rfl, rfl⟩)
    | cons chunk queue => exact Or.inl ⟨.recv, _, by simp [step, hw, hq]; rfl⟩
  | feed c chunk =>
    left
    cases hf : c.feed z chunk with
    | ok c' => exact ⟨.feed, _, by simp [step, hw, hf]; rfl⟩
    | error reason => exact ⟨.feed, _, by simp [step, hw, hf]; rfl⟩
  | drop r => exact Or.inl ⟨.drop, _, by simp [step, hw]; rfl⟩
  | finish r =>
    left
    cases r with
    | ok c => exact ⟨.finish, _, by simp [step, hw]; rfl⟩
    | error reason => exact ⟨.finish, _, by simp [step, hw]; rfl⟩
  | sent v => exact Or.inr (Or.inr ⟨v, rfl⟩)

/-- **No state before the outcome is stuck.** -/
theorem enabled {s : Offload δ} (h : Inv z sha256 c₀ chunks s) (hout : s.outcome = none) :
    ∃ a s', s.step z sha256 a = some s' := by
  cases hp : s.poll with
  | start =>
    cases hn : s.pending with
    | none =>
      cases hi : s.inner with
      | nil => exact ⟨.read, _, by simp [step, hp, hn, hi]; rfl⟩
      | cons chunk rest => exact ⟨.read, _, by simp [step, hp, hn, hi]; rfl⟩
    | some chunk =>
      -- the slot is free, or the queue is closed, or the thread goes on
      rcases worker_enabled s with hstep | ⟨c, hw, hq, -⟩ | ⟨v, hw⟩
      · exact hstep
      · exact ⟨.reserve, _, by simp [step, hp, hn, hw, hq, Worker.isOpen, offloadDepth]; rfl⟩
      · exact ⟨.reserve, _, by simp [step, hp, hn, hw, Worker.isOpen]; rfl⟩
  | send chunk => exact ⟨.send, _, by simp [step, hp]; rfl⟩
  | verdict =>
    rcases worker_enabled s with hstep | ⟨c, -, -, hg⟩ | ⟨v, hw⟩
    · exact hstep
    · rw [hp] at hg
      exact absurd hg (by simp [Poll.txGone])
    · cases v with
      | ok u => exact ⟨.verdict, _, by simp [step, hp, hw]; rfl⟩
      | error reason => exact ⟨.verdict, _, by simp [step, hp, hw]; rfl⟩
  | ended error =>
    have hst := h.streams
    unfold Streams at hst
    simp only [hp] at hst
    rw [hst.1] at hout
    exact absurd hout (by simp)

end

end

/-- **The engines agree.** Whatever the interleaving of the request's task and the check thread:
a run of the offloaded engine over `chunks` has at most `5 * chunks.length + 5` steps, and none is
stuck before its outcome; the outcome is the inline engine's, `Accepted` or `Refused` with its
reason; EOF comes with the verdict only; and when that is `Accepted` both engines have passed on
every chunk, in order. The stream that stands for the offloaded one between two chunks agrees
too. -/
theorem engines_agree (z : Zstd δ) (sha256 : Bytes → Bytes) (chunks : List Bytes) (hash : String)
    (size : Int) (sched : ℕ → Sched) (hs : ∀ n, (sched n).dies = false) :
    ∃ outcome passed,
      (VerifiedNar.withOffload z (chunks.map .ok) hash size false).drain z sha256 sched
        (chunks.length + 1) = (passed, some outcome) ∧
      (outcome = .accepted ∧ passed = chunks ∨ ∃ reason, outcome = .refused reason) ∧
      ((VerifiedNar.withOffload z (chunks.map .ok) hash size true).drain z sha256 sched
        (chunks.length + 1)).2 = some outcome ∧
      ∀ acts s, exec (step z sha256) (fun _ _ => True) acts (start z chunks hash size) = some s →
        acts.length ≤ 5 * chunks.length + 5 ∧
        (s.outcome = none → ∃ a s', s.step z sha256 a = some s') ∧
        (s.outcome = none ∨ s.outcome = some outcome) ∧
        (s.poll = .ended none → s.outcome = some .accepted) ∧
        (s.outcome = some .accepted → s.passed = chunks) := by
  have hinline : Ends ((Checker.new z hash size).verdict z sha256 chunks) chunks
      ((VerifiedNar.withOffload z (chunks.map .ok) hash size false).drain z sha256 sched
        (chunks.length + 1)) := VerifiedNar.drain_inline sched chunks _
  have hoff : Ends ((Checker.new z hash size).verdict z sha256 ([] ++ chunks)) chunks
      ((VerifiedNar.withOffload z (chunks.map .ok) hash size true).drain z sha256 sched
        (chunks.length + 1)) := VerifiedNar.drain_offload hs chunks [] _
  rw [List.nil_append] at hoff
  refine ⟨.of ((Checker.new z hash size).verdict z sha256 chunks), _,
    Prod.ext rfl hinline.1, ?_, hoff.1, fun acts s hrun => ?_⟩
  · cases hv : (Checker.new z hash size).verdict z sha256 chunks with
    | ok u => exact Or.inl ⟨rfl, hinline.2 hv⟩
    | error reason => exact Or.inr ⟨reason, rfl⟩
  · have hinv : Inv z sha256 (.new z hash size) chunks s :=
      (exec_reach hrun).invariant (fun _ _ _ hi _ hstep => inv_step hi hstep)
        (inv_start chunks hash size)
    have hst := hinv.streams
    unfold Streams at hst
    refine ⟨?_, enabled hinv, ?_, fun hp => ?_, fun hacc => ?_⟩
    · have hlen := length_le_cost hrun
      have hcost : (start z chunks hash size).cost = 5 * chunks.length + 5 := rfl
      omega
    · cases hp : s.poll with
      | start => rw [hp] at hst; exact Or.inl hst.1
      | send chunk => rw [hp] at hst; exact Or.inl hst.1
      | verdict => rw [hp] at hst; exact Or.inl hst.1
      | ended error => rw [hp] at hst; exact Or.inr hst.1
    · rw [hp] at hst
      exact hst.2.1 rfl
    · cases hp : s.poll with
      | start => rw [hp] at hst; rw [hst.1] at hacc; exact absurd hacc (by simp)
      | send chunk => rw [hp] at hst; rw [hst.1] at hacc; exact absurd hacc (by simp)
      | verdict => rw [hp] at hst; rw [hst.1] at hacc; exact absurd hacc (by simp)
      | ended error => rw [hp] at hst; exact hst.2.2 hacc

/-- An interleaving over three chunks, the thread one chunk behind the task. -/
def sampleActs : List Act :=
  [.read, .reserve, .send, .read, .recv, .reserve, .send, .feed, .read, .recv, .reserve, .send,
    .feed, .read, .recv, .feed, .recv, .drop, .finish, .verdict]

/-- The example's blob in three chunks is accepted on that interleaving. -/
theorem engines_agree_sample : ∃ s, exec (step Sample.zstd Sample.sha256) (fun _ _ => True)
      sampleActs (start Sample.zstd [Sample.frame.take 4, [], Sample.frame.drop 4]
        Sample.preamble.narHash 6) = some s ∧
    s.outcome = some .accepted ∧ s.passed.flatten = Sample.frame := by
  obtain ⟨outcome, passed, -, -, -, hruns⟩ := engines_agree Sample.zstd Sample.sha256
    [Sample.frame.take 4, [], Sample.frame.drop 4] Sample.preamble.narHash 6 (fun _ => ⟨0, false⟩)
    (fun _ => rfl)
  obtain ⟨s, hrun, hacc⟩ := exec_end (step Sample.zstd Sample.sha256) (fun _ _ => True) sampleActs
    (start Sample.zstd [Sample.frame.take 4, [], Sample.frame.drop 4] Sample.preamble.narHash 6)
    (fun s => s.outcome = some .accepted) (by decide +kernel)
  obtain ⟨-, -, -, -, hpassed⟩ := hruns _ s hrun
  refine ⟨s, hrun, hacc, ?_⟩
  rw [hpassed hacc]
  decide +kernel

end Offload

end Garret
