import Garret.Common
import Mathlib.Tactic.Push

/-!
# The NAR check

Model of `crates/garret-pusher/src/verify.rs`: the check that decompresses and hashes the body as
it passes (`Checker`), and the stream that carries the body through it (`VerifiedNar`), inline or
on a thread of its own behind a bounded queue.

* The zstd decoder is a parameter (`Zstd`) with the documented behaviour of its streaming call:
  what it consumed and produced so far, and that a call returning 0 ends a frame with everything
  flushed. `expands` is the format's own bound: a block is at least a byte and at most 128 KiB of
  output.
* sha256 is a function of the whole input; a hasher is the input so far.
* A `Sched` says what the check thread does before a chunk is handed over: how many queued chunks
  it takes, and whether it dies.

`next_cases` is all a poll can do: pass the next chunk on with every byte so far under check, end
the stream with outcome `Accepted` once the whole body checks, or fail with another outcome.
-/

namespace Garret

/-- Two's complement: the `i64` a wrapping addition leaves. -/
def wrapI64 (n : Int) : Int := n.bmod (2 ^ 64)

theorem wrapI64_of_lt {n : ℕ} (h : n < 2 ^ 63) : wrapI64 n = n := by
  unfold wrapI64
  exact Int.bmod_eq_of_le (by omega) (by omega)

theorem wrapI64_add (a b : Int) : wrapI64 (wrapI64 a + b) = wrapI64 (a + b) :=
  Int.bmod_add_bmod

/-! ## The decoder -/

/-- What one call of `Decoder::run` did: its state, the input it took, its output, and the return
value. -/
structure Ran (δ : Type) where
  state : δ
  consumed : ℕ
  out : Bytes
  hint : ℕ

/-- The streaming zstd decoder. `At d x y`: in state `d` it has consumed `x` and produced `y`.
`Whole x y`: `x` is whole frames that decompress to `y`. -/
structure Zstd (δ : Type) where
  init : δ
  run : δ → Bytes → ℕ → Except String (Ran δ)
  compressBound : ℕ → ℕ
  At : δ → Bytes → Bytes → Prop
  Whole : Bytes → Bytes → Prop
  at_init : At init [] []
  run_at : ∀ {d x y src room r}, At d x y → run d src room = .ok r →
    r.consumed ≤ src.length ∧ At r.state (x ++ src.take r.consumed) (y ++ r.out)
  run_whole : ∀ {d x y src room r}, At d x y → run d src room = .ok r →
    0 < r.consumed ∨ r.out ≠ [] → r.hint = 0 → Whole (x ++ src.take r.consumed) (y ++ r.out)
  expands : ∀ {x y}, Whole x y → y.length ≤ 2 ^ 17 * x.length

/-! ## `Checker` -/

/-- `COMPRESSED_SLACK`. -/
def compressedSlack : ℕ := 64 * 1024

/-- `SCRATCH`. -/
def scratch : ℕ := 128 * 1024

/-- `OFFLOAD_MIN`. -/
def offloadMin : Int := 4 * 1024 * 1024

/-- `OFFLOAD_DEPTH`. -/
def offloadDepth : ℕ := 8

/-- `usize::saturating_add`. -/
def satAdd (a b : ℕ) : ℕ := min (a + b) (2 ^ 64 - 1)

section

variable {δ : Type} (z : Zstd δ) (sha256 : Bytes → Bytes)

/-- `max_compressed_len`. -/
def maxCompressedLen (claimedSize : Int) : ℕ :=
  satAdd (z.compressBound (max claimedSize 0).toNat) compressedSlack

/-- The NarHash/NarSize check; `hashed` is the hasher's input so far. -/
structure Checker (δ : Type) where
  decoder : δ
  hashed : Bytes
  narSize : Int
  compressed : ℕ
  maxCompressed : ℕ
  frameDone : Bool
  claimedHash : String
  claimedSize : Int

/-- `Checker::new`. -/
def Checker.new (claimedHash : String) (claimedSize : Int) : Checker δ where
  decoder := z.init
  hashed := []
  narSize := 0
  compressed := 0
  maxCompressed := maxCompressedLen z claimedSize
  frameDone := false
  claimedHash := claimedHash
  claimedSize := claimedSize

/-- The loop of `feed` over the rest of a chunk. Every call but the last consumes input or fills the
buffer, so the bytes left and the claim left bound the calls. -/
def feedLoop : ℕ → Checker δ → Bytes → Except String (Checker δ)
  | 0, _, _ => .error "NAR is not a valid zstd stream: no forward progress"
  | fuel + 1, c, src =>
    match z.run c.decoder src scratch with
    | .error e => .error ("NAR is not a valid zstd stream: " ++ e)
    | .ok r =>
      let narSize := wrapI64 (c.narSize + r.out.length)
      if c.claimedSize < narSize then
        .error ("NAR is larger than its claimed NarSize " ++ toString c.claimedSize)
      else
        let c := { c with
          decoder := r.state
          narSize := narSize
          hashed := c.hashed ++ r.out
          -- an idle call at a frame boundary says nothing about the frame
          frameDone := if 0 < r.consumed ∨ r.out ≠ [] then r.hint == 0 else c.frameDone }
        let src := src.drop r.consumed
        if src = [] ∧ r.out.length < scratch then .ok c else feedLoop fuel c src

/-- `Checker::feed`. -/
def Checker.feed (c : Checker δ) (chunk : Bytes) : Except String (Checker δ) :=
  let compressed := satAdd c.compressed chunk.length
  if c.maxCompressed < compressed then
    .error ("compressed body exceeds " ++ toString c.maxCompressed ++
      " bytes, the zstd bound for the claimed NarSize " ++ toString c.claimedSize)
  else feedLoop z (chunk.length + (c.claimedSize - c.narSize).toNat + 2)
    { c with compressed := compressed } chunk

/-- `Checker::finish`. -/
def Checker.finish (c : Checker δ) : Except String Unit :=
  if c.frameDone = false then .error "NAR stream ended mid-frame"
  else if c.narSize ≠ c.claimedSize then
    .error ("NarSize is " ++ toString c.narSize ++ ", not the claimed " ++ toString c.claimedSize)
  else
    let hash := sha256Nix32 (sha256 c.hashed)
    if hash ≠ c.claimedHash then
      .error ("NarHash is " ++ hash ++ ", not the claimed " ++ c.claimedHash)
    else .ok ()

/-- The check after the body bytes `x`: the output so far is hashed and counted, and a finished
frame is whole. -/
structure Checker.After (c : Checker δ) (hash : String) (size : Int) (x : Bytes) : Prop where
  at_ : z.At c.decoder x c.hashed
  narSize : c.narSize = wrapI64 c.hashed.length
  whole : c.frameDone = true → z.Whole x c.hashed
  claimedHash : c.claimedHash = hash
  claimedSize : c.claimedSize = size

/-- What an accepted body is: whole frames of a NAR of the claimed size, as an `i64` counts it, and
hash. -/
def Checked (hash : String) (size : Int) (x : Bytes) : Prop :=
  ∃ nar, z.Whole x nar ∧ wrapI64 nar.length = size ∧ sha256Nix32 (sha256 nar) = hash

variable {z} {sha256} {hash : String} {size : Int}

theorem Checker.after_new : (Checker.new z hash size).After z hash size [] :=
  ⟨z.at_init, (wrapI64_of_lt (n := 0) (by decide)).symm, by simp [Checker.new], rfl, rfl⟩

theorem feedLoop_after : ∀ {fuel : ℕ} {c c' : Checker δ} {src x : Bytes},
    c.After z hash size x → feedLoop z fuel c src = .ok c' → c'.After z hash size (x ++ src)
  | 0, _, _, _, _, _, h => absurd h (by simp [feedLoop])
  | fuel + 1, c, c', src, x, hc, h => by
    simp only [feedLoop] at h
    split at h
    · exact absurd h (by simp)
    · rename_i r hr
      split at h
      · exact absurd h (by simp)
      · obtain ⟨hle, hat⟩ := z.run_at hc.at_ hr
        -- the state after this call has consumed `src.take r.consumed`
        have hnext : Checker.After z { c with
            decoder := r.state
            narSize := wrapI64 (c.narSize + r.out.length)
            hashed := c.hashed ++ r.out
            frameDone := if 0 < r.consumed ∨ r.out ≠ [] then r.hint == 0 else c.frameDone }
            hash size (x ++ src.take r.consumed) := by
          refine ⟨hat, ?_, fun hdone => ?_, hc.claimedHash, hc.claimedSize⟩
          · simp only
            rw [hc.narSize, wrapI64_add, List.length_append, Int.natCast_add]
          · simp only at hdone
            split at hdone
            · rename_i hprog
              exact z.run_whole hc.at_ hr hprog (by simpa using hdone)
            · rename_i hidle
              push Not at hidle
              have h0 : r.consumed = 0 := by omega
              have := hc.whole hdone
              simpa [h0, hidle.2] using this
        split at h
        · rename_i hend
          obtain rfl := Except.ok.inj h
          have htake : src.take r.consumed = src := by
            have := List.take_append_drop r.consumed src
            rwa [hend.1, List.append_nil] at this
          rw [htake] at hnext
          exact hnext
        · have := feedLoop_after hnext h
          rwa [List.append_assoc, List.take_append_drop] at this

/-- **One chunk**: a chunk the check takes is under check to its last byte. -/
theorem Checker.feed_after {c c' : Checker δ} {chunk x : Bytes} (hc : c.After z hash size x)
    (h : c.feed z chunk = .ok c') : c'.After z hash size (x ++ chunk) := by
  unfold Checker.feed at h
  simp only at h
  split at h
  · exact absurd h (by simp)
  · exact feedLoop_after (c := { c with compressed := satAdd c.compressed chunk.length })
      ⟨hc.at_, hc.narSize, hc.whole, hc.claimedHash, hc.claimedSize⟩ h

/-- **End of stream**: a body the check accepts is what was claimed. -/
theorem Checker.finish_checked {c : Checker δ} {x : Bytes} (hc : c.After z hash size x)
    (h : c.finish sha256 = .ok ()) : Checked z sha256 hash size x := by
  unfold Checker.finish at h
  split at h
  · exact absurd h (by simp)
  · rename_i hdone
    split at h
    · exact absurd h (by simp)
    · rename_i hsize
      simp only at h
      split at h
      · exact absurd h (by simp)
      · rename_i hhash
        push Not at hsize hhash
        refine ⟨c.hashed, hc.whole (by simpa using hdone), ?_, hhash.trans hc.claimedHash⟩
        rw [← hc.narSize, hsize, hc.claimedSize]

end

/-! ## `VerifiedNar` -/

/-- How the stream ended (`Outcome`). -/
inductive Outcome where
  /-- End of stream, and the NAR matched its claim. -/
  | accepted
  /-- The NAR does not match its claim. -/
  | refused (reason : String)
  /-- The check itself failed. -/
  | failed (reason : String)
  deriving DecidableEq, Repr

/-- The check thread and the queue in front of it. Once it has a verdict, or is dead, the queue is
closed. -/
inductive CheckThread (δ : Type) where
  | running (c : Checker δ) (queue : List Bytes)
  | verdict (v : Except String Unit)
  | dead

/-- Where the check runs (`Engine`). -/
inductive Engine (δ : Type) where
  | inline (c : Checker δ)
  | offload (t : CheckThread δ)

/-- What the check thread does while the request's task waits: how many queued chunks it takes, and
whether it dies. -/
structure Sched where
  steps : ℕ
  dies : Bool
  deriving DecidableEq, Repr

/-- The body as `VerifiedNar` sees it: chunks, or an error in place of one; the end of the list is
the end of the stream. -/
abbrev Body := List (Except String Bytes)

/-- The stream that carries the body through the check. -/
structure VerifiedNar (δ : Type) where
  inner : Body
  engine : Engine δ
  outcome : Option Outcome

section

variable {δ : Type} (z : Zstd δ) (sha256 : Bytes → Bytes)

/-- `VerifiedNar::with_offload`. -/
def VerifiedNar.withOffload (inner : Body) (claimedHash : String) (claimedSize : Int)
    (offload : Bool) : VerifiedNar δ where
  inner := inner
  engine :=
    if offload then .offload (.running (.new z claimedHash claimedSize) [])
    else .inline (.new z claimedHash claimedSize)
  outcome := none

/-- `VerifiedNar::new`: a large NAR is checked on its own thread. -/
def VerifiedNar.new (inner : Body) (claimedHash : String) (claimedSize : Int) : VerifiedNar δ where
  inner := inner
  engine :=
    if offloadMin ≤ claimedSize then .offload (.running (.new z claimedHash claimedSize) [])
    else .inline (.new z claimedHash claimedSize)
  outcome := none

/-- The thread takes one queued chunk; with none it waits. -/
def CheckThread.take : CheckThread δ → CheckThread δ
  | .running c (chunk :: queue) =>
    match c.feed z chunk with
    | .ok c => .running c queue
    | .error reason => .verdict (.error reason)
  | t => t

/-- The thread takes `n` queued chunks. -/
def CheckThread.takes : ℕ → CheckThread δ → CheckThread δ
  | 0, t => t
  | n + 1, t => CheckThread.takes n (t.take z)

/-- What `poll_reserve` waits for: the thread's own progress, and room in the queue. The chunk the
thread is at is out of the queue already, so one more waits here than the queue holds. -/
def CheckThread.reserve (o : Sched) (t : CheckThread δ) : CheckThread δ :=
  if o.dies then .dead
  else match t.takes z o.steps with
    | .running c queue =>
      if queue.length ≤ offloadDepth then .running c queue else CheckThread.take z (.running c queue)
    | t => t

/-- The rest of the queue, and then `finish`: the thread after the sender is dropped. -/
def CheckThread.close (o : Sched) (t : CheckThread δ) : CheckThread δ :=
  if o.dies then .dead
  else match t with
    | .running c queue =>
      match CheckThread.takes z queue.length (.running c queue) with
      | .running c _ => .verdict (c.finish sha256)
      | t => t
    | t => t

/-- `refuse`. -/
def VerifiedNar.refuse (nar : VerifiedNar δ) (reason : String) :
    Option (Except String Bytes) × VerifiedNar δ :=
  (some (.error reason), { nar with outcome := some (.refused reason) })

/-- `poll_verdict`, once the thread `t` is done. -/
def VerifiedNar.pollVerdict (nar : VerifiedNar δ) (t : CheckThread δ) :
    Option (Except String Bytes) × VerifiedNar δ :=
  let nar := { nar with engine := .offload t }
  match t with
  | .verdict (.ok ()) => (none, { nar with outcome := some .accepted })
  | .verdict (.error reason) => nar.refuse reason
  | _ =>
    (some (.error "NAR check thread failed"),
      { nar with outcome := some (.failed "NAR check thread failed") })

/-- `poll_next`, once it is ready. A chunk is queued before it is passed on; a closed queue means
the check has already refused the NAR. -/
def VerifiedNar.next (o : Sched) (nar : VerifiedNar δ) :
    Option (Except String Bytes) × VerifiedNar δ :=
  match nar.outcome with
  | some _ => (none, nar)
  | none =>
    match nar.inner, nar.engine with
    | .error e :: rest, _ => (some (.error e), { nar with inner := rest })
    | .ok chunk :: rest, .inline c =>
      match c.feed z chunk with
      | .ok c => (some (.ok chunk), { nar with inner := rest, engine := .inline c })
      | .error reason => { nar with inner := rest }.refuse reason
    | .ok chunk :: rest, .offload t =>
      match t.reserve z o with
      | .running c queue =>
        (some (.ok chunk),
          { nar with inner := rest, engine := .offload (.running c (queue ++ [chunk])) })
      | t => { nar with inner := rest }.pollVerdict t
    | [], .inline c =>
      match c.finish sha256 with
      | .ok () => (none, { nar with outcome := some .accepted })
      | .error reason => nar.refuse reason
    | [], .offload t => nar.pollVerdict (t.close z sha256 o)

/-! ## Every byte passed on is under check -/

/-- Every byte of `x` was fed to the check or waits in its queue. -/
def Engine.Tracks (hash : String) (size : Int) (x : Bytes) : Engine δ → Prop
  | .inline c => c.After z hash size x
  | .offload (.running c queue) => ∃ w, c.After z hash size w ∧ x = w ++ queue.flatten
  | .offload (.verdict v) => v ≠ .ok ()
  | .offload .dead => True

/-- The stream after it passed `x` on, before it ended. -/
structure VerifiedNar.Passed (nar : VerifiedNar δ) (hash : String) (size : Int) (x : Bytes) :
    Prop where
  outcome : nar.outcome = none
  engine : nar.engine.Tracks z hash size x

variable {z} {sha256} {hash : String} {size : Int}

theorem VerifiedNar.passed_new (inner : Body) :
    (VerifiedNar.new z inner hash size).Passed z hash size [] := by
  refine ⟨rfl, ?_⟩
  unfold VerifiedNar.new
  simp only
  split
  · exact ⟨[], Checker.after_new, rfl⟩
  · exact Checker.after_new

theorem CheckThread.take_tracks {t : CheckThread δ} {x : Bytes}
    (h : (Engine.offload t).Tracks z hash size x) :
    (Engine.offload (t.take z)).Tracks z hash size x := by
  cases t with
  | running c queue =>
    cases queue with
    | nil => exact h
    | cons chunk queue =>
      obtain ⟨w, hw, hx⟩ := h
      unfold CheckThread.take
      simp only
      split
      · rename_i c' hf
        exact ⟨w ++ chunk, Checker.feed_after hw hf, by simp [hx]⟩
      · simp [Engine.Tracks]
  | verdict v => exact h
  | dead => exact h

theorem CheckThread.takes_tracks : ∀ {n : ℕ} {t : CheckThread δ} {x : Bytes},
    (Engine.offload t).Tracks z hash size x → (Engine.offload (t.takes z n)).Tracks z hash size x
  | 0, _, _, h => h
  | n + 1, t, _, h => CheckThread.takes_tracks (n := n) (t := t.take z) (CheckThread.take_tracks h)

theorem CheckThread.reserve_tracks {o : Sched} {t : CheckThread δ} {x : Bytes}
    (h : (Engine.offload t).Tracks z hash size x) :
    (Engine.offload (t.reserve z o)).Tracks z hash size x := by
  unfold CheckThread.reserve
  split
  · trivial
  · have hn := CheckThread.takes_tracks (n := o.steps) h
    split
    · rename_i c queue heq
      rw [heq] at hn
      split
      · exact hn
      · exact CheckThread.take_tracks hn
    · exact hn

/-- With as many takes as chunks are queued, the queue is empty or the thread has ended. -/
theorem CheckThread.takes_queue : ∀ {queue : List Bytes} {c c' : Checker δ} {queue' : List Bytes},
    CheckThread.takes z queue.length (.running c queue) = .running c' queue' → queue' = []
  | [], _, _, _, h => by
    simp only [List.length_nil, CheckThread.takes, CheckThread.running.injEq] at h
    exact h.2.symm
  | chunk :: queue, c, c', queue', h => by
    simp only [List.length_cons, CheckThread.takes, CheckThread.take] at h
    split at h
    · exact CheckThread.takes_queue h
    · rename_i reason _
      have hstay : ∀ n : ℕ, CheckThread.takes z n (.verdict (.error reason) : CheckThread δ) =
          .verdict (.error reason) := by
        intro n
        induction n with
        | zero => rfl
        | succ n ih => exact ih
      rw [hstay] at h
      exact absurd h (by simp)

/-- **The thread's verdict covers every byte passed on.** -/
theorem CheckThread.close_checked {o : Sched} {t : CheckThread δ} {x : Bytes}
    (h : (Engine.offload t).Tracks z hash size x) (hv : t.close z sha256 o = .verdict (.ok ())) :
    Checked z sha256 hash size x := by
  unfold CheckThread.close at hv
  split at hv
  · exact absurd hv (by simp)
  · split at hv
    · rename_i c queue
      have hn := CheckThread.takes_tracks (n := queue.length) h
      split at hv
      · rename_i c' queue' heq
        rw [heq] at hn
        obtain ⟨w, hw, hx⟩ := hn
        rw [CheckThread.takes_queue heq, List.flatten_nil, List.append_nil] at hx
        subst hx
        exact Checker.finish_checked hw (by simpa using hv)
      · rw [hv] at hn
        exact absurd rfl hn
    · rw [hv] at h
      exact absurd rfl h

theorem VerifiedNar.pollVerdict_cases {nar nar' : VerifiedNar δ} {t : CheckThread δ}
    {item : Option (Except String Bytes)} (h : nar.pollVerdict t = (item, nar')) :
    (t = .verdict (.ok ()) ∧ item = none ∧ nar'.outcome = some .accepted ∧
      nar'.inner = nar.inner) ∨
    (∃ e, item = some (.error e)) ∧ nar'.outcome ≠ some .accepted := by
  unfold VerifiedNar.pollVerdict at h
  split at h
  · obtain ⟨rfl, rfl⟩ := Prod.mk.inj h
    exact Or.inl ⟨rfl, rfl, rfl, rfl⟩
  · obtain ⟨rfl, rfl⟩ := Prod.mk.inj h
    exact Or.inr ⟨⟨_, rfl⟩, by simp⟩
  · obtain ⟨rfl, rfl⟩ := Prod.mk.inj h
    exact Or.inr ⟨⟨_, rfl⟩, by simp⟩

/-- **All a poll can do**: pass the next chunk on, under check; end the stream, accepted, after the
whole body; or fail with another outcome. -/
theorem VerifiedNar.next_cases {o : Sched} {nar nar' : VerifiedNar δ} {x : Bytes}
    {item : Option (Except String Bytes)} (h : nar.Passed z hash size x)
    (hn : nar.next z sha256 o = (item, nar')) :
    (∃ chunk, item = some (.ok chunk) ∧ nar.inner = .ok chunk :: nar'.inner ∧
      nar'.Passed z hash size (x ++ chunk)) ∨
    (item = none ∧ nar.inner = [] ∧ nar'.inner = [] ∧ nar'.outcome = some .accepted ∧
      Checked z sha256 hash size x) ∨
    (∃ e, item = some (.error e)) ∧ nar'.outcome ≠ some .accepted := by
  have hout := h.outcome
  have htr := h.engine
  unfold VerifiedNar.next at hn
  rw [hout] at hn
  simp only at hn
  split at hn
  · obtain ⟨rfl, rfl⟩ := Prod.mk.inj hn
    exact Or.inr (Or.inr ⟨⟨_, rfl⟩, by simp⟩)
  · rename_i chunk rest c hin heng
    rw [heng] at htr
    split at hn
    · rename_i c' hf
      obtain ⟨rfl, rfl⟩ := Prod.mk.inj hn
      exact Or.inl ⟨chunk, rfl, hin, rfl, Checker.feed_after htr hf⟩
    · obtain ⟨rfl, rfl⟩ := Prod.mk.inj hn
      exact Or.inr (Or.inr ⟨⟨_, rfl⟩, by simp⟩)
  · rename_i chunk rest t hin heng
    rw [heng] at htr
    have hres := CheckThread.reserve_tracks (o := o) htr
    split at hn
    · rename_i c queue heq
      obtain ⟨rfl, rfl⟩ := Prod.mk.inj hn
      rw [heq] at hres
      obtain ⟨w, hw, hx⟩ := hres
      exact Or.inl ⟨chunk, rfl, hin, rfl, w, hw, by simp [hx]⟩
    · rename_i t' _
      rcases VerifiedNar.pollVerdict_cases hn with ⟨heq, -⟩ | hbad
      · rw [heq] at hres
        exact absurd rfl hres
      · exact Or.inr (Or.inr hbad)
  · rename_i c hin heng
    rw [heng] at htr
    split at hn
    · rename_i hf
      obtain ⟨rfl, rfl⟩ := Prod.mk.inj hn
      exact Or.inr (Or.inl ⟨rfl, hin, hin, rfl, Checker.finish_checked htr hf⟩)
    · obtain ⟨rfl, rfl⟩ := Prod.mk.inj hn
      exact Or.inr (Or.inr ⟨⟨_, rfl⟩, by simp⟩)
  · rename_i t hin heng
    rw [heng] at htr
    rcases VerifiedNar.pollVerdict_cases hn with ⟨heq, rfl, hacc, hinner⟩ | hbad
    · exact Or.inr (Or.inl ⟨rfl, hin, hinner.trans hin, hacc, CheckThread.close_checked htr heq⟩)
    · exact Or.inr (Or.inr hbad)

end

end Garret
