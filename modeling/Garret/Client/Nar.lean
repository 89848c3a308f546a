import Garret.Common
import Garret.Lib.Lossy
import Garret.Lib.Pipe
import Garret.Lib.Run

/-!
# The body of an upload

Model of `compressed_nar` (`crates/garret-client/src/push.rs`): `nix nar dump-path` writes the NAR to
one pipe and its messages to another; the body reads the first through the encoder, and a task of its
own empties the second. When the first has ended the body waits for the dump to exit, and its last
item is an error unless that was a success.

The dump (`Dump`) is any process that writes, to either pipe in any order, and exits; it keeps both
until then. Each side moves as much or as little as it likes at a time, and the connection asks for
the body to its end. Errors of the pipes themselves are left out.

* `dump_whole`: a body that ends well is the whole output of a dump that succeeded, and one that does
  not says how the dump failed.
* `dump_ends`: nobody waits for another for ever, however little the pipes hold.
-/

namespace Garret.Client.Nar

open Garret.Lib

/-- One write of the dump. -/
inductive Write where
  | out (bytes : Bytes)
  | err (bytes : Bytes)
  deriving DecidableEq, Repr

/-- What the dump does, and how it exits. -/
structure Dump where
  writes : List Write
  success : Bool
  /-- The text of `ExitStatus`. -/
  status : String

/-- What these writes put on standard output. -/
def stdout : List Write → Bytes
  | [] => []
  | .out bytes :: ws => bytes ++ stdout ws
  | .err _ :: ws => stdout ws

/-- What they put on standard error. -/
def stderr : List Write → Bytes
  | [] => []
  | .out _ :: ws => stderr ws
  | .err bytes :: ws => bytes ++ stderr ws

/-- As much of standard error as the error of the body shows. -/
def headLimit : ℕ := 4096

/-- The error of the body, which shows these messages. -/
def Dump.failure (d : Dump) (messages : List Char) : String :=
  "`nix nar dump-path` failed (" ++ d.status ++ "): " ++ String.ofList (Lossy.trim messages)

/-- Where the body stands. -/
inductive Stage where
  /-- The encoder reads. -/
  | streaming
  /-- The frame is sealed; the dump is waited for. -/
  | sealed
  /-- The dump has failed; its messages are waited for. -/
  | failing
  /-- The body has ended. -/
  | complete
  /-- The last item of the body was the error. -/
  | failed (message : String)
  deriving DecidableEq, Repr

variable (e : Encoder UInt8 UInt8) (capacity : ℕ) (d : Dump)

/-- The dump, the two pipes, the body, and the task that empties standard error. -/
structure State where
  /-- What the dump has not written yet. -/
  todo : List Write
  exited : Bool
  out : Pipe UInt8
  err : Pipe UInt8
  encoder : e.State × Bytes
  stage : Stage
  head : Bytes
  drained : Bool

/-- The process has been spawned. -/
def start : State e := ⟨d.writes, false, .empty, .empty, (e.start, []), .streaming, [], false⟩

/-- What can happen. -/
inductive Move where
  /-- The dump writes, at most `n` bytes, or exits. -/
  | dump (n : ℕ)
  /-- The body is asked for more, and reads at most `n` bytes. -/
  | pull (n : ℕ)
  /-- The body is asked for more, and standard output has ended. -/
  | finish
  /-- The task reads at most `n` bytes. -/
  | drain (n : ℕ)
  /-- Standard error has ended. -/
  | drained
  /-- The body is asked for more, and the dump has exited. -/
  | reap
  /-- The body is asked for more, and the messages are there. -/
  | report
  deriving DecidableEq, Repr

variable {e}

/-- The dump goes on. -/
def dumps (n : ℕ) (s : State e) : Option (State e) :=
  match s.todo with
  | [] => if s.exited then none
    else some { s with exited := true, out := s.out.close, err := s.err.close }
  | .out [] :: ws => some { s with todo := ws }
  | .err [] :: ws => some { s with todo := ws }
  | .out bytes :: ws => (s.out.write capacity n bytes).map fun r =>
    { s with out := r.1, todo := .out r.2 :: ws }
  | .err bytes :: ws => (s.err.write capacity n bytes).map fun r =>
    { s with err := r.1, todo := .err r.2 :: ws }

/-- The task reads: into the head while there is room in it, and then into nothing. -/
def drains (n : ℕ) (s : State e) : Option (State e) :=
  if s.drained then none
  else if s.head.length < headLimit then
    (s.err.read (min n (headLimit - s.head.length))).map fun r =>
      { s with err := r.2, head := s.head ++ r.1 }
  else (s.err.read n).map fun r => { s with err := r.2 }

/-- One move; `none` when it is not possible. -/
def step (s : State e) : Move → Option (State e)
  | .dump n => dumps capacity n s
  | .pull n =>
    if s.stage = .streaming then
      (s.out.read n).map fun r => { s with out := r.2, encoder := e.feed s.encoder r.1 }
    else none
  | .finish =>
    if s.stage = .streaming ∧ s.out.ended = true then
      some { s with encoder := (s.encoder.1, e.whole s.encoder), stage := .sealed }
    else none
  | .drain n => drains n s
  | .drained =>
    if s.drained = false ∧ s.err.ended = true then some { s with drained := true } else none
  | .reap =>
    if s.stage = .sealed ∧ s.exited = true then
      some { s with stage := if d.success then .complete else .failing }
    else none
  | .report =>
    if s.stage = .failing ∧ s.drained = true then
      some { s with stage := .failed (d.failure (Lossy.fromUtf8Lossy s.head)) }
    else none

/-! ## The invariant -/

/-- What has been read of standard output, in chunks, is in the encoder; and after the frame has been
sealed, all of it. -/
def Encoded (s : State e) (chunks : List Bytes) : Prop :=
  if s.stage = .streaming then s.encoder = e.fed chunks
  else s.encoder.2 = e.whole (e.fed chunks) ∧ s.out.ended = true

/-- How the dump exits, where the body has come to know it. -/
def Known (s : State e) : Stage → Prop
  | .streaming => True
  | .sealed => True
  | .failing => d.success = false
  | .complete => d.success = true
  | .failed message =>
    d.success = false ∧ s.drained = true ∧ message = d.failure (Lossy.fromUtf8Lossy s.head)

/-- What holds in every state: no byte is lost or out of order, in the pipes, the encoder or the
head. -/
structure Inv (s : State e) : Prop where
  out : ∃ chunks, stdout d.writes = chunks.flatten ++ (s.out.queue ++ stdout s.todo) ∧
    Encoded s chunks
  err : ∃ seen, stderr d.writes = seen ++ (s.err.queue ++ stderr s.todo) ∧
    s.head = seen.take headLimit
  outWriter : s.out.writer = !s.exited
  errWriter : s.err.writer = !s.exited
  exited : s.exited = true → s.todo = []
  drained : s.drained = true → s.err.ended = true
  known : Known d s s.stage

variable {d} {capacity} {s s' : State e}

theorem inv_start (e : Encoder UInt8 UInt8) (d : Dump) : Inv d (start e d) where
  out := ⟨[], rfl, by simp [Encoded, start, Encoder.fed]⟩
  err := ⟨[], rfl, rfl⟩
  outWriter := rfl
  errWriter := rfl
  exited h := absurd h (by simp [start])
  drained h := absurd h (by simp [start])
  known := trivial

/-- While the dump runs the frame is not sealed and the task not over. -/
theorem Inv.running (hi : Inv d s) (hrun : s.exited = false) :
    s.stage = .streaming ∧ s.drained = false := by
  obtain ⟨chunks, -, henc⟩ := hi.out
  refine ⟨?_, Bool.eq_false_iff.mpr fun hdr => ?_⟩
  · by_contra hne
    rw [Encoded, if_neg hne] at henc
    have hw := (Pipe.ended_iff.mp henc.2).2
    rw [hi.outWriter, hrun] at hw
    exact absurd hw (by simp)
  · have hw := (Pipe.ended_iff.mp (hi.drained hdr)).2
    rw [hi.errWriter, hrun] at hw
    exact absurd hw (by simp)

theorem Inv.running_of_todo (hi : Inv d s) (h : s.todo ≠ []) : s.exited = false :=
  Bool.eq_false_iff.mpr fun hx => h (hi.exited hx)

/-- The dump writes to standard output. -/
theorem inv_out (hi : Inv d s) {bytes rest : Bytes} {ws : List Write} {p : Pipe UInt8}
    (htodo : s.todo = .out bytes :: ws) (hq : p.queue ++ rest = s.out.queue ++ bytes)
    (hw : p.writer = s.out.writer) : Inv d { s with out := p, todo := .out rest :: ws } := by
  have hrun := hi.running_of_todo (by rw [htodo]; simp)
  obtain ⟨hstage, hdr⟩ := hi.running hrun
  obtain ⟨chunks, hout, henc⟩ := hi.out
  refine ⟨⟨chunks, ?_, ?_⟩, ?_, hw.trans hi.outWriter, hi.errWriter,
    fun hx => absurd (hrun.symm.trans hx) (by simp), hi.drained, ?_⟩
  · rw [hout, htodo]
    simp only [stdout, ← List.append_assoc]
    rw [List.append_assoc _ p.queue, hq, ← List.append_assoc]
  · rw [Encoded, if_pos hstage] at henc
    rw [Encoded, if_pos hstage]
    exact henc
  · have herr := hi.err
    rw [htodo] at herr
    exact herr
  · simp only [hstage]
    trivial

/-- The dump writes to standard error. -/
theorem inv_err (hi : Inv d s) {bytes rest : Bytes} {ws : List Write} {p : Pipe UInt8}
    (htodo : s.todo = .err bytes :: ws) (hq : p.queue ++ rest = s.err.queue ++ bytes)
    (hw : p.writer = s.err.writer) : Inv d { s with err := p, todo := .err rest :: ws } := by
  have hrun := hi.running_of_todo (by rw [htodo]; simp)
  obtain ⟨hstage, hdr⟩ := hi.running hrun
  obtain ⟨seen, herr, hhead⟩ := hi.err
  refine ⟨?_, ⟨seen, ?_, hhead⟩, hi.outWriter, hw.trans hi.errWriter,
    fun hx => absurd (hrun.symm.trans hx) (by simp),
    fun h => absurd (hdr.symm.trans h) (by simp), ?_⟩
  · obtain ⟨chunks, hout, henc⟩ := hi.out
    rw [htodo] at hout
    exact ⟨chunks, hout, henc⟩
  · rw [herr, htodo]
    simp only [stderr, ← List.append_assoc]
    rw [List.append_assoc _ p.queue, hq, ← List.append_assoc]
  · simp only [hstage]
    trivial

/-- **The dump goes on.** -/
theorem inv_dumps (hi : Inv d s) {n : ℕ} (h : dumps capacity n s = some s') : Inv d s' := by
  unfold dumps at h
  split at h
  · rename_i htodo
    split at h
    · exact absurd h (by simp)
    · rename_i hrun
      obtain rfl := Option.some.inj h
      obtain ⟨hstage, hdr⟩ := hi.running (Bool.eq_false_iff.mpr hrun)
      obtain ⟨chunks, hout, henc⟩ := hi.out
      rw [Encoded, if_pos hstage] at henc
      refine ⟨⟨chunks, hout, ?_⟩, hi.err, rfl, rfl, fun _ => htodo,
        fun h => absurd (hdr.symm.trans h) (by simp), hi.known⟩
      rw [Encoded, if_pos hstage]
      exact henc
  · rename_i ws htodo
    obtain rfl := Option.some.inj h
    have hrun := hi.running_of_todo (by rw [htodo]; simp)
    obtain ⟨chunks, hout, henc⟩ := hi.out
    have herr := hi.err
    rw [htodo] at hout herr
    exact ⟨⟨chunks, hout, henc⟩, herr, hi.outWriter, hi.errWriter,
      fun hx => absurd (hrun.symm.trans hx) (by simp), hi.drained, hi.known⟩
  · rename_i ws htodo
    obtain rfl := Option.some.inj h
    have hrun := hi.running_of_todo (by rw [htodo]; simp)
    obtain ⟨chunks, hout, henc⟩ := hi.out
    have herr := hi.err
    rw [htodo] at hout herr
    exact ⟨⟨chunks, hout, henc⟩, herr, hi.outWriter, hi.errWriter,
      fun hx => absurd (hrun.symm.trans hx) (by simp), hi.drained, hi.known⟩
  · rename_i bytes ws htodo
    obtain ⟨⟨p, rest⟩, hw, rfl⟩ := Option.map_eq_some_iff.mp h
    obtain ⟨hq, hwriter⟩ := Pipe.write_append hw
    exact inv_out hi htodo hq hwriter
  · rename_i bytes ws htodo
    obtain ⟨⟨p, rest⟩, hw, rfl⟩ := Option.map_eq_some_iff.mp h
    obtain ⟨hq, hwriter⟩ := Pipe.write_append hw
    exact inv_err hi htodo hq hwriter

theorem Known.of_head {stage : Stage} (hk : Known d s stage)
    (h : s.drained = true → s'.drained = true ∧ s'.head = s.head) : Known d s' stage := by
  cases stage with
  | failed message => exact ⟨hk.1, (h hk.2.1).1, by rw [hk.2.2, (h hk.2.1).2]⟩
  | _ => exact hk

/-- **The task reads**: the head stays the beginning of what has been read. -/
theorem inv_drains (hi : Inv d s) {n : ℕ} (h : drains n s = some s') : Inv d s' := by
  obtain ⟨seen, herr, hhead⟩ := hi.err
  unfold drains at h
  split at h
  · exact absurd h (by simp)
  · rename_i hdr
    have hnot : ∀ p : Pipe UInt8, s.drained = true → p.ended = true := fun p h => absurd h hdr
    split at h
    · rename_i hroom
      obtain ⟨⟨xs, p⟩, hr, rfl⟩ := Option.map_eq_some_iff.mp h
      obtain ⟨hq, hwriter, -⟩ := Pipe.read_append hr
      have hlen := Pipe.read_length hr
      have hall : s.head = seen := by
        rw [hhead, List.length_take] at hroom
        rw [hhead, List.take_of_length_le (by omega)]
      refine ⟨hi.out, ⟨seen ++ xs, ?_, ?_⟩, hi.outWriter, hwriter.trans hi.errWriter, hi.exited,
        hnot p, hi.known.of_head fun h => absurd h hdr⟩
      · rw [herr, ← hq]
        simp only [List.append_assoc]
      · rw [hall] at hlen hroom ⊢
        rw [List.take_of_length_le (by rw [List.length_append]; omega)]
    · rename_i hfull
      obtain ⟨⟨xs, p⟩, hr, rfl⟩ := Option.map_eq_some_iff.mp h
      obtain ⟨hq, hwriter, -⟩ := Pipe.read_append hr
      refine ⟨hi.out, ⟨seen ++ xs, ?_, ?_⟩, hi.outWriter, hwriter.trans hi.errWriter, hi.exited,
        hnot p, hi.known⟩
      · rw [herr, ← hq]
        simp only [List.append_assoc]
      · rw [hhead, List.length_take] at hfull
        rw [hhead, List.take_append_of_le_length (by omega)]

/-- **Every move keeps the invariant.** -/
theorem inv_step (hi : Inv d s) {m : Move} (h : step capacity d s m = some s') : Inv d s' := by
  cases m with
  | dump n => exact inv_dumps hi h
  | drain n => exact inv_drains hi h
  | pull n =>
    simp only [step] at h
    split at h
    · rename_i hstage
      obtain ⟨⟨xs, p⟩, hr, rfl⟩ := Option.map_eq_some_iff.mp h
      obtain ⟨hq, hwriter, -⟩ := Pipe.read_append hr
      obtain ⟨chunks, hout, henc⟩ := hi.out
      rw [Encoded, if_pos hstage] at henc
      refine ⟨⟨chunks ++ [xs], ?_, ?_⟩, hi.err, hwriter.trans hi.outWriter, hi.errWriter, hi.exited,
        hi.drained, ?_⟩
      · rw [hout, ← hq]
        simp only [List.flatten_append, List.flatten_singleton, List.append_assoc]
      · rw [Encoded, if_pos hstage]
        simp only [henc, Encoder.fed_concat]
      · simp only [hstage]
        trivial
    · exact absurd h (by simp)
  | finish =>
    simp only [step] at h
    split at h
    · rename_i hstage
      obtain rfl := Option.some.inj h
      obtain ⟨chunks, hout, henc⟩ := hi.out
      rw [Encoded, if_pos hstage.1] at henc
      refine ⟨⟨chunks, hout, ?_⟩, hi.err, hi.outWriter, hi.errWriter, hi.exited, hi.drained, trivial⟩
      rw [Encoded, if_neg (by simp)]
      exact ⟨by rw [henc], hstage.2⟩
    · exact absurd h (by simp)
  | drained =>
    simp only [step] at h
    split at h
    · rename_i hend
      obtain rfl := Option.some.inj h
      exact ⟨hi.out, hi.err, hi.outWriter, hi.errWriter, hi.exited, fun _ => hend.2,
        hi.known.of_head fun _ => ⟨rfl, rfl⟩⟩
    · exact absurd h (by simp)
  | reap =>
    simp only [step] at h
    split at h
    · rename_i hstage
      obtain rfl := Option.some.inj h
      obtain ⟨chunks, hout, henc⟩ := hi.out
      rw [Encoded, if_neg (by simp [hstage.1])] at henc
      refine ⟨⟨chunks, hout, ?_⟩, hi.err, hi.outWriter, hi.errWriter, hi.exited, hi.drained, ?_⟩
      · rw [Encoded, if_neg (by split <;> simp)]
        exact henc
      · by_cases hsucc : d.success = true
        · simp only [hsucc, if_true]
          exact hsucc
        · simp only [hsucc]
          exact Bool.eq_false_iff.mpr hsucc
    · exact absurd h (by simp)
  | report =>
    simp only [step] at h
    split at h
    · rename_i hstage
      obtain rfl := Option.some.inj h
      obtain ⟨chunks, hout, henc⟩ := hi.out
      rw [Encoded, if_neg (by simp [hstage.1])] at henc
      have hk := hi.known
      rw [hstage.1] at hk
      refine ⟨⟨chunks, hout, ?_⟩, hi.err, hi.outWriter, hi.errWriter, hi.exited, hi.drained,
        ⟨hk, hstage.2, rfl⟩⟩
      rw [Encoded, if_neg (by simp)]
      exact henc
    · exact absurd h (by simp)

theorem inv_reach (h : Reach (step capacity d) (fun _ _ => True) (start e d) s) : Inv d s :=
  h.invariant (fun _ _ _ hi _ hs => inv_step hi hs) (inv_start e d)

/-- When standard output has ended, the dump has exited. -/
theorem Inv.exited_of_ended (hi : Inv d s) (h : s.out.ended = true) : s.exited = true := by
  have hw := (Pipe.ended_iff.mp h).2
  rw [hi.outWriter] at hw
  simpa using hw

theorem Inv.complete (hi : Inv d s) (hstage : s.stage = .complete) :
    d.success = true ∧ e.decode s.encoder.2 = some (stdout d.writes) := by
  have hk := hi.known
  obtain ⟨chunks, hout, henc⟩ := hi.out
  rw [hstage] at hk
  rw [Encoded, if_neg (by simp [hstage])] at henc
  refine ⟨hk, ?_⟩
  rw [henc.1, e.decode_whole, hout, (Pipe.ended_iff.mp henc.2).1,
    hi.exited (hi.exited_of_ended henc.2)]
  simp [stdout]

theorem Inv.failed (hi : Inv d s) {message : String} (hstage : s.stage = .failed message) :
    d.success = false ∧
      message = d.failure (Lossy.fromUtf8Lossy ((stderr d.writes).take headLimit)) := by
  have hk := hi.known
  obtain ⟨chunks, -, henc⟩ := hi.out
  obtain ⟨seen, herr, hhead⟩ := hi.err
  rw [hstage] at hk
  rw [Encoded, if_neg (by simp [hstage])] at henc
  rw [(Pipe.ended_iff.mp (hi.drained hk.2.1)).1, hi.exited (hi.exited_of_ended henc.2)] at herr
  refine ⟨hk.1, ?_⟩
  rw [hk.2.2, hhead, herr]
  simp [stderr]

/-- **A body that ends well is the whole NAR.** In every state, however the writes, reads and waits
fall: the body is complete only if the dump succeeded, and is then decoded to all the dump wrote; and
it ends with an error only if the dump failed, and shows how it exited and the head of its messages,
which are all of them if they are a text no longer than that. -/
theorem dump_whole (h : Reach (step capacity d) (fun _ _ => True) (start e d) s) :
    (s.stage = .complete →
      d.success = true ∧ e.decode s.encoder.2 = some (stdout d.writes)) ∧
    (∀ message, s.stage = .failed message →
      d.success = false ∧
        message = d.failure (Lossy.fromUtf8Lossy ((stderr d.writes).take headLimit))) ∧
    ∀ message text, s.stage = .failed message → stderr d.writes = utf8 text →
      (utf8 text).length ≤ headLimit → message = d.failure text := by
  have hi := inv_reach h
  refine ⟨hi.complete, fun message => hi.failed, fun message text hstage herr hlen => ?_⟩
  rw [(hi.failed hstage).2, herr, List.take_of_length_le hlen, Lossy.fromUtf8Lossy_utf8]

namespace Sample

/-- A block of a frame is no longer. -/
def blockMax : ℕ := 131072

/-- The header of a block that holds its bytes as they are. -/
def header (last : Bool) (size : ℕ) : Bytes :=
  [UInt8.ofNat (8 * size + last.toNat), UInt8.ofNat (8 * size / 256),
    UInt8.ofNat (8 * size / 65536)]

/-- `n` full blocks and the last one. -/
def blocks : ℕ → Bytes → Bytes
  | 0, xs => header true xs.length ++ xs
  | n + 1, xs => header false blockMax ++ (xs.take blockMax ++ blocks n (xs.drop blockMax))

/-- The bytes of at most `fuel` blocks, of the kind above alone. -/
def unblocks : ℕ → Bytes → Option Bytes
  | fuel + 1, a :: b :: c :: rest =>
    let head := a.toNat + 256 * b.toNat + 65536 * c.toNat
    if head / 2 % 4 ≠ 0 ∨ rest.length < head / 8 then none
    else if head % 2 = 1 then if rest.length = head / 8 then some rest else none
    else (unblocks fuel (rest.drop (head / 8))).map (rest.take (head / 8) ++ ·)
  | _, _ => none

/-- The magic number, no content size, a window of 2 MiB. -/
def frameHeader : Bytes := [0x28, 0xb5, 0x2f, 0xfd, 0x00, 0x58]

/-- What is in a frame. -/
def unframe (text : Bytes) : Option Bytes :=
  if text.take 6 = frameHeader then unblocks (text.length - 6) (text.drop 6) else none

theorem toNat_header {size : ℕ} (hsize : size ≤ blockMax) (last : Bool) :
    (UInt8.ofNat (8 * size + last.toNat)).toNat + 256 * (UInt8.ofNat (8 * size / 256)).toNat +
      65536 * (UInt8.ofNat (8 * size / 65536)).toNat = 8 * size + last.toNat := by
  have hlast := last.toNat_lt
  unfold blockMax at hsize
  simp only [UInt8.toNat_ofNat']
  omega

theorem unblocks_last {xs : Bytes} (hlen : xs.length ≤ blockMax) (fuel : ℕ) :
    unblocks (fuel + 1) (header true xs.length ++ xs) = some xs := by
  have hhead := toNat_header hlen true
  rw [Bool.toNat_true] at hhead
  simp only [header, List.cons_append, List.nil_append, unblocks, Bool.toNat_true, hhead]
  rw [if_neg (by omega), if_pos (by omega), if_pos (by omega)]

theorem unblocks_more {xs : Bytes} (hlen : xs.length = blockMax) (text : Bytes) (fuel : ℕ) :
    unblocks (fuel + 1) (header false blockMax ++ (xs ++ text)) =
      (unblocks fuel text).map (xs ++ ·) := by
  have hhead := toNat_header (Nat.le_refl blockMax) false
  rw [Bool.toNat_false] at hhead
  have hsize : (8 * blockMax + 0) / 8 = xs.length := by omega
  simp only [header, List.cons_append, List.nil_append, unblocks, hhead, Bool.toNat_false, hsize,
    List.drop_left, List.take_left]
  rw [if_neg (by rw [List.length_append]; omega), if_neg (by omega)]

/-- **The blocks hold the bytes.** -/
theorem unblocks_blocks {n fuel : ℕ} {xs : Bytes} (hlen : n * blockMax ≤ xs.length)
    (hlen' : xs.length ≤ n * blockMax + blockMax) (hfuel : n < fuel) :
    unblocks fuel (blocks n xs) = some xs := by
  obtain ⟨fuel, rfl⟩ := Nat.exists_eq_succ_of_ne_zero (Nat.ne_of_gt (Nat.zero_lt_of_lt hfuel))
  induction n generalizing fuel xs with
  | zero => exact unblocks_last (by omega) fuel
  | succ n ih =>
    rw [Nat.add_one_mul] at hlen hlen'
    have htake : (xs.take blockMax).length = blockMax := by
      rw [List.length_take]
      omega
    have hdrop : (xs.drop blockMax).length = xs.length - blockMax := List.length_drop
    obtain ⟨fuel, rfl⟩ := Nat.exists_eq_succ_of_ne_zero (show fuel ≠ 0 by omega)
    rw [blocks, unblocks_more htake, ih (by omega) (by omega) fuel (by omega), Option.map_some,
      List.take_append_drop]

theorem lt_length_blocks : ∀ (n : ℕ) (xs : Bytes), n < (blocks n xs).length
  | 0, xs => by simp [blocks, header]
  | n + 1, xs => by
    have ih := lt_length_blocks n (xs.drop blockMax)
    simp only [blocks, header, List.length_append, List.length_cons, List.length_nil]
    omega

theorem unframe_blocks (xs : Bytes) :
    unframe (frameHeader ++ blocks (xs.length / blockMax) xs) = some xs := by
  have hdiv := Nat.div_add_mod' xs.length blockMax
  have hmod := Nat.mod_lt xs.length (show blockMax > 0 by decide)
  have hlt := lt_length_blocks (xs.length / blockMax) xs
  have hlength : frameHeader.length = 6 := rfl
  rw [unframe, List.take_left' hlength, if_pos rfl, List.drop_left' hlength, List.length_append]
  exact unblocks_blocks (by omega) (by omega) (by omega)

/-- An encoder that keeps what it is fed and stores it in blocks as it is. -/
def stored : Encoder UInt8 UInt8 where
  State := Bytes
  start := []
  push xs more := (xs ++ more, [])
  finish xs := frameHeader ++ blocks (xs.length / blockMax) xs
  decode := unframe
  decode_text chunks := by
    have h : ∀ (chunks : List Bytes) (xs : Bytes),
        chunks.foldl (fun (s : Bytes × Bytes) more => (s.1 ++ more, s.2 ++ [])) (xs, []) =
          (xs ++ chunks.flatten, []) := by
      intro chunks
      induction chunks with
      | nil => exact fun xs => by rw [List.flatten_nil, List.append_nil]; rfl
      | cons more chunks ih =>
        intro xs
        rw [List.foldl_cons, List.append_nil, ih, List.flatten_cons, List.append_assoc]
    simp only [h, List.nil_append]
    exact unframe_blocks chunks.flatten

/-- Three bytes in a frame. -/
example : stored.whole (stored.feed (stored.feed (stored.start, []) [1, 2]) [3]) =
    [0x28, 0xb5, 0x2f, 0xfd, 0x00, 0x58, 0x19, 0x00, 0x00, 1, 2, 3] := by decide +kernel

/-- A dump that fails after half a NAR and a message. -/
def half : Dump := ⟨[.out [1, 2], .err [33], .out [3], .err [10]], false, "exit status: 1"⟩

/-- Through pipes of one byte. -/
def fails : List Move :=
  [.dump 9, .pull 9, .dump 9, .dump 9, .dump 9, .dump 9, .pull 9, .dump 9, .dump 9, .drain 9,
    .dump 9, .dump 9, .dump 9, .pull 9, .finish, .drain 9, .reap, .drained, .report]

end Sample

theorem dump_whole_failed : ∃ s : State Sample.stored,
    Reach (step 1 Sample.half) (fun _ _ => True) (start Sample.stored Sample.half) s ∧
    s.stage = .failed "`nix nar dump-path` failed (exit status: 1): !" ∧
    "`nix nar dump-path` failed (exit status: 1): !" = Sample.half.failure ['!', '\n'] := by
  obtain ⟨s, hs, hstage⟩ := exec_check (step (e := Sample.stored) 1 Sample.half)
    (fun _ _ => True) Sample.fails (start Sample.stored Sample.half)
    (fun s => s.stage = .failed "`nix nar dump-path` failed (exit status: 1): !")
    (by decide +kernel)
  exact ⟨s, hs, hstage, (dump_whole hs).2.2 _ _ hstage rfl (by decide)⟩

/-! ## The end -/

/-- The bytes of these writes. -/
def bytesOf : List Write → ℕ
  | [] => 0
  | .out bytes :: ws => bytes.length + bytesOf ws
  | .err bytes :: ws => bytes.length + bytesOf ws

/-- The moves the body has left. -/
def Stage.left : Stage → ℕ
  | .streaming => 3
  | .sealed => 2
  | .failing => 1
  | .complete => 0
  | .failed _ => 0

/-- The moves there are left: each byte is written and read, each write is over, the dump exits, the
task ends. -/
def cost (s : State e) : ℕ :=
  2 * bytesOf s.todo + s.todo.length + (if s.exited then 0 else 1) + s.out.queue.length +
    s.err.queue.length + s.stage.left + if s.drained then 0 else 1

theorem length_read {p p' : Pipe UInt8} {n : ℕ} {xs : Bytes} (h : p.read n = some (xs, p')) :
    p'.queue.length < p.queue.length := by
  obtain ⟨hq, -, hne⟩ := Pipe.read_append h
  have hlen := congrArg List.length hq
  rw [List.length_append] at hlen
  have hpos := List.length_pos_iff.mpr hne
  omega

theorem cost_dumps {n : ℕ} (h : dumps capacity n s = some s') : cost s' < cost s := by
  unfold dumps at h
  split at h
  · split at h
    · exact absurd h (by simp)
    · rename_i hrun
      obtain rfl := Option.some.inj h
      simp [cost, hrun, Pipe.close]
  · rename_i ws htodo
    obtain rfl := Option.some.inj h
    simp only [cost, htodo, bytesOf, List.length_cons, List.length_nil]
    omega
  · rename_i ws htodo
    obtain rfl := Option.some.inj h
    simp only [cost, htodo, bytesOf, List.length_cons, List.length_nil]
    omega
  · rename_i bytes ws hne htodo
    obtain ⟨⟨p, rest⟩, hw, rfl⟩ := Option.map_eq_some_iff.mp h
    obtain ⟨hlen, hlt⟩ := Pipe.write_length hw
    have hless := hlt hne
    simp only [cost, htodo, bytesOf, List.length_cons]
    omega
  · rename_i bytes ws hne htodo
    obtain ⟨⟨p, rest⟩, hw, rfl⟩ := Option.map_eq_some_iff.mp h
    obtain ⟨hlen, hlt⟩ := Pipe.write_length hw
    have hless := hlt hne
    simp only [cost, htodo, bytesOf, List.length_cons]
    omega

/-- **Every move uses one up.** -/
theorem cost_step {m : Move} (h : step capacity d s m = some s') : cost s' < cost s := by
  cases m with
  | dump n => exact cost_dumps h
  | pull n =>
    simp only [step] at h
    split at h
    · obtain ⟨⟨xs, p⟩, hr, rfl⟩ := Option.map_eq_some_iff.mp h
      have hlt := length_read hr
      simp only [cost]
      omega
    · exact absurd h (by simp)
  | drain n =>
    simp only [step, drains] at h
    split at h
    · exact absurd h (by simp)
    · split at h
      · obtain ⟨⟨xs, p⟩, hr, rfl⟩ := Option.map_eq_some_iff.mp h
        have hlt := length_read hr
        simp only [cost]
        omega
      · obtain ⟨⟨xs, p⟩, hr, rfl⟩ := Option.map_eq_some_iff.mp h
        have hlt := length_read hr
        simp only [cost]
        omega
  | drained =>
    simp only [step] at h
    split at h
    · rename_i hend
      obtain rfl := Option.some.inj h
      simp [cost, hend.1]
    · exact absurd h (by simp)
  | finish =>
    simp only [step] at h
    split at h
    · rename_i hstage
      obtain rfl := Option.some.inj h
      simp [cost, hstage.1, Stage.left]
    · exact absurd h (by simp)
  | reap =>
    simp only [step] at h
    split at h
    · rename_i hstage
      obtain rfl := Option.some.inj h
      by_cases hsucc : d.success = true
      · simp [cost, hstage.1, hsucc, Stage.left]
      · simp [cost, hstage.1, hsucc, Stage.left]
    · exact absurd h (by simp)
  | report =>
    simp only [step] at h
    split at h
    · rename_i hstage
      obtain rfl := Option.some.inj h
      simp [cost, hstage.1, Stage.left]
    · exact absurd h (by simp)

/-- The body has ended. -/
def Stage.over : Stage → Bool
  | .complete => true
  | .failed _ => true
  | _ => false

/-- While there is something on standard error the task can read it. -/
theorem drain_of_ne_nil (capacity : ℕ) (hi : Inv d s) (h : s.err.queue ≠ []) :
    ∃ s', step capacity d s (.drain 1) = some s' := by
  have hdr : ¬s.drained = true := fun hdr => h (Pipe.ended_iff.mp (hi.drained hdr)).1
  simp only [step, drains, if_neg hdr]
  by_cases hroom : s.head.length < headLimit
  · obtain ⟨r, hr⟩ := Pipe.read_of_ne_nil (n := min 1 (headLimit - s.head.length)) (by omega) h
    rw [if_pos hroom, hr]
    exact ⟨_, rfl⟩
  · obtain ⟨r, hr⟩ := Pipe.read_of_ne_nil (n := 1) (by omega) h
    rw [if_neg hroom, hr]
    exact ⟨_, rfl⟩

/-- **While the dump runs and nothing of its output is to be read, it can go on**, or the task can
make room for it. -/
theorem dump_or_drain (hcap : 0 < capacity) (hi : Inv d s) (hrun : s.exited = false)
    (hq : s.out.queue = []) : ∃ m s', step capacity d s m = some s' := by
  rcases htodo : s.todo with _ | ⟨w, ws⟩
  · exact ⟨.dump 1, _, by simp only [step, dumps, htodo, hrun]; rfl⟩
  · rcases w with bytes | bytes
    · rcases bytes with _ | ⟨b, bytes⟩
      · exact ⟨.dump 1, _, by simp only [step, dumps, htodo]; rfl⟩
      · have hroom : s.out.queue.length < capacity := by
          rw [hq]
          exact hcap
        obtain ⟨r, hr⟩ := Pipe.write_of_room hroom (b :: bytes)
        exact ⟨.dump 1, _, by simp only [step, dumps, htodo, hr]; rfl⟩
    · rcases bytes with _ | ⟨b, bytes⟩
      · exact ⟨.dump 1, _, by simp only [step, dumps, htodo]; rfl⟩
      · by_cases hroom : s.err.queue.length < capacity
        · obtain ⟨r, hr⟩ := Pipe.write_of_room hroom (b :: bytes)
          exact ⟨.dump 1, _, by simp only [step, dumps, htodo, hr]; rfl⟩
        · obtain ⟨s', hs'⟩ := drain_of_ne_nil capacity hi
            (fun hnil => hroom (by rw [hnil]; exact hcap))
          exact ⟨.drain 1, s', hs'⟩

/-- **Somebody can move until the body has ended.** -/
theorem progress (hcap : 0 < capacity) (hi : Inv d s) (hover : s.stage.over = false) :
    ∃ m s', step capacity d s m = some s' := by
  obtain ⟨chunks, -, henc⟩ := hi.out
  cases hstage : s.stage with
  | streaming =>
    by_cases hq : s.out.queue = []
    · by_cases hrun : s.exited = false
      · exact dump_or_drain hcap hi hrun hq
      · have hend : s.out.ended = true :=
          Pipe.ended_iff.mpr ⟨hq, by rw [hi.outWriter]; simpa using hrun⟩
        exact ⟨.finish, _, by simp only [step, hstage, hend]; rfl⟩
    · obtain ⟨r, hr⟩ := Pipe.read_of_ne_nil (n := 1) (by omega) hq
      exact ⟨.pull 1, _, by simp only [step, hstage, hr]; rfl⟩
  | sealed =>
    rw [Encoded, if_neg (by simp [hstage])] at henc
    exact ⟨.reap, _, by simp only [step, hstage, hi.exited_of_ended henc.2]; rfl⟩
  | failing =>
    rw [Encoded, if_neg (by simp [hstage])] at henc
    by_cases hdr : s.drained = true
    · exact ⟨.report, _, by simp only [step, hstage, hdr]; rfl⟩
    · by_cases hq : s.err.queue = []
      · have hend : s.err.ended = true :=
          Pipe.ended_iff.mpr ⟨hq, by rw [hi.errWriter, hi.exited_of_ended henc.2]; rfl⟩
        exact ⟨.drained, _, by simp only [step, Bool.eq_false_iff.mpr hdr, hend]; rfl⟩
      · obtain ⟨s', hs'⟩ := drain_of_ne_nil capacity hi hq
        exact ⟨.drain 1, s', hs'⟩
  | _ => exact absurd hover (by simp [hstage, Stage.over])

theorem cost_start (e : Encoder UInt8 UInt8) (d : Dump) :
    cost (start e d) = 2 * bytesOf d.writes + d.writes.length + 5 := by
  simp [cost, start, Pipe.empty, Stage.left]

/-- **Nobody waits for another for ever.** However little the pipes hold, whatever the dump writes to
which of them, and in whatever order the dump, the body and the task move: they make at most as many
moves as there are bytes to write and to read, writes and ends; and where none of them can move, the
body has ended, as the dump did. -/
theorem dump_ends (hcap : 0 < capacity) {moves : List Move}
    (h : exec (step capacity d) (fun _ _ => True) moves (start e d) = some s) :
    moves.length ≤ 2 * bytesOf d.writes + d.writes.length + 5 ∧
    ((∀ m, step capacity d s m = none) →
      s.stage = if d.success then .complete
        else .failed (d.failure (Lossy.fromUtf8Lossy ((stderr d.writes).take headLimit)))) := by
  obtain ⟨hle, hi⟩ := exec_variant (Inv d) cost
    (fun _ _ _ hi _ hs => ⟨inv_step hi hs, cost_step hs⟩) h (inv_start e d)
  rw [cost_start] at hle
  refine ⟨by omega, fun hstuck => ?_⟩
  have hover : s.stage.over = true := by
    by_contra hover
    obtain ⟨m, s', hs'⟩ := progress hcap hi (Bool.eq_false_iff.mpr hover)
    rw [hstuck m] at hs'
    exact absurd hs' (by simp)
  cases hstage : s.stage with
  | complete => rw [if_pos (hi.complete hstage).1]
  | failed message =>
    obtain ⟨hfail, rfl⟩ := hi.failed hstage
    rw [if_neg (by simp [hfail])]
  | _ => exact absurd hover (by simp [hstage, Stage.over])

/-- The moves of the run above, counted. -/
theorem dump_ends_failed : ∃ s : State Sample.stored,
    exec (step 1 Sample.half) (fun _ _ => True) Sample.fails (start Sample.stored Sample.half) =
      some s ∧
    s.stage = .failed "`nix nar dump-path` failed (exit status: 1): !" ∧
    Sample.fails.length ≤ 2 * bytesOf Sample.half.writes + 4 + 5 := by
  obtain ⟨s, hs, hstage⟩ := exec_end (step (e := Sample.stored) 1 Sample.half)
    (fun _ _ => True) Sample.fails (start Sample.stored Sample.half)
    (fun s => s.stage = .failed "`nix nar dump-path` failed (exit status: 1): !")
    (by decide +kernel)
  exact ⟨s, hs, hstage, (dump_ends (by decide) hs).1⟩

end Garret.Client.Nar
