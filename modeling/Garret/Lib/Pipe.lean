import Mathlib.Data.List.Basic

/-!
# Pipes and streaming encoders

A pipe between two processes: bytes in order, at most a capacity of them at a time, and whether
somebody may still write. `Pipe.write_append` and `Pipe.read_append` are what keeps count of them.

An `Encoder` is fed in chunks and gives out its text in chunks; it carries its decoder, which reads
the whole text back however the input was cut.
-/

namespace Garret.Lib

/-- What is in a pipe, and whether it has a writer. -/
structure Pipe (α : Type) where
  queue : List α
  writer : Bool
  deriving DecidableEq, Repr

namespace Pipe

variable {α : Type} {p p' : Pipe α} {n : ℕ} {xs ys : List α}

/-- A new pipe. -/
def empty : Pipe α := ⟨[], true⟩

/-- At most `n` of `xs` go in, as far as there is room, and the rest is left; `none` when the writer
blocks. -/
def write (capacity n : ℕ) (xs : List α) (p : Pipe α) : Option (Pipe α × List α) :=
  if min n (capacity - p.queue.length) = 0 then none
  else some ({ p with queue := p.queue ++ xs.take (min n (capacity - p.queue.length)) },
    xs.drop (min n (capacity - p.queue.length)))

/-- At most `n` come out; `none` when the reader blocks, or there is nothing left to come. -/
def read (n : ℕ) (p : Pipe α) : Option (List α × Pipe α) :=
  if n = 0 ∨ p.queue = [] then none
  else some (p.queue.take n, { p with queue := p.queue.drop n })

/-- The last writer is gone. -/
def close (p : Pipe α) : Pipe α := { p with writer := false }

/-- Nothing is left to come. -/
def ended (p : Pipe α) : Bool := p.queue.isEmpty && !p.writer

/-- What goes in comes out after what is there. -/
theorem write_append {capacity : ℕ} (h : p.write capacity n xs = some (p', ys)) :
    p'.queue ++ ys = p.queue ++ xs ∧ p'.writer = p.writer := by
  unfold write at h
  split at h
  · exact absurd h (by simp)
  · obtain ⟨rfl, rfl⟩ := Prod.mk.inj (Option.some.inj h)
    exact ⟨by rw [List.append_assoc, List.take_append_drop], rfl⟩

/-- A write takes something, if there is anything. -/
theorem write_length {capacity : ℕ} (h : p.write capacity n xs = some (p', ys)) :
    p'.queue.length + ys.length = p.queue.length + xs.length ∧
      (xs ≠ [] → ys.length < xs.length) := by
  unfold write at h
  split at h
  · exact absurd h (by simp)
  · rename_i hm
    obtain ⟨rfl, rfl⟩ := Prod.mk.inj (Option.some.inj h)
    simp only [List.length_append, List.length_take, List.length_drop]
    refine ⟨by omega, fun hne => ?_⟩
    have hpos := List.length_pos_iff.mpr hne
    omega

/-- A writer with room does not block. -/
theorem write_of_room {capacity : ℕ} (h : p.queue.length < capacity) (xs : List α) :
    ∃ r, p.write capacity 1 xs = some r := by
  have hm : min 1 (capacity - p.queue.length) ≠ 0 := by omega
  exact ⟨_, by rw [write, if_neg hm]⟩

theorem read_append (h : p.read n = some (xs, p')) :
    xs ++ p'.queue = p.queue ∧ p'.writer = p.writer ∧ xs ≠ [] := by
  unfold read at h
  split at h
  · exact absurd h (by simp)
  · rename_i hn
    obtain ⟨rfl, rfl⟩ := Prod.mk.inj (Option.some.inj h)
    rw [not_or] at hn
    refine ⟨List.take_append_drop n _, rfl, fun hnil => ?_⟩
    rcases List.take_eq_nil_iff.mp hnil with h0 | h0
    · exact hn.1 h0
    · exact hn.2 h0

theorem read_length (h : p.read n = some (xs, p')) : xs.length ≤ n := by
  unfold read at h
  split at h
  · exact absurd h (by simp)
  · obtain ⟨rfl, rfl⟩ := Prod.mk.inj (Option.some.inj h)
    exact List.length_take_le n _

theorem read_of_ne_nil (hn : n ≠ 0) (h : p.queue ≠ []) : ∃ r, p.read n = some r :=
  ⟨_, by rw [read, if_neg (not_or.mpr ⟨hn, h⟩)]⟩

theorem ended_iff : p.ended = true ↔ p.queue = [] ∧ p.writer = false := by
  simp [ended]

end Pipe

/-! ## Streaming encoders -/

/-- An encoder, and the decoder of what it gives out. -/
structure Encoder (α β : Type) where
  State : Type
  start : State
  /-- A chunk goes in, and as much of the text as there is comes out. -/
  push : State → List α → State × List β
  /-- The rest of the text. -/
  finish : State → List β
  decode : List β → Option (List α)
  /-- The text of a whole input, in the chunks that went in. -/
  decode_text : ∀ chunks : List (List α),
    let fed := chunks.foldl (fun (s : State × List β) xs =>
      let r := push s.1 xs
      (r.1, s.2 ++ r.2)) (start, [])
    decode (fed.2 ++ finish fed.1) = some chunks.flatten

namespace Encoder

variable {α β : Type} (e : Encoder α β)

/-- The state, and the text so far. -/
def feed (s : e.State × List β) (xs : List α) : e.State × List β :=
  let r := e.push s.1 xs
  (r.1, s.2 ++ r.2)

/-- After these chunks. -/
def fed (chunks : List (List α)) : e.State × List β := chunks.foldl e.feed (e.start, [])

/-- The whole text. -/
def whole (s : e.State × List β) : List β := s.2 ++ e.finish s.1

theorem fed_concat (chunks : List (List α)) (xs : List α) :
    e.fed (chunks ++ [xs]) = e.feed (e.fed chunks) xs := by
  rw [fed, List.foldl_append]
  rfl

/-- **The whole text is decoded to what went in.** -/
theorem decode_whole (chunks : List (List α)) :
    e.decode (e.whole (e.fed chunks)) = some chunks.flatten := e.decode_text chunks

end Encoder

end Garret.Lib
