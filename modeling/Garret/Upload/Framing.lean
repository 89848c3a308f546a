import Garret.Upload.Store

/-!
# The frame of a preamble

A request body is the frame of its preamble, four bytes of length and the JSON, and then the NAR.
The client writes it with `Preamble::to_framed`; the Pusher reads it back in `store_upload`, chunk
by chunk as the body arrives (`readPreamble`). The two live in different crates and meet here:
`framing_round_trip`.

* `readPreamble_framed`: whatever the chunks are, the loop stops at the end of the frame.
* `readPreamble_implausible`: a declared length that is too large is refused at the chunk that
  completes it, whatever would follow.
* `readHeads_bound`: the buffer holds less than a frame, and the last chunk.
-/

namespace Garret

/-! ## Encoding -/

/-- `u32::to_le_bytes` of a length `as u32`. -/
def toLeBytes (n : ℕ) : Bytes :=
  [UInt8.ofNat n, UInt8.ofNat (n / 256), UInt8.ofNat (n / 65536), UInt8.ofNat (n / 16777216)]

/-- `Preamble::to_framed`: the length of the JSON, then the JSON. -/
def Preamble.toFramed (toJson : Preamble → Bytes) (preamble : Preamble) : Bytes :=
  toLeBytes (toJson preamble).length ++ toJson preamble

/-- The length a frame declares, once its prefix is there. -/
def declared : Bytes → Option ℕ
  | a :: b :: c :: d :: _ => some (fromLeBytes a b c d)
  | _ => none

theorem declared_toLeBytes {n : ℕ} (h : n < 2 ^ 32) (rest : Bytes) :
    declared (toLeBytes n ++ rest) = some n := by
  simp only [toLeBytes, List.cons_append, List.nil_append, declared, fromLeBytes,
    UInt8.toNat_ofNat', Option.some.injEq]
  omega

theorem declared_isSome_iff {buf : Bytes} : (declared buf).isSome = true ↔ 4 ≤ buf.length := by
  match buf with
  | [] => simp [declared]
  | [_] => simp [declared]
  | [_, _] => simp [declared]
  | [_, _, _] => simp [declared]
  | _ :: _ :: _ :: _ :: _ => simp [declared]

/-- More bytes do not change what is declared. -/
theorem declared_append {buf : Bytes} {len : ℕ} (h : declared buf = some len) (rest : Bytes) :
    declared (buf ++ rest) = some len := by
  match buf with
  | [] => exact absurd h (by simp [declared])
  | [_] => exact absurd h (by simp [declared])
  | [_, _] => exact absurd h (by simp [declared])
  | [_, _, _] => exact absurd h (by simp [declared])
  | _ :: _ :: _ :: _ :: _ => exact h

/-- `preamble_end`, by what is declared. -/
theorem preambleEnd_eq (buf : Bytes) (max : ℕ) :
    preambleEnd buf max = match declared buf with
      | none => .ok none
      | some len =>
        if max < len then .error len else if 4 + len ≤ buf.length then .ok (some (4 + len)) else .ok none := by
  match buf with
  | [] => rfl
  | [_] => rfl
  | [_, _] => rfl
  | [_, _, _] => rfl
  | a :: b :: c :: d :: rest =>
    have hlen : (fromLeBytes a b c d ≤ (a :: b :: c :: d :: rest).length - 4) ↔
        4 + fromLeBytes a b c d ≤ (a :: b :: c :: d :: rest).length := by
      simp only [List.length_cons]
      omega
    simp only [preambleEnd, declared, hlen]

section

variable {δ : Type} {srv : Server δ}

/-! ## Reading a frame -/

theorem takePreamble_none {buf : Bytes} (h : preambleEnd buf maxPreamble = .ok none) :
    takePreamble srv buf = .ok none := by
  unfold takePreamble
  rw [h]

variable {toJson : Preamble → Bytes} {preamble : Preamble}

/-- A buffer that holds the frame ends the loop. -/
theorem takePreamble_framed (hjson : (toJson preamble).length ≤ maxPreamble)
    (hparse : srv.parse (toJson preamble) = .ok preamble) (leftover : Bytes) :
    takePreamble srv (preamble.toFramed toJson ++ leftover) = .ok (some (preamble, leftover)) := by
  have hmax : maxPreamble < 2 ^ 32 := by decide
  have hdecl : declared (preamble.toFramed toJson ++ leftover) = some (toJson preamble).length := by
    rw [Preamble.toFramed, List.append_assoc]
    exact declared_toLeBytes (Nat.lt_of_le_of_lt hjson hmax) _
  have hlen : (preamble.toFramed toJson).length = 4 + (toJson preamble).length := by
    rw [Preamble.toFramed, List.length_append]
    rfl
  have hend : preambleEnd (preamble.toFramed toJson ++ leftover) maxPreamble =
      .ok (some (preamble.toFramed toJson).length) := by
    rw [preambleEnd_eq, hdecl]
    simp only
    rw [if_neg (Nat.not_lt.mpr hjson), if_pos (by rw [List.length_append]; omega), hlen]
  unfold takePreamble
  rw [hend]
  simp only [List.take_left, List.drop_left]
  have hdrop : (preamble.toFramed toJson).drop 4 = toJson preamble := rfl
  rw [hdrop, hparse]

/-- A buffer that holds less does not. -/
theorem takePreamble_short (hjson : (toJson preamble).length ≤ maxPreamble) {head rest : Bytes}
    (hpre : head ++ rest = preamble.toFramed toJson) (hrest : rest ≠ []) :
    takePreamble srv head = .ok none := by
  have hmax : maxPreamble < 2 ^ 32 := by decide
  have hdecl : declared (head ++ rest) = some (toJson preamble).length := by
    rw [hpre]
    exact declared_toLeBytes (Nat.lt_of_le_of_lt hjson hmax) _
  have hlen : head.length < 4 + (toJson preamble).length := by
    have hl := congrArg List.length hpre
    have hpos := List.length_pos_of_ne_nil hrest
    rw [List.length_append, Preamble.toFramed, List.length_append] at hl
    have : (toLeBytes (toJson preamble).length).length = 4 := rfl
    omega
  apply takePreamble_none
  rw [preambleEnd_eq]
  cases hd : declared head with
  | none => rfl
  | some len =>
    rw [declared_append hd rest] at hdecl
    obtain rfl := Option.some.inj hdecl
    simp only
    rw [if_neg (Nat.not_lt.mpr hjson), if_neg (by omega)]

/-- **The loop stops at the end of the frame, wherever the chunks are cut.** -/
theorem readPreamble_framed (hjson : (toJson preamble).length ≤ maxPreamble)
    (hparse : srv.parse (toJson preamble) = .ok preamble) {nar : Bytes} :
    ∀ {chunks : List Bytes} {head : Bytes},
      head ++ chunks.flatten = preamble.toFramed toJson ++ nar →
      ∃ (leftover : Bytes) (rest : List Bytes),
        readPreamble srv head (chunks.map .ok) = .ok (preamble, leftover, rest.map .ok) ∧
        leftover ++ rest.flatten = nar := by
  intro chunks
  induction chunks with
  | nil =>
    intro head h
    rw [List.flatten_nil, List.append_nil] at h
    refine ⟨nar, [], ?_, by simp⟩
    rw [List.map_nil, readPreamble, h, takePreamble_framed hjson hparse]
  | cons chunk chunks ih =>
    intro head h
    rw [List.map_cons, readPreamble]
    rcases List.append_eq_append_iff.mp h with ⟨rest, hframe, hflat⟩ | ⟨leftover, hhead, hnar⟩
    · cases rest with
      | nil =>
        rw [List.append_nil] at hframe
        refine ⟨[], chunk :: chunks, ?_, by simpa using hflat⟩
        rw [← hframe]
        have hwhole : takePreamble srv (preamble.toFramed toJson) = .ok (some (preamble, [])) := by
          have := takePreamble_framed hjson hparse []
          rwa [List.append_nil] at this
        rw [hwhole]
        rfl
      | cons x rest =>
        rw [takePreamble_short hjson hframe.symm (by simp)]
        simp only
        apply ih
        rw [← h, List.flatten_cons, List.append_assoc]
    · refine ⟨leftover, chunk :: chunks, ?_, hnar.symm⟩
      rw [hhead, takePreamble_framed hjson hparse]
      rfl

/-! ## Refusals -/

/-- A prefix that declares too much ends the loop at once, whatever would follow. -/
theorem readPreamble_over {head : Bytes} {len : ℕ} (hdecl : declared head = some len)
    (hlen : maxPreamble < len) (body : Body) :
    readPreamble srv head body = .error (.refused "preamble length is implausible") := by
  have htake : takePreamble srv head = .error (.refused "preamble length is implausible") := by
    unfold takePreamble
    rw [preambleEnd_eq, hdecl]
    simp only
    rw [if_pos hlen]
  cases body with
  | nil => simp only [readPreamble, htake]
  | cons item body => simp only [readPreamble, htake]

/-- **A declared length over `MAX_PREAMBLE` is refused on the chunk that completes the prefix.** -/
theorem readPreamble_implausible {chunk : Bytes} {rest : Body} {len : ℕ}
    (hlen : maxPreamble < len) : ∀ {chunks : List Bytes} {head : Bytes},
      (head ++ chunks.flatten).length < 4 →
      declared (head ++ chunks.flatten ++ chunk) = some len →
      readPreamble srv head (chunks.map .ok ++ .ok chunk :: rest) =
        .error (.refused "preamble length is implausible") := by
  have hshort : ∀ {head : Bytes}, head.length < 4 → takePreamble srv head = .ok none := by
    intro head hhead
    apply takePreamble_none
    have hnone : declared head = none := by
      rw [← Option.not_isSome_iff_eq_none, declared_isSome_iff]
      omega
    rw [preambleEnd_eq, hnone]
  intro chunks
  induction chunks with
  | nil =>
    intro head hhead hdecl
    rw [List.flatten_nil, List.append_nil] at hhead hdecl
    rw [List.map_nil, List.nil_append, readPreamble, hshort hhead]
    exact readPreamble_over hdecl hlen rest
  | cons c chunks ih =>
    intro head hhead hdecl
    rw [List.flatten_cons, ← List.append_assoc] at hhead hdecl
    have hlt : head.length < 4 := by
      simp only [List.length_append] at hhead
      omega
    rw [List.map_cons, List.cons_append, readPreamble, hshort hlt]
    exact ih hhead hdecl

/-- All of a plausible frame has arrived. -/
def FrameComplete (buf : Bytes) : Prop :=
  ∃ len, declared buf = some len ∧ len ≤ maxPreamble ∧ 4 + len ≤ buf.length

/-- A frame that has not all arrived is waited for, or refused for its length. -/
theorem takePreamble_incomplete {head : Bytes} (h : ¬ FrameComplete head) :
    takePreamble srv head = .ok none ∨
      takePreamble srv head = .error (.refused "preamble length is implausible") := by
  unfold takePreamble
  rw [preambleEnd_eq]
  cases hd : declared head with
  | none => exact Or.inl rfl
  | some len =>
    simp only
    by_cases hmax : maxPreamble < len
    · rw [if_pos hmax]
      exact Or.inr rfl
    · have hshort : ¬ 4 + len ≤ head.length := fun hle => h ⟨len, hd, Nat.not_lt.mp hmax, hle⟩
      rw [if_neg hmax, if_neg hshort]
      exact Or.inl rfl

/-- **A body that ends before the frame is complete is refused.** -/
theorem readPreamble_incomplete : ∀ {chunks : List Bytes} {head : Bytes},
    ¬ FrameComplete (head ++ chunks.flatten) →
      ∃ message, readPreamble srv head (chunks.map .ok) = .error (.refused message) := by
  intro chunks
  induction chunks with
  | nil =>
    intro head h
    rw [List.flatten_nil, List.append_nil] at h
    rw [List.map_nil, readPreamble]
    rcases takePreamble_incomplete h with ht | ht
    · exact ⟨_, by rw [ht]⟩
    · exact ⟨_, by rw [ht]⟩
  | cons c chunks ih =>
    intro head h
    -- what is not complete with more bytes was not complete before
    have hhead : ¬ FrameComplete head := by
      rintro ⟨len, hd, hmax, hlen⟩
      refine h ⟨len, declared_append hd _, hmax, ?_⟩
      rw [List.length_append]
      omega
    rw [List.map_cons, readPreamble]
    rcases takePreamble_incomplete hhead with ht | ht
    · rw [ht]
      refine ih ?_
      rw [List.append_assoc]
      exact h
    · exact ⟨_, by rw [ht]⟩

/-! ## The buffer -/

/-- What `head` holds at each turn of the read loop. -/
def readHeads (srv : Server δ) : Bytes → Body → List Bytes
  | head, [] => [head]
  | head, item :: body =>
    head :: match takePreamble srv head with
      | .ok none =>
        match item with
        | .ok chunk => readHeads srv (head ++ chunk) body
        | .error _ => []
      | _ => []

/-- They are the buffers the loop goes through. -/
theorem readHeads_mem : ∀ {body : Body} {head h : Bytes}, h ∈ readHeads srv head body →
    ∃ rest, rest <:+ body ∧ readPreamble srv head body = readPreamble srv h rest := by
  intro body
  induction body with
  | nil =>
    intro head h hh
    rw [readHeads, List.mem_singleton] at hh
    subst hh
    exact ⟨[], List.suffix_refl _, rfl⟩
  | cons item body ih =>
    intro head h hh
    simp only [readHeads, List.mem_cons] at hh
    rcases hh with rfl | hh
    · exact ⟨item :: body, List.suffix_refl _, rfl⟩
    · split at hh
      · rename_i ht
        cases item with
        | error e => exact absurd hh List.not_mem_nil
        | ok chunk =>
          obtain ⟨rest, hsuf, heq⟩ := ih hh
          refine ⟨rest, hsuf.trans (List.suffix_cons _ _), ?_⟩
          rw [← heq, readPreamble, ht]
      · exact absurd hh List.not_mem_nil

/-- A buffer the loop goes on from is shorter than the longest frame. -/
theorem takePreamble_none_length {head : Bytes} (h : takePreamble srv head = .ok none) :
    head.length < 4 + maxPreamble := by
  unfold takePreamble at h
  rw [preambleEnd_eq] at h
  cases hd : declared head with
  | none =>
    have : ¬ 4 ≤ head.length := by
      rw [← declared_isSome_iff, hd]
      simp
    omega
  | some len =>
    rw [hd] at h
    simp only at h
    by_cases hmax : maxPreamble < len
    · rw [if_pos hmax] at h
      exact absurd h (by simp)
    · rw [if_neg hmax] at h
      by_cases hlen : 4 + len ≤ head.length
      · rw [if_pos hlen] at h
        simp only at h
        split at h
        · exact absurd h (by simp)
        · exact absurd h (by simp)
      · omega

/-- **The buffer holds less than the longest frame, and the last chunk.** -/
theorem readHeads_bound : ∀ {body : Body} {head h : Bytes}, h ∈ readHeads srv head body →
    h = head ∨ ∃ before chunk, h = before ++ chunk ∧ .ok chunk ∈ body ∧
      before.length < 4 + maxPreamble := by
  intro body
  induction body with
  | nil =>
    intro head h hh
    exact Or.inl (List.mem_singleton.mp hh)
  | cons item body ih =>
    intro head h hh
    simp only [readHeads, List.mem_cons] at hh
    rcases hh with rfl | hh
    · exact Or.inl rfl
    · split at hh
      · rename_i ht
        cases item with
        | error e => exact absurd hh List.not_mem_nil
        | ok chunk =>
          right
          rcases ih hh with rfl | ⟨before, c, rfl, hc, hlt⟩
          · exact ⟨head, chunk, rfl, List.mem_cons_self, takePreamble_none_length ht⟩
          · exact ⟨before, c, rfl, List.mem_cons_of_mem _ hc, hlt⟩
      · exact absurd hh List.not_mem_nil

/-! ## The round trip -/

/-- **Framing round-trips through any chunking.** A framed preamble and a NAR, cut anywhere, are
read back as that preamble and that NAR. Of arbitrary bytes, a declared length over the limit is
refused on the chunk that completes it, a body that ends before its frame is refused, and the
buffer never holds more than the longest frame and one chunk. -/
theorem framing_round_trip (srv : Server δ) (toJson : Preamble → Bytes) (preamble : Preamble)
    (hjson : (toJson preamble).length ≤ maxPreamble)
    (hparse : srv.parse (toJson preamble) = .ok preamble) :
    (∀ (nar : Bytes) (chunks : List Bytes), chunks.flatten = preamble.toFramed toJson ++ nar →
      ∃ (leftover : Bytes) (rest : List Bytes),
        readPreamble srv [] (chunks.map .ok) = .ok (preamble, leftover, rest.map .ok) ∧
        (leftover :: rest).flatten = nar) ∧
    (∀ (chunks : List Bytes) (chunk : Bytes) (rest : Body) (len : ℕ), chunks.flatten.length < 4 →
      declared (chunks.flatten ++ chunk) = some len → maxPreamble < len →
      readPreamble srv [] (chunks.map .ok ++ .ok chunk :: rest) =
        .error (.refused "preamble length is implausible")) ∧
    (∀ chunks : List Bytes, ¬ FrameComplete chunks.flatten →
      ∃ message, readPreamble srv [] (chunks.map .ok) = .error (.refused message)) ∧
    ∀ (body : Body), ∀ head ∈ readHeads srv [] body, head = [] ∨
      ∃ chunk, .ok chunk ∈ body ∧ head.length ≤ 4 + maxPreamble + chunk.length := by
  refine ⟨fun nar chunks hflat => ?_, fun chunks chunk rest len hshort hdecl hlen => ?_,
    fun chunks h => ?_, fun body head hh => ?_⟩
  · obtain ⟨leftover, rest, hread, hnar⟩ := readPreamble_framed hjson hparse
      (show [] ++ chunks.flatten = preamble.toFramed toJson ++ nar from hflat)
    exact ⟨leftover, rest, hread, by rw [List.flatten_cons, hnar]⟩
  · exact readPreamble_implausible hlen hshort hdecl
  · exact readPreamble_incomplete h
  · rcases readHeads_bound hh with rfl | ⟨before, chunk, rfl, hc, hlt⟩
    · exact Or.inl rfl
    · refine Or.inr ⟨chunk, hc, ?_⟩
      rw [List.length_append]
      omega

end

namespace Sample

/-- The chunks of the example's body. -/
def chunks : List Bytes :=
  [[0xbf, 0x00], [0x00, 0x00] ++ json ++ frame.take 4, [], frame.drop 4]

end Sample

/-- The example's upload is read back: its body is the frame of its preamble and then the blob. -/
theorem framing_round_trip_sample :
    Sample.upload.body = Sample.chunks.map .ok ∧
    ∃ (leftover : Bytes) (rest : List Bytes),
      readPreamble Sample.server [] (Sample.chunks.map .ok) =
        .ok (Sample.preamble, leftover, rest.map .ok) ∧
      (leftover :: rest).flatten = Sample.frame := by
  -- one evaluation: each part alone would encode the text of the preamble again
  obtain ⟨hjson, hparse, hbytes⟩ : Sample.json.length ≤ maxPreamble ∧
      Sample.server.parse Sample.json = .ok Sample.preamble ∧
      Sample.chunks.flatten = Sample.preamble.toFramed (fun _ => Sample.json) ++ Sample.frame := by
    decide +kernel
  exact ⟨rfl, (framing_round_trip Sample.server (fun _ => Sample.json) Sample.preamble hjson
    hparse).1 Sample.frame Sample.chunks hbytes⟩

end Garret
