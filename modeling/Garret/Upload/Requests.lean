import Garret.Upload.Storage

/-!
# The requests of a store

Model of `put_streaming` (`crates/garret-server/src/storage.rs`) over any body, with every request
it sends to S3. The body is what the stream yields, item by item; memory permits only delay a read,
and a stall is one more error in the stream.

* Part numbers are `i32`: they wrap, and S3 refuses the numbers that are not positive (`Server`).
* Part uploads end in any order; `picks` says which one `join_next` returns, by turn.

`fill_spec` and `hasMore_spec` read the body as the bytes that are left: a part is `take`, what
stays is `drop`. `readParts_spec` and `complete_spec` then say that the parts are `chunks`, unless S3 has
refused a request that was sent.
-/

namespace Garret.Streaming

/-- Two's complement: the `i32` a wrapping addition leaves. -/
def wrapI32 (n : Int) : Int := n.bmod (2 ^ 32)

/-- A request to S3 for the key. A completed part stands for its ETag. -/
inductive Call where
  | putObject (body : Bytes)
  | createMultipartUpload
  | uploadPart (number : Int) (body : Bytes)
  | completeMultipartUpload (parts : List (Int × Bytes))
  | abortMultipartUpload
  deriving DecidableEq, Repr

/-- S3, as one store meets it: which requests succeed, and in which order part uploads end. Parts
are numbered from 1 to 10 000, and no object is 2⁶³ bytes long. -/
structure Server where
  answers : Call → Bool
  /-- Which part upload `join_next` returns, by turn. -/
  picks : ℕ → ℕ
  part_number : ∀ {number : Int} {body : Bytes}, answers (.uploadPart number body) = true →
    1 ≤ number ∧ number ≤ 10000
  put_size : ∀ {body : Bytes}, answers (.putObject body) = true → body.length < 2 ^ 63
  complete_size : ∀ {parts : List (Int × Bytes)},
    answers (.completeMultipartUpload parts) = true → (parts.map Prod.snd).flatten.length < 2 ^ 63

/-! ## `BodyReader` -/

/-- The body as consumed so far; `hashed` is what was appended to parts, so its length is
`received`. -/
structure Reader where
  body : Body
  carry : Option Bytes
  hashed : Bytes

namespace Reader

/-- `BodyReader::new`. -/
def new (body : Body) : Reader := ⟨body, none, []⟩

/-- `BodyReader::next`: the carry first. -/
def next (r : Reader) : Except PutError (Option Bytes) × Reader :=
  match r.carry with
  | some left => (.ok (some left), { r with carry := none })
  | none =>
    match r.body with
    | [] => (.ok none, r)
    | .ok chunk :: rest => (.ok (some chunk), { r with body := rest })
    | .error e :: rest =>
      (.error (.body ("reading request body: " ++ e)), { r with body := rest })

/-- `BodyReader::append`. -/
def append (r : Reader) (bytes : Bytes) : Reader := { r with hashed := r.hashed ++ bytes }

/-- The loop of `fill`. Every turn takes the carry or one item of the body. -/
def fillLoop (cap : ℕ) : ℕ → Bytes → Reader → Except PutError Bytes × Reader
  | 0, _, r => (.error (.internal "fill did not end"), r)
  | fuel + 1, part, r =>
    if part.length < cap then
      match r.next with
      | (.error e, r) => (.error e, r)
      | (.ok none, r) => (.ok part, r)
      | (.ok (some chunk), r) =>
        let room := cap - part.length
        if room < chunk.length then
          (.ok (part ++ chunk.take room),
            { r.append (chunk.take room) with carry := some (chunk.drop room) })
        else fillLoop cap fuel (part ++ chunk) (r.append chunk)
    else (.ok part, r)

/-- `BodyReader::fill` into an empty part. -/
def fill (cap : ℕ) (r : Reader) : Except PutError Bytes × Reader :=
  fillLoop cap (r.body.length + 3) [] r

/-- The loop of `has_more`. -/
def hasMoreLoop : ℕ → Reader → Except PutError Bool × Reader
  | 0, r => (.error (.internal "has_more did not end"), r)
  | fuel + 1, r =>
    match r.next with
    | (.error e, r) => (.error e, r)
    | (.ok none, r) => (.ok false, r)
    | (.ok (some chunk), r) =>
      if chunk = [] then hasMoreLoop fuel r else (.ok true, { r with carry := some chunk })

/-- `BodyReader::has_more`. -/
def hasMore (r : Reader) : Except PutError Bool × Reader := hasMoreLoop (r.body.length + 3) r

/-- `BodyReader::finish`: the digest and length of what was appended. -/
def finish (sha256 : Bytes → Bytes) (r : Reader) : Bytes × Int :=
  (sha256 r.hashed, wrapI64 r.hashed.length)

/-- The bytes left to read. -/
def left (r : Reader) : ℕ :=
  (r.carry.getD []).length + (r.body.map fun i => (i.toOption.getD []).length).sum

end Reader

/-! ## `put_streaming` -/

/-- A multipart upload: what was sent, and the parts in flight and collected. -/
structure Multipart where
  calls : List Call
  inFlight : List (Int × Bytes)
  completed : List (Int × Bytes)

/-- `in_flight.spawn(self.upload_part(..))`. -/
def Multipart.spawn (u : Multipart) (number : Int) (part : Bytes) : Multipart where
  calls := u.calls ++ [.uploadPart number part]
  inFlight := u.inFlight ++ [(number, part)]
  completed := u.completed

/-- What a store sent and what it returned. -/
structure Sent where
  calls : List Call
  result : Except PutError (Bytes × Int)
  deriving DecidableEq

section

variable (sha256 : Bytes → Bytes) (limits : UploadLimits) (server : Server) (key : String)

/-- `collect`: the next part upload to end. -/
def collect (u : Multipart) : Except PutError Multipart :=
  match u.inFlight[server.picks u.completed.length % u.inFlight.length]? with
  | none => .error (.internal "no part upload was in flight")
  | some part =>
    if server.answers (.uploadPart part.1 part.2) then
      .ok { u with inFlight := u.inFlight.erase part, completed := u.completed ++ [part] }
    else .error (.s3 ("uploading part " ++ toString part.1 ++ " of " ++ key))

/-- Collect until fewer than `limit` part uploads are in flight. -/
def collectBelow (limit : ℕ) : ℕ → Multipart → Except PutError Multipart
  | 0, u =>
    if u.inFlight.length < limit then .ok u
    else .error (.internal "no part upload was in flight")
  | fuel + 1, u =>
    if u.inFlight.length < limit then .ok u
    else match collect server key u with
      | .ok u => collectBelow limit fuel u
      | .error e => .error e

/-- The read loop of `multipart_body`, after part `number`; every turn but the last takes a whole
part. -/
def readParts : ℕ → Int → Multipart → Reader → Except PutError Unit × Multipart × Reader
  | 0, _, u, r => (.error (.internal "multipart_body did not end"), u, r)
  | fuel + 1, number, u, r =>
    match collectBelow server key limits.maxPartsInFlight (u.inFlight.length + 1) u with
    | .error e => (.error e, u, r)
    | .ok u =>
      match r.fill limits.partSize with
      | (.error e, r) => (.error e, u, r)
      | (.ok part, r) =>
        if part = [] then (.ok (), u, r)
        else
          let number := wrapI32 (number + 1)
          let u := u.spawn number part
          if part.length < limits.partSize then (.ok (), u, r) else readParts fuel number u r

/-- The end of `multipart_body`: collect every part, order them, complete the upload. -/
def complete (u : Multipart) : Except PutError Unit × List Call :=
  match collectBelow server key 1 (u.inFlight.length + 1) u with
  | .error e => (.error e, u.calls)
  | .ok u =>
    let completed := u.completed.insertionSort fun a b => a.1 ≤ b.1
    (if server.answers (.completeMultipartUpload completed) then .ok ()
      else .error (.s3 ("completing multipart upload for " ++ key)),
      u.calls ++ [.completeMultipartUpload completed])

/-- `multipart_body`. -/
def multipartBody (u : Multipart) (r : Reader) : Except PutError Unit × List Call × Reader :=
  match readParts limits server key (r.left + 2) 1 u r with
  | (.error e, u, r) => (.error e, u.calls, r)
  | (.ok (), u, r) =>
    let (result, calls) := complete server key u
    (result, calls, r)

/-- The multipart branch: `first` is part 1. A failure aborts the upload. -/
def multipart (first : Bytes) (r : Reader) : Sent :=
  if server.answers .createMultipartUpload then
    match multipartBody limits server key
      (Multipart.spawn ⟨[.createMultipartUpload], [], []⟩ 1 first) r with
    | (.ok (), calls, r) => ⟨calls, .ok (r.finish sha256)⟩
    | (.error e, calls, _) => ⟨calls ++ [.abortMultipartUpload], .error e⟩
  else ⟨[.createMultipartUpload], .error (.s3 ("starting multipart upload for " ++ key))⟩

/-- `first_part_hint.clamp(1, limits.part_size)`: the bytes the first buffer has room for. -/
def reserve (firstPartHint : ℕ) : ℕ := min (max firstPartHint 1) limits.partSize

/-- The `BodyOverLimit` of a reserve. -/
def overLimit (reserve : ℕ) : PutError :=
  .overLimit ("upload body exceeds the " ++ toString reserve ++ "-byte limit for its size")

/-- `put_streaming`: one `PutObject` when the whole body fits a part, a multipart upload else. -/
def putStreaming (body : Body) (firstPartHint : ℕ) : Sent :=
  match (Reader.new body).fill (reserve limits firstPartHint) with
  | (.error e, _) => ⟨[], .error e⟩
  | (.ok first, r) =>
    let (more, r) :=
      if first.length = reserve limits firstPartHint ∧
          reserve limits firstPartHint < limits.partSize
      then r.hasMore
      else (.ok false, r)
    match more with
    | .error e => ⟨[], .error e⟩
    | .ok true => ⟨[], .error (overLimit (reserve limits firstPartHint))⟩
    | .ok false =>
      if first.length < limits.partSize then
        ⟨[.putObject first],
          if server.answers (.putObject first) then .ok (r.finish sha256)
          else .error (.s3 ("uploading " ++ key))⟩
      else multipart sha256 limits server key first r

end

/-! ## Reading the bytes that are left -/

section

variable {r : Reader} {rest part : Bytes} {cap : ℕ}

/-- The stream has no error, and `rest` is what is left of it. -/
def Reader.Holds (r : Reader) (rest : Bytes) : Prop :=
  ∃ cs : List Bytes, r.body = cs.map .ok ∧ r.carry.getD [] ++ cs.flatten = rest

theorem Reader.holds_new (cs : List Bytes) : (Reader.new (cs.map .ok)).Holds cs.flatten :=
  ⟨cs, rfl, rfl⟩

theorem Reader.Holds.append (h : r.Holds rest) (bytes : Bytes) : (r.append bytes).Holds rest := h

theorem Reader.Holds.left_eq (h : r.Holds rest) : r.left = rest.length := by
  obtain ⟨cs, hbody, rfl⟩ := h
  rw [Reader.left, hbody, List.map_map, List.length_append, List.length_flatten]
  rfl

/-- The reads still to come, the one that finds the end apart. -/
def Reader.items (r : Reader) : ℕ := r.body.length + r.carry.toList.length

/-- **One read**: the next bytes that are left, or the end. -/
theorem Reader.next_spec (h : r.Holds rest) :
    (∃ chunk rest' r', r.next = (.ok (some chunk), r') ∧ rest = chunk ++ rest' ∧ r'.Holds rest' ∧
      r'.carry = none ∧ r'.hashed = r.hashed ∧ r'.items < r.items) ∨
    r.next = (.ok none, r) ∧ rest = [] := by
  obtain ⟨cs, hbody, rfl⟩ := h
  cases hcarry : r.carry with
  | some left =>
    refine Or.inl ⟨left, cs.flatten, { r with carry := none }, ?_, rfl, ⟨cs, hbody, rfl⟩, rfl, rfl,
      ?_⟩
    · rw [next, hcarry]
    · simp [items, hcarry]
  | none =>
    cases cs with
    | nil => exact Or.inr ⟨by simp [next, hcarry, hbody], rfl⟩
    | cons chunk cs =>
      refine Or.inl ⟨chunk, cs.flatten, { r with body := cs.map .ok }, ?_, rfl, ⟨cs, rfl, ?_⟩,
        hcarry, rfl, ?_⟩
      · simp [next, hcarry, hbody]
      · rw [hcarry]
        rfl
      · simp [items, hbody]

theorem Reader.fillLoop_spec :
    ∀ {fuel : ℕ} (part : Bytes) {rest : Bytes} {r : Reader}, r.Holds rest →
    r.items < fuel → part.length ≤ cap →
    ∃ r', fillLoop cap fuel part r = (.ok (part ++ rest.take (cap - part.length)), r') ∧
      r'.Holds (rest.drop (cap - part.length)) ∧
      r'.hashed = r.hashed ++ rest.take (cap - part.length)
  | 0, _, _, _, _, hfuel, _ => absurd hfuel (Nat.not_lt_zero _)
  | fuel + 1, part, rest, r, hr, hfuel, hle => by
    rw [fillLoop]
    split
    · rename_i hlt
      rcases next_spec hr with ⟨chunk, rest', r', hn, rfl, hr', hcarry, hhash, hitems⟩ | ⟨hn, rfl⟩
      · rw [hn]
        simp only
        split
        · -- the chunk overshoots: its tail becomes the carry
          rename_i hroom
          obtain ⟨cs, hbody, hflat⟩ := hr'
          rw [hcarry, Option.getD_none, List.nil_append] at hflat
          have htake : (chunk ++ rest').take (cap - part.length) =
              chunk.take (cap - part.length) := List.take_append_of_le_length (Nat.le_of_lt hroom)
          have hdrop : (chunk ++ rest').drop (cap - part.length) =
              chunk.drop (cap - part.length) ++ rest' :=
            List.drop_append_of_le_length (Nat.le_of_lt hroom)
          rw [htake, hdrop, ← hhash]
          exact ⟨_, rfl, ⟨cs, hbody, by rw [hflat, Option.getD_some]⟩, rfl⟩
        · rename_i hroom
          have hle' : (part ++ chunk).length ≤ cap := by
            rw [List.length_append]
            omega
          have hfuel' : (r'.append chunk).items < fuel := Nat.lt_of_lt_of_le hitems (by omega)
          obtain ⟨r₂, hfill, hr₂, hhash₂⟩ := fillLoop_spec _ (hr'.append chunk) hfuel' hle'
          have hsub : cap - part.length = chunk.length + (cap - (part ++ chunk).length) := by
            rw [List.length_append]
            omega
          rw [hsub, List.take_length_add_append, List.drop_length_add_append]
          refine ⟨r₂, ?_, hr₂, ?_⟩
          · rw [hfill, List.append_assoc]
          · rw [hhash₂, append, hhash, List.append_assoc]
      · rw [hn]
        exact ⟨r, by simp, by simpa using hr, by simp⟩
    · rename_i hge
      have hroom : cap - part.length = 0 := by omega
      rw [hroom]
      exact ⟨r, by simp, by simpa using hr, by simp⟩

/-- **A part is what is left, up to its size.** -/
theorem Reader.fill_spec (cap : ℕ) (hr : r.Holds rest) :
    ∃ r', r.fill cap = (.ok (rest.take cap), r') ∧ r'.Holds (rest.drop cap) ∧
      r'.hashed = r.hashed ++ rest.take cap := by
  have hitems : r.items < r.body.length + 3 := by
    have hcarry : r.carry.toList.length ≤ 1 := by cases r.carry <;> simp
    simp only [items]
    omega
  simpa [fill] using fillLoop_spec [] hr hitems (Nat.zero_le cap)

theorem Reader.hasMoreLoop_spec : ∀ {fuel : ℕ} {rest : Bytes} {r : Reader}, r.Holds rest →
    r.items < fuel →
    ∃ r', hasMoreLoop fuel r = (.ok (decide (rest ≠ [])), r') ∧ r'.Holds rest ∧
      r'.hashed = r.hashed
  | 0, _, _, _, hfuel => absurd hfuel (Nat.not_lt_zero _)
  | fuel + 1, rest, r, hr, hfuel => by
    rw [hasMoreLoop]
    rcases next_spec hr with ⟨chunk, rest', r', hn, rfl, hr', hcarry, hhash, hitems⟩ | ⟨hn, rfl⟩
    · rw [hn]
      simp only
      split
      · rename_i hnil
        subst hnil
        obtain ⟨r₂, hmore, hr₂, hhash₂⟩ := hasMoreLoop_spec hr'
          (Nat.lt_of_lt_of_le hitems (Nat.le_of_lt_succ hfuel))
        exact ⟨r₂, hmore, hr₂, hhash₂.trans hhash⟩
      · rename_i hne
        obtain ⟨cs, hbody, hflat⟩ := hr'
        rw [hcarry, Option.getD_none, List.nil_append] at hflat
        refine ⟨{ r' with carry := some chunk }, ?_, ⟨cs, hbody, by rw [hflat, Option.getD_some]⟩,
          hhash⟩
        simp [hne]
    · rw [hn]
      exact ⟨r, by simp, hr, rfl⟩

/-- **The probe sees whether a byte is left**, and takes none. -/
theorem Reader.hasMore_spec (hr : r.Holds rest) :
    ∃ r', r.hasMore = (.ok (decide (rest ≠ [])), r') ∧ r'.Holds rest ∧ r'.hashed = r.hashed := by
  have hitems : r.items < r.body.length + 3 := by
    have hcarry : r.carry.toList.length ≤ 1 := by cases r.carry <;> simp
    simp only [items]
    omega
  exact hasMoreLoop_spec hr hitems

end

/-! ## Cutting -/

theorem chunksAux_of_le {α : Type} {n : ℕ} (hn : 0 < n) : ∀ {fuel fuel' : ℕ} {l : List α},
    l.length ≤ fuel → l.length ≤ fuel' → chunksAux n fuel l = chunksAux n fuel' l
  | 0, 0, _, _, _ => rfl
  | 0, _ + 1, l, h, _ => by
    obtain rfl := List.length_eq_zero_iff.mp (Nat.le_zero.mp h)
    rfl
  | _ + 1, 0, l, _, h => by
    obtain rfl := List.length_eq_zero_iff.mp (Nat.le_zero.mp h)
    rfl
  | _ + 1, _ + 1, [], _, _ => rfl
  | fuel + 1, fuel' + 1, x :: xs, h, h' => by
    simp only [List.length_cons] at h h'
    have hlen : ((x :: xs).drop n).length ≤ xs.length := by
      rw [List.length_drop, List.length_cons]
      omega
    have hrest : chunksAux n fuel ((x :: xs).drop n) = chunksAux n fuel' ((x :: xs).drop n) :=
      chunksAux_of_le hn (hlen.trans (by omega)) (hlen.trans (by omega))
    rw [chunksAux, chunksAux, hrest]

theorem chunks_nil {α : Type} (n : ℕ) : chunks n ([] : List α) = [] := rfl

theorem chunks_cons {α : Type} {n : ℕ} (hn : 0 < n) {l : List α} (hl : l ≠ []) :
    chunks n l = l.take n :: chunks n (l.drop n) := by
  cases l with
  | nil => exact absurd rfl hl
  | cons x xs =>
    have hlen : ((x :: xs).drop n).length ≤ xs.length := by
      rw [List.length_drop, List.length_cons]
      omega
    rw [chunks, List.length_cons, chunksAux, chunksAux_of_le hn hlen (Nat.le_refl _), chunks]

/-- A list cut every `n`: no piece is empty or longer, and all but the last are of length `n`. -/
theorem chunks_length {α : Type} {n : ℕ} (hn : 0 < n) : ∀ (m : ℕ) (l : List α), l.length ≤ m →
    (∀ c ∈ chunks n l, c ≠ [] ∧ c.length ≤ n) ∧ ∀ c ∈ (chunks n l).dropLast, c.length = n
  | m, l, hm => by
    by_cases hl : l = []
    · subst hl
      exact ⟨fun c hc => absurd hc (by simp [chunks_nil]),
        fun c hc => absurd hc (by simp [chunks_nil])⟩
    · cases m with
      | zero => exact absurd (List.length_eq_zero_iff.mp (Nat.le_zero.mp hm)) hl
      | succ m =>
        have hpos : 0 < l.length := List.length_pos_iff.mpr hl
        have hdrop : (l.drop n).length ≤ m := by
          rw [List.length_drop]
          omega
        obtain ⟨hall, hinit⟩ := chunks_length hn m (l.drop n) hdrop
        rw [chunks_cons hn hl]
        constructor
        · intro c hc
          rcases List.mem_cons.mp hc with rfl | hc
          · refine ⟨fun h0 => ?_, by simp⟩
            have := congrArg List.length h0
            rw [List.length_take, List.length_nil] at this
            omega
          · exact hall c hc
        · intro c hc
          by_cases hnext : l.drop n = []
          · rw [hnext, chunks_nil] at hc
            exact absurd hc (by simp)
          · have hne : chunks n (l.drop n) ≠ [] := by
              rw [chunks_cons hn hnext]
              simp
            rw [List.dropLast_cons_of_ne_nil hne] at hc
            rcases List.mem_cons.mp hc with rfl | hc
            · -- what follows is not empty, so this piece is whole
              have := List.length_pos_iff.mpr hnext
              rw [List.length_drop] at this
              rw [List.length_take]
              omega
            · exact hinit c hc

/-! ## The parts that were cut -/

variable {parts : List Bytes}

/-- Parts numbered from 1, as `i32`. -/
def numbered (parts : List Bytes) : List (Int × Bytes) :=
  parts.zipIdx 1 |>.map fun p => (wrapI32 p.2, p.1)

/-- Parts numbered from 1. -/
def partList (parts : List Bytes) : List (Int × Bytes) :=
  parts.zipIdx 1 |>.map fun p => ((p.2 : Int), p.1)

theorem mem_partList {a : Int × Bytes} (h : a ∈ partList parts) :
    ∃ n : ℕ, a.1 = n ∧ 1 ≤ n ∧ parts[n - 1]? = some a.2 := by
  obtain ⟨p, hp, rfl⟩ := List.mem_map.mp h
  obtain ⟨hpos, hget⟩ := List.mem_zipIdx_iff_le_and_getElem?_sub.mp hp
  exact ⟨p.2, rfl, hpos, hget⟩

theorem partList_sorted : ∀ (parts : List Bytes) (n : ℕ),
    ((parts.zipIdx n).map fun p => ((p.2 : Int), p.1)).Pairwise fun a b : Int × Bytes => a.1 ≤ b.1
  | [], _ => by simp
  | p :: ps, n => by
    rw [List.zipIdx_cons, List.map_cons, List.pairwise_cons]
    refine ⟨fun b hb => ?_, partList_sorted ps (n + 1)⟩
    obtain ⟨e, he, rfl⟩ := List.mem_map.mp hb
    have hle := (List.mem_zipIdx_iff_le_and_getElem?_sub.mp he).1
    simp only
    omega

/-- Ordering completed parts by number restores the order they were cut in. -/
theorem sort_partList {l : List (Int × Bytes)} (h : l.Perm (partList parts)) :
    l.insertionSort (fun a b => a.1 ≤ b.1) = partList parts := by
  have hsorted := List.pairwise_insertionSort (fun a b : Int × Bytes => a.1 ≤ b.1) l
  refine List.Perm.eq_of_pairwise (fun a b ha hb hab hba => ?_) hsorted (partList_sorted parts 1)
    ((List.perm_insertionSort _ _).trans h)
  obtain ⟨m, hm, -, hget⟩ := mem_partList (h.mem_iff.mp ((List.mem_insertionSort _).mp ha))
  obtain ⟨n, hn, -, hget'⟩ := mem_partList hb
  have heq : m = n := by omega
  subst heq
  exact Prod.ext (hm.trans hn.symm) (Option.some.inj (hget.symm.trans hget'))

theorem flatten_partList (parts : List Bytes) :
    ((partList parts).map Prod.snd).flatten = parts.flatten := by
  congr 1
  unfold partList
  rw [List.map_map]
  exact List.zipIdx_map_fst 1 parts

theorem numbered_append (parts : List Bytes) (part : Bytes) :
    numbered (parts ++ [part]) = numbered parts ++ [(wrapI32 ↑(parts.length + 1), part)] := by
  simp [numbered, List.zipIdx_append, Nat.add_comm]

theorem numbered_singleton (part : Bytes) : numbered [part] = [(1, part)] := by
  simp [numbered, wrapI32]

theorem wrapI32_succ (n : ℕ) : wrapI32 (wrapI32 n + 1) = wrapI32 ↑(n + 1) := by
  unfold wrapI32
  rw [Int.bmod_add_bmod, Int.natCast_succ]

theorem wrapI32_of_lt {n : ℕ} (h : n < 2 ^ 31) : wrapI32 n = n := by
  unfold wrapI32
  exact Int.bmod_eq_of_le (by omega) (by omega)

/-- The parts sent so far, in flight or completed. -/
structure Multipart.Cut (u : Multipart) (parts : List Bytes) : Prop where
  calls : u.calls = .createMultipartUpload :: (numbered parts).map fun p => .uploadPart p.1 p.2
  perm : (u.inFlight ++ u.completed).Perm (numbered parts)

/-- S3 refused a request that was sent. -/
def Refused (server : Server) (calls : List Call) : Prop :=
  ∃ call ∈ calls, server.answers call = false

section

variable {sha256 : Bytes → Bytes} {limits : UploadLimits} {server : Server} {key : String}
  {u : Multipart} {parts : List Bytes} {r : Reader} {rest : Bytes}

theorem Multipart.cut_first (first : Bytes) :
    (Multipart.spawn ⟨[.createMultipartUpload], [], []⟩ 1 first).Cut [first] := by
  constructor
  · rw [numbered_singleton]
    rfl
  · rw [numbered_singleton]
    exact List.Perm.refl _

theorem Multipart.Cut.spawn (h : u.Cut parts) (part : Bytes) :
    (u.spawn (wrapI32 ↑(parts.length + 1)) part).Cut (parts ++ [part]) := by
  constructor
  · simp only [Multipart.spawn, h.calls, numbered_append, List.map_append, List.map_cons,
      List.map_nil, List.cons_append]
  · rw [numbered_append]
    simp only [Multipart.spawn, List.append_assoc]
    refine (List.Perm.append_left _ List.perm_append_comm).trans ?_
    rw [← List.append_assoc]
    exact h.perm.append_right _

variable (server key) in
/-- A part upload that ends was sent; only a refusal fails it. -/
theorem collect_spec (h : u.Cut parts) (hne : u.inFlight ≠ []) :
    (∃ u', collect server key u = .ok u' ∧ u'.Cut parts ∧
      u'.inFlight.length + 1 = u.inFlight.length) ∨
    (∃ e, collect server key u = .error e) ∧ Refused server u.calls := by
  have hpos : 0 < u.inFlight.length := List.length_pos_iff.mpr hne
  have hget : ∃ part,
      u.inFlight[server.picks u.completed.length % u.inFlight.length]? = some part :=
    ⟨_, List.getElem?_eq_getElem (Nat.mod_lt _ hpos)⟩
  obtain ⟨part, hpart⟩ := hget
  have hmem : part ∈ u.inFlight := List.mem_of_getElem? hpart
  unfold collect
  rw [hpart]
  simp only
  split
  · have hp : (part :: u.inFlight.erase part).Perm u.inFlight := (List.perm_cons_erase hmem).symm
    refine Or.inl ⟨_, rfl, ⟨h.calls, ?_⟩, hp.length_eq⟩
    calc u.inFlight.erase part ++ (u.completed ++ [part])
        _ = u.inFlight.erase part ++ u.completed ++ [part] := (List.append_assoc ..).symm
        _ |>.Perm (part :: (u.inFlight.erase part ++ u.completed)) :=
          List.perm_append_singleton _ _
        _ |>.Perm (u.inFlight ++ u.completed) := hp.append_right u.completed
        _ |>.Perm (numbered parts) := h.perm
  · rename_i hno
    refine Or.inr ⟨⟨_, rfl⟩, .uploadPart part.1 part.2, ?_, by simpa using hno⟩
    have hsent : part ∈ numbered parts := h.perm.subset (List.mem_append_left _ hmem)
    rw [h.calls]
    exact List.mem_cons_of_mem _ (List.mem_map_of_mem hsent)

variable (server key) in
theorem collectBelow_spec {limit : ℕ} (hlimit : 0 < limit) : ∀ {fuel : ℕ} {u : Multipart},
    u.Cut parts → u.inFlight.length ≤ fuel →
    (∃ u', collectBelow server key limit fuel u = .ok u' ∧ u'.Cut parts ∧
      u'.inFlight.length < limit) ∨
    (∃ e, collectBelow server key limit fuel u = .error e) ∧ Refused server u.calls
  | 0, u, h, hfuel => by
    have hlt : u.inFlight.length < limit := by omega
    exact Or.inl ⟨u, by rw [collectBelow, if_pos hlt], h, hlt⟩
  | fuel + 1, u, h, hfuel => by
    rw [collectBelow]
    split
    · rename_i hlt
      exact Or.inl ⟨u, rfl, h, hlt⟩
    · rename_i hge
      have hne : u.inFlight ≠ [] := by
        rintro hnil
        rw [hnil, List.length_nil] at hge
        omega
      rcases collect_spec server key h hne with
        ⟨u', hc, hcut, hlen⟩ | ⟨⟨e, hc⟩, href⟩
      · rw [hc]
        have hsame : u'.calls = u.calls := hcut.calls.trans h.calls.symm
        rw [← hsame]
        exact collectBelow_spec hlimit hcut (by omega)
      · rw [hc]
        exact Or.inr ⟨⟨e, rfl⟩, href⟩

variable (server key) in
/-- **The read loop cuts what is left into parts**, unless S3 has refused a request. -/
theorem readParts_spec (hmax : 0 < limits.maxPartsInFlight) :
    ∀ {fuel : ℕ} {u : Multipart} {parts : List Bytes} {r : Reader} {rest : Bytes}, u.Cut parts →
    r.Holds rest → rest.length < fuel →
    (∃ u' r', readParts limits server key fuel (wrapI32 parts.length) u r = (.ok (), u', r') ∧
      u'.Cut (parts ++ chunks limits.partSize rest) ∧ r'.hashed = r.hashed ++ rest) ∨
    ∃ e u' r', readParts limits server key fuel (wrapI32 parts.length) u r = (.error e, u', r') ∧
      Refused server u'.calls
  | 0, _, _, _, _, _, _, hfuel => absurd hfuel (Nat.not_lt_zero _)
  | fuel + 1, u, parts, r, rest, hcut, hr, hfuel => by
    rw [readParts]
    rcases collectBelow_spec server key hmax hcut (Nat.le_succ _) with
      ⟨u₁, hc, hcut₁, -⟩ | ⟨⟨e, hc⟩, href⟩
    · rw [hc]
      obtain ⟨r₁, hfill, hr₁, hhash⟩ := Reader.fill_spec limits.partSize hr
      simp only [hfill]
      have hpos := limits.partSize_pos
      by_cases hrest : rest = []
      · subst hrest
        rw [if_pos List.take_nil]
        exact Or.inl ⟨u₁, r₁, rfl, by simpa [chunks_nil] using hcut₁, by simpa using hhash⟩
      · have hlen := List.length_pos_iff.mpr hrest
        have htake : rest.take limits.partSize ≠ [] := by
          intro h0
          have := congrArg List.length h0
          rw [List.length_take, List.length_nil] at this
          omega
        rw [if_neg htake, wrapI32_succ]
        have hcut₂ := hcut₁.spawn (rest.take limits.partSize)
        split
        · -- a short part is the last one
          rename_i hshort
          have hdrop : rest.drop limits.partSize = [] := by
            rw [List.length_take] at hshort
            exact List.drop_eq_nil_iff.mpr (by omega)
          refine Or.inl ⟨_, r₁, rfl, ?_, ?_⟩
          · rw [chunks_cons hpos hrest, hdrop, chunks_nil]
            exact hcut₂
          · rw [hhash, List.take_of_length_le (List.drop_eq_nil_iff.mp hdrop)]
        · have hless : (rest.drop limits.partSize).length < fuel := by
            rw [List.length_drop]
            omega
          have hlast : ((parts ++ [rest.take limits.partSize]).length : Int) =
              ↑(parts.length + 1) := by simp
          have hgo := readParts_spec hmax hcut₂ hr₁ hless
          rw [hlast, List.append_assoc, hhash, List.append_assoc, List.take_append_drop,
            List.singleton_append, ← chunks_cons hpos hrest] at hgo
          exact hgo
    · rw [hc]
      exact Or.inr ⟨e, u, r, rfl, href⟩

theorem exists_numbered {n : ℕ} (hpos : 1 ≤ n) (hle : n ≤ parts.length) :
    ∃ part, (wrapI32 n, part) ∈ numbered parts := by
  have hlt : n - 1 < parts.length := by omega
  have hmem : (parts[n - 1], n) ∈ parts.zipIdx 1 :=
    List.mem_zipIdx_iff_le_and_getElem?_sub.mpr ⟨hpos, List.getElem?_eq_getElem hlt⟩
  exact ⟨parts[n - 1], List.mem_map.mpr ⟨_, hmem, rfl⟩⟩

theorem wrapI32_overflow {n : ℕ} (h : n = 2 ^ 31) : wrapI32 n ≤ 0 := by
  unfold wrapI32
  rw [Int.bmod_eq_neg (by omega) (by omega)]
  omega

/-- Parts that S3 took are numbered 1, 2, 3, and so on. -/
theorem numbered_eq (h : ∀ p ∈ numbered parts, server.answers (.uploadPart p.1 p.2) = true) :
    numbered parts = partList parts := by
  -- the part that wraps would have a number below 1
  have hlen : parts.length < 2 ^ 31 := by
    by_contra hlong
    obtain ⟨n, hn⟩ : ∃ n : ℕ, n = 2 ^ 31 := ⟨_, rfl⟩
    obtain ⟨part, hmem⟩ := exists_numbered (by omega : 1 ≤ n) (by omega : n ≤ parts.length)
    have hpos := (server.part_number (h _ hmem)).1
    have hneg := wrapI32_overflow hn
    omega
  refine List.map_congr_left fun p hp => ?_
  have hmem := List.mem_zipIdx_iff_le_and_getElem?_sub.mp hp
  have hpos := hmem.1
  have hlt := (List.getElem?_eq_some_iff.mp hmem.2).1
  rw [wrapI32_of_lt (by omega)]

/-- **Parts end in any order, and are completed in the order they were cut**, unless S3 has refused
a request. -/
theorem complete_spec (h : u.Cut parts) (hok : ¬ Refused server (complete server key u).2) :
    complete server key u = (.ok (), .createMultipartUpload ::
      (partList parts).map (fun p => .uploadPart p.1 p.2) ++
        [.completeMultipartUpload (partList parts)]) ∧ parts.flatten.length < 2 ^ 63 := by
  revert hok
  unfold complete
  rcases collectBelow_spec server key Nat.one_pos h (Nat.le_succ _) with
    ⟨u', hc, hcut, hlt⟩ | ⟨⟨e, hc⟩, href⟩
  · simp only [hc]
    intro hok
    simp only [Refused, not_exists, not_and, Bool.not_eq_false] at hok
    have hsent : ∀ p ∈ numbered parts, server.answers (.uploadPart p.1 p.2) = true := by
      intro p hp
      refine hok _ (List.mem_append_left _ ?_)
      rw [hcut.calls]
      exact List.mem_cons_of_mem _ (List.mem_map.mpr ⟨p, hp, rfl⟩)
    have hnil : u'.inFlight = [] := List.length_eq_zero_iff.mp (by omega)
    have hperm := hcut.perm
    rw [hnil, List.nil_append, numbered_eq hsent] at hperm
    have hcomplete := hok _ (List.mem_append_right _ (List.mem_singleton_self _))
    have hsize := server.complete_size hcomplete
    rw [sort_partList hperm] at hcomplete hsize ⊢
    rw [flatten_partList] at hsize
    rw [if_pos hcomplete, hcut.calls, numbered_eq hsent]
    exact ⟨rfl, hsize⟩
  · rw [hc]
    exact fun hok => absurd href hok

end

end Garret.Streaming
