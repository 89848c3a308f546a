import Garret.Upload.Verify
import Mathlib.Algebra.GroupWithZero.Nat
import Mathlib.Data.List.Sort

/-!
# Streaming a body to S3

Model of `BodyReader`, `put_streaming` and `multipart_body` (`crates/garret-server/src/storage.rs`)
over the stream of `VerifiedNar`. The S3 side is an oracle (`S3`): which requests fail, whether a
failed one took effect, and in which order the part uploads complete; it stores no object larger
than `maxObject`. Memory permits only delay a read, so they are left out.

* `BodyReader.Reading`: what was appended to parts, and the carry, is what the stream passed on.
  `BodyReader.Ended`: the stream reached its end, accepted, and all of it was appended.
* `fill_cases` and `hasMore_cases`: a short part means the end, a full one does not.
* `putStreaming_visible`: a blob becomes visible only after the end, and it is the whole body.
-/

namespace Garret

/-- Why a store failed. -/
inductive PutError where
  /-- `ClientBodyError`: reading the body failed. -/
  | body (message : String)
  /-- `BodyOverLimit`. -/
  | overLimit (message : String)
  /-- `S3Failure`. -/
  | s3 (message : String)
  | internal (message : String)
  deriving DecidableEq, Repr

/-! ## `BodyReader` -/

/-- The body as consumed so far; `hashed` is what was appended to parts, so its length is
`received`. `polls` numbers the reads for the oracle. -/
structure BodyReader (δ : Type) where
  body : VerifiedNar δ
  carry : Option Bytes
  hashed : Bytes
  polls : ℕ

section

variable {δ : Type} (z : Zstd δ) (sha256 : Bytes → Bytes) (sched : ℕ → Sched)

/-- `BodyReader::new`. -/
def BodyReader.new (body : VerifiedNar δ) : BodyReader δ := ⟨body, none, [], 0⟩

/-- `BodyReader::next`: the carry first. -/
def BodyReader.next (r : BodyReader δ) : Except PutError (Option Bytes) × BodyReader δ :=
  match r.carry with
  | some left => (.ok (some left), { r with carry := none })
  | none =>
    match r.body.next z sha256 (sched r.polls) with
    | (none, body) => (.ok none, { r with body := body, polls := r.polls + 1 })
    | (some (.ok chunk), body) => (.ok (some chunk), { r with body := body, polls := r.polls + 1 })
    | (some (.error e), body) =>
      (.error (.body ("reading request body: " ++ e)), { r with body := body, polls := r.polls + 1 })

/-- `BodyReader::append`. -/
def BodyReader.append (r : BodyReader δ) (bytes : Bytes) : BodyReader δ :=
  { r with hashed := r.hashed ++ bytes }

/-- The loop of `fill`. Every turn takes the carry or one item of the body. -/
def fillLoop (cap : ℕ) : ℕ → Bytes → BodyReader δ → Except PutError Bytes × BodyReader δ
  | 0, _, r => (.error (.internal "fill did not end"), r)
  | fuel + 1, part, r =>
    if part.length < cap then
      match r.next z sha256 sched with
      | (.error e, r) => (.error e, r)
      | (.ok none, r) => (.ok part, r)
      | (.ok (some chunk), r) =>
        let room := cap - part.length
        if room < chunk.length then
          (.ok (part ++ chunk.take room),
            { r.append (chunk.take room) with carry := some (chunk.drop room) })
        else fillLoop cap fuel (part ++ chunk) (r.append chunk)
    else (.ok part, r)

/-- `BodyReader::fill` into an empty part. -/
def BodyReader.fill (cap : ℕ) (r : BodyReader δ) : Except PutError Bytes × BodyReader δ :=
  fillLoop z sha256 sched cap (r.body.inner.length + 3) [] r

/-- The loop of `has_more`. -/
def hasMoreLoop : ℕ → BodyReader δ → Except PutError Bool × BodyReader δ
  | 0, r => (.error (.internal "has_more did not end"), r)
  | fuel + 1, r =>
    match r.next z sha256 sched with
    | (.error e, r) => (.error e, r)
    | (.ok none, r) => (.ok false, r)
    | (.ok (some chunk), r) =>
      if chunk = [] then hasMoreLoop fuel r else (.ok true, { r with carry := some chunk })

/-- `BodyReader::has_more`. -/
def BodyReader.hasMore (r : BodyReader δ) : Except PutError Bool × BodyReader δ :=
  hasMoreLoop z sha256 sched (r.body.inner.length + 2) r

/-- `BodyReader::finish`: the digest and length of what was appended. -/
def BodyReader.finish (r : BodyReader δ) : Bytes × Int :=
  (sha256 r.hashed, wrapI64 r.hashed.length)

/-! ## What the reader has appended -/

/-- Part of `body` was read, without an error: what was appended and the carry, in order. -/
structure BodyReader.Reading (r : BodyReader δ) (hash : String) (size : Int) (body : Body) : Prop
    where
  read : ∃ chunks : List Bytes, body = chunks.map .ok ++ r.body.inner ∧
    chunks.flatten = r.hashed ++ r.carry.getD []
  passed : r.body.Passed z hash size (r.hashed ++ r.carry.getD [])

/-- All of `body` was read and appended, and it was accepted. -/
structure BodyReader.Ended (r : BodyReader δ) (hash : String) (size : Int) (body : Body) : Prop
    where
  read : ∃ chunks : List Bytes, body = chunks.map .ok ∧ chunks.flatten = r.hashed
  checked : Checked z sha256 hash size r.hashed
  outcome : r.body.outcome = some .accepted

variable {z} {sha256} {sched} {hash : String} {size : Int} {body : Body}

theorem BodyReader.reading_new :
    (BodyReader.new (VerifiedNar.new z body hash size)).Reading z hash size body :=
  ⟨⟨[], rfl, rfl⟩, VerifiedNar.passed_new body⟩

/-- One read: a chunk that is still to be appended, the end, or an error. -/
theorem BodyReader.next_cases {r r' : BodyReader δ} {res : Except PutError (Option Bytes)}
    (h : r.Reading z hash size body) (hn : r.next z sha256 sched = (res, r')) :
    (∃ chunk, res = .ok (some chunk) ∧ r'.carry = none ∧ r'.hashed = r.hashed ∧
      (r'.append chunk).Reading z hash size body ∧
      ∀ a b, a ++ b = chunk →
        { r'.append a with carry := some b }.Reading z hash size body) ∨
    (res = .ok none ∧ r'.hashed = r.hashed ∧ r'.Ended z sha256 hash size body) ∨
    (∃ e, res = .error e) ∧ r'.body.outcome ≠ some .accepted := by
  obtain ⟨⟨chunks, hbody, hflat⟩, hpass⟩ := h
  unfold BodyReader.next at hn
  split at hn
  · rename_i left hcarry
    obtain ⟨rfl, rfl⟩ := Prod.mk.inj hn
    rw [hcarry] at hflat hpass
    refine Or.inl ⟨left, rfl, rfl, rfl, ⟨⟨chunks, hbody, ?_⟩, ?_⟩, fun a b hab => ?_⟩
    · simpa [BodyReader.append] using hflat
    · simpa [BodyReader.append] using hpass
    · refine ⟨⟨chunks, hbody, ?_⟩, ?_⟩
      · simpa [BodyReader.append, hab] using hflat
      · simpa [BodyReader.append, hab] using hpass
  · rename_i hcarry
    rw [hcarry, Option.getD_none, List.append_nil] at hflat hpass
    split at hn
    · rename_i nar hnext
      obtain ⟨rfl, rfl⟩ := Prod.mk.inj hn
      rcases VerifiedNar.next_cases hpass hnext with ⟨_, hbad, -⟩ | ⟨-, hin, -, hacc, hck⟩ |
        ⟨⟨e, hbad⟩, -⟩
      · exact absurd hbad (by simp)
      · refine Or.inr (Or.inl ⟨rfl, rfl, ⟨chunks, ?_, hflat⟩, hck, hacc⟩)
        rw [hbody, hin, List.append_nil]
      · exact absurd hbad (by simp)
    · rename_i chunk nar hnext
      obtain ⟨rfl, rfl⟩ := Prod.mk.inj hn
      rcases VerifiedNar.next_cases hpass hnext with ⟨c, hc, hin, hp⟩ | ⟨hbad, -⟩ | ⟨⟨e, hbad⟩, -⟩
      · obtain rfl : chunk = c := by simpa using hc
        have hread : body = (chunks ++ [chunk]).map .ok ++ nar.inner := by
          rw [hbody, hin]
          simp
        refine Or.inl ⟨chunk, rfl, hcarry, rfl, ⟨⟨chunks ++ [chunk], hread, ?_⟩, ?_⟩,
          fun a b hab => ⟨⟨chunks ++ [chunk], hread, ?_⟩, ?_⟩⟩
        · simp [BodyReader.append, hflat, hcarry]
        · simpa [BodyReader.append, hcarry] using hp
        · simp [BodyReader.append, hflat, hab]
        · simpa [BodyReader.append, hab] using hp
      · exact absurd hbad (by simp)
      · exact absurd hbad (by simp)
    · rename_i e nar hnext
      obtain ⟨rfl, rfl⟩ := Prod.mk.inj hn
      rcases VerifiedNar.next_cases hpass hnext with ⟨_, hbad, -⟩ | ⟨hbad, -⟩ | ⟨-, hout⟩
      · exact absurd hbad (by simp)
      · exact absurd hbad (by simp)
      · exact Or.inr (Or.inr ⟨⟨_, rfl⟩, hout⟩)

/-- A read that returns a chunk: it is appended whole, or its tail becomes the carry. -/
theorem BodyReader.next_chunk {r r' : BodyReader δ} {chunk : Bytes}
    (h : r.Reading z hash size body) (hn : r.next z sha256 sched = (.ok (some chunk), r')) :
    r'.hashed = r.hashed ∧ (r'.append chunk).Reading z hash size body ∧
      ∀ a b, a ++ b = chunk → { r'.append a with carry := some b }.Reading z hash size body := by
  rcases BodyReader.next_cases h hn with ⟨c, hc, -, hsame, hfull, hsplit⟩ | ⟨hbad, -⟩ |
    ⟨⟨e, hbad⟩, -⟩
  · obtain rfl : chunk = c := by simpa using hc
    exact ⟨hsame, hfull, hsplit⟩
  · exact absurd hbad (by simp)
  · exact absurd hbad (by simp)

/-- A read that finds the end. -/
theorem BodyReader.next_end {r r' : BodyReader δ} (h : r.Reading z hash size body)
    (hn : r.next z sha256 sched = (.ok none, r')) :
    r'.hashed = r.hashed ∧ r'.Ended z sha256 hash size body := by
  rcases BodyReader.next_cases h hn with ⟨_, hbad, -⟩ | ⟨-, hend⟩ | ⟨⟨e, hbad⟩, -⟩
  · exact absurd hbad (by simp)
  · exact hend
  · exact absurd hbad (by simp)

/-- A read that fails. -/
theorem BodyReader.next_error {r r' : BodyReader δ} {e : PutError}
    (h : r.Reading z hash size body) (hn : r.next z sha256 sched = (.error e, r')) :
    r'.body.outcome ≠ some .accepted := by
  rcases BodyReader.next_cases h hn with ⟨_, hbad, -⟩ | ⟨hbad, -⟩ | ⟨-, hout⟩
  · exact absurd hbad (by simp)
  · exact absurd hbad (by simp)
  · exact hout

theorem BodyReader.Reading.not_accepted {r : BodyReader δ} (h : r.Reading z hash size body) :
    r.body.outcome ≠ some .accepted := by
  rw [h.passed.outcome]
  simp

theorem fillLoop_cases {cap : ℕ} : ∀ {fuel : ℕ} {part : Bytes} {r r' : BodyReader δ}
    {res : Except PutError Bytes}, r.Reading z hash size body → part.length ≤ cap →
    fillLoop z sha256 sched cap fuel part r = (res, r') →
    (∃ new, res = .ok (part ++ new) ∧ r'.hashed = r.hashed ++ new ∧
      ((part ++ new).length = cap ∧ r'.Reading z hash size body ∨
        (part ++ new).length < cap ∧ r'.Ended z sha256 hash size body)) ∨
    (∃ e, res = .error e) ∧ r'.body.outcome ≠ some .accepted
  | 0, part, r, r', res, hr, _, h => by
    obtain ⟨rfl, rfl⟩ := Prod.mk.inj h
    exact Or.inr ⟨⟨_, rfl⟩, hr.not_accepted⟩
  | fuel + 1, part, r, r', res, hr, hle, h => by
    simp only [fillLoop] at h
    split at h
    · rename_i hlt
      split at h
      · rename_i e r₁ hn
        obtain ⟨rfl, rfl⟩ := Prod.mk.inj h
        exact Or.inr ⟨⟨_, rfl⟩, BodyReader.next_error hr hn⟩
      · rename_i r₁ hn
        obtain ⟨rfl, rfl⟩ := Prod.mk.inj h
        obtain ⟨heq, hend⟩ := BodyReader.next_end hr hn
        exact Or.inl ⟨[], by simp, by simp [heq], Or.inr ⟨by simpa using hlt, hend⟩⟩
      · rename_i chunk r₁ hn
        obtain ⟨heq, hfull, hsplit⟩ := BodyReader.next_chunk hr hn
        split at h
        · -- the chunk overshoots: its tail becomes the carry
          rename_i hroom
          obtain ⟨rfl, rfl⟩ := Prod.mk.inj h
          refine Or.inl ⟨chunk.take (cap - part.length), rfl, ?_, Or.inl ⟨?_, ?_⟩⟩
          · simp [BodyReader.append, heq]
          · rw [List.length_append, List.length_take]
            omega
          · exact hsplit _ _ (List.take_append_drop _ _)
        · rename_i hroom
          have hle' : (part ++ chunk).length ≤ cap := by
            rw [List.length_append]
            omega
          rcases fillLoop_cases hfull hle' h with ⟨new, rfl, hhash, hlen⟩ | hbad
          · refine Or.inl ⟨chunk ++ new, by simp, ?_, ?_⟩
            · rw [hhash]
              simp [BodyReader.append, heq]
            · rwa [← List.append_assoc]
          · exact Or.inr hbad
    · rename_i hnot
      obtain ⟨rfl, rfl⟩ := Prod.mk.inj h
      exact Or.inl ⟨[], by simp, by simp, Or.inl ⟨by simp; omega, hr⟩⟩

/-- **A part**: a full one is followed by more reads, a short one means the end of the body. -/
theorem BodyReader.fill_cases {cap : ℕ} {r r' : BodyReader δ} {res : Except PutError Bytes}
    (hr : r.Reading z hash size body) (h : r.fill z sha256 sched cap = (res, r')) :
    (∃ part, res = .ok part ∧ r'.hashed = r.hashed ++ part ∧
      (part.length = cap ∧ r'.Reading z hash size body ∨
        part.length < cap ∧ r'.Ended z sha256 hash size body)) ∨
    (∃ e, res = .error e) ∧ r'.body.outcome ≠ some .accepted := by
  rcases fillLoop_cases hr (Nat.zero_le _) h with ⟨new, h1, h2, h3⟩ | hbad
  · exact Or.inl ⟨new, by simpa using h1, h2, by simpa using h3⟩
  · exact Or.inr hbad

theorem hasMoreLoop_cases : ∀ {fuel : ℕ} {r r' : BodyReader δ} {res : Except PutError Bool},
    r.Reading z hash size body → hasMoreLoop z sha256 sched fuel r = (res, r') →
    (res = .ok false ∧ r'.hashed = r.hashed ∧ r'.Ended z sha256 hash size body) ∨
    res = .ok true ∧ r'.body.outcome ≠ some .accepted ∨
    (∃ e, res = .error e) ∧ r'.body.outcome ≠ some .accepted
  | 0, r, r', res, hr, h => by
    obtain ⟨rfl, rfl⟩ := Prod.mk.inj h
    exact Or.inr (Or.inr ⟨⟨_, rfl⟩, hr.not_accepted⟩)
  | fuel + 1, r, r', res, hr, h => by
    simp only [hasMoreLoop] at h
    split at h
    · rename_i e r₁ hn
      obtain ⟨rfl, rfl⟩ := Prod.mk.inj h
      exact Or.inr (Or.inr ⟨⟨_, rfl⟩, BodyReader.next_error hr hn⟩)
    · rename_i r₁ hn
      obtain ⟨rfl, rfl⟩ := Prod.mk.inj h
      obtain ⟨heq, hend⟩ := BodyReader.next_end hr hn
      exact Or.inl ⟨rfl, heq, hend⟩
    · rename_i chunk r₁ hn
      obtain ⟨heq, hfull, -⟩ := BodyReader.next_chunk hr hn
      split at h
      · rename_i hnil
        subst hnil
        have happ : r₁.append [] = r₁ := by simp [BodyReader.append]
        rw [happ] at hfull
        rcases hasMoreLoop_cases hfull h with ⟨h1, h2, h3⟩ | hrest
        · exact Or.inl ⟨h1, h2.trans heq, h3⟩
        · exact Or.inr hrest
      · obtain ⟨rfl, rfl⟩ := Prod.mk.inj h
        exact Or.inr (Or.inl ⟨rfl, hfull.not_accepted⟩)

end

/-! ## `put_streaming` -/

/-- How an S3 request that writes a blob ended. -/
inductive Request where
  | ok
  /-- It failed, and had no effect. -/
  | lost
  /-- It failed, and took effect. -/
  | applied
  deriving DecidableEq, Repr

/-- The S3 side of one store. -/
structure S3 where
  put : Request
  /-- Whether `CreateMultipartUpload` returned an upload id. -/
  create : Bool
  /-- Whether part `n` was uploaded. -/
  part : ℕ → Bool
  /-- Which part upload `join_next` returns, by turn. -/
  picks : ℕ → ℕ
  complete : Request

/-- Part uploads in flight and those collected, by part number. -/
structure Parts where
  inFlight : List (ℕ × Bytes)
  completed : List (ℕ × Bytes)
  deriving DecidableEq, Repr

/-- The largest object S3 has: 10 000 parts of 5 GiB. -/
def maxObject : ℕ := 10000 * (5 * 1024 * 1024 * 1024)

/-- What becomes of a request that stores `blob`: S3 does nothing for one that is too large. -/
def Request.on (blob : Bytes) (q : Request) : Request := if blob.length ≤ maxObject then q else .lost

/-- The bytes a request for `blob` makes visible. -/
def Request.visible (blob : Bytes) : Request → Option Bytes
  | .ok => some blob
  | .lost => none
  | .applied => some blob

/-- `collect`: the next part upload to end. -/
def collect (s3 : S3) (p : Parts) : Except PutError Parts :=
  match p.inFlight[s3.picks p.completed.length % p.inFlight.length]? with
  | none => .error (.internal "no part upload was in flight")
  | some part =>
    if s3.part part.1 then
      .ok ⟨p.inFlight.erase part, p.completed ++ [part]⟩
    else .error (.s3 ("uploading part " ++ toString part.1))

/-- Collect until fewer than `limit` part uploads are in flight. -/
def collectBelow (s3 : S3) (limit : ℕ) : ℕ → Parts → Except PutError Parts
  | 0, p =>
    if p.inFlight.length < limit then .ok p else .error (.internal "no part upload was in flight")
  | fuel + 1, p =>
    if p.inFlight.length < limit then .ok p
    else match collect s3 p with
      | .ok p => collectBelow s3 limit fuel p
      | .error e => .error e

/-- What a store did: the blob it made visible, what it returned, and the reader it left. -/
structure Stored (δ : Type) where
  visible : Option Bytes
  result : Except PutError (Bytes × Int)
  reader : BodyReader δ

/-- `UploadLimits`, as far as parts are concerned. -/
structure UploadLimits where
  partSize : ℕ
  maxPartsInFlight : ℕ
  partSize_pos : 0 < partSize

section

variable {δ : Type} (z : Zstd δ) (sha256 : Bytes → Bytes) (sched : ℕ → Sched)
variable (limits : UploadLimits) (s3 : S3) (key : String)

/-- The bytes left to read. -/
def BodyReader.left (r : BodyReader δ) : ℕ :=
  (r.carry.getD []).length + (r.body.inner.map fun i => (i.toOption.getD []).length).sum

/-- The read loop of `multipart_body`, after part `n`; every turn but the last takes a whole part. -/
def multipartLoop : ℕ → ℕ → Parts → BodyReader δ → Except PutError Parts × BodyReader δ
  | 0, _, _, r => (.error (.internal "multipart_body did not end"), r)
  | fuel + 1, n, p, r =>
    match collectBelow s3 limits.maxPartsInFlight (p.inFlight.length + 1) p with
    | .error e => (.error e, r)
    | .ok p =>
      match r.fill z sha256 sched limits.partSize with
      | (.error e, r) => (.error e, r)
      | (.ok part, r) =>
        if part = [] then (.ok p, r)
        else
          let p := { p with inFlight := p.inFlight ++ [(n + 1, part)] }
          if part.length < limits.partSize then (.ok p, r) else multipartLoop fuel (n + 1) p r

/-- The end of `multipart_body`: collect every part, order them, complete the upload. -/
def completeUpload (p : Parts) (r : BodyReader δ) : Stored δ :=
  match collectBelow s3 1 (p.inFlight.length + 1) p with
  | .error e => ⟨none, .error e, r⟩
  | .ok p =>
    let completed := p.completed.insertionSort fun a b => a.1 ≤ b.1
    let blob := (completed.map Prod.snd).flatten
    ⟨(s3.complete.on blob).visible blob,
      if s3.complete.on blob = .ok then .ok (r.finish sha256)
      else .error (.s3 ("completing multipart upload for " ++ key)), r⟩

/-- The multipart branch: `first` is part 1. A failure aborts the upload, which shows nothing. -/
def multipart (first : Bytes) (r : BodyReader δ) : Stored δ :=
  if s3.create then
    match multipartLoop z sha256 sched limits s3 (r.left + 2) 1 ⟨[(1, first)], []⟩ r with
    | (.error e, r) => ⟨none, .error e, r⟩
    | (.ok p, r) => completeUpload sha256 s3 key p r
  else ⟨none, .error (.s3 ("starting multipart upload for " ++ key)), r⟩

/-- `put_streaming`: one `PutObject` when the whole body fits a part, a multipart upload else. -/
def putStreaming (body : VerifiedNar δ) (firstPartHint : ℕ) : Stored δ :=
  let reserve := min (max firstPartHint 1) limits.partSize
  match (BodyReader.new body).fill z sha256 sched reserve with
  | (.error e, r) => ⟨none, .error e, r⟩
  | (.ok first, r) =>
    let (more, r) :=
      if first.length = reserve ∧ reserve < limits.partSize then r.hasMore z sha256 sched
      else (.ok false, r)
    match more with
    | .error e => ⟨none, .error e, r⟩
    | .ok true =>
      ⟨none, .error (.overLimit ("upload body exceeds the " ++ toString reserve ++
        "-byte limit for its size")), r⟩
    | .ok false =>
      if first.length < limits.partSize then
        ⟨(s3.put.on first).visible first,
          if s3.put.on first = .ok then .ok (r.finish sha256)
          else .error (.s3 ("uploading " ++ key)), r⟩
      else multipart z sha256 sched limits s3 key first r

end

/-! ## The parts add up to the body -/

/-- Parts numbered from 1. -/
def numbered (parts : List Bytes) : List (ℕ × Bytes) := parts.zipIdx 1 |>.map Prod.swap

theorem mem_numbered {parts : List Bytes} {a : ℕ × Bytes} (h : a ∈ numbered parts) :
    1 ≤ a.1 ∧ parts[a.1 - 1]? = some a.2 := by
  obtain ⟨e, he, rfl⟩ := List.mem_map.mp h
  exact List.mem_zipIdx_iff_le_and_getElem?_sub.mp he

theorem numbered_append (parts : List Bytes) (part : Bytes) :
    numbered (parts ++ [part]) = numbered parts ++ [(parts.length + 1, part)] := by
  simp [numbered, List.zipIdx_append, Nat.add_comm]

theorem numbered_sorted : ∀ (parts : List Bytes) (n : ℕ),
    ((parts.zipIdx n).map Prod.swap).Pairwise fun a b : ℕ × Bytes => a.1 ≤ b.1
  | [], _ => by simp
  | p :: ps, n => by
    rw [List.zipIdx_cons, List.map_cons, List.pairwise_cons]
    refine ⟨fun b hb => ?_, numbered_sorted ps (n + 1)⟩
    obtain ⟨e, he, rfl⟩ := List.mem_map.mp hb
    have := (List.mem_zipIdx_iff_le_and_getElem?_sub.mp he).1
    simp only [Prod.fst_swap]
    omega

/-- Ordering completed parts by number restores the order they were cut in. -/
theorem sort_numbered {parts : List Bytes} {l : List (ℕ × Bytes)} (h : l.Perm (numbered parts)) :
    l.insertionSort (fun a b => a.1 ≤ b.1) = numbered parts := by
  have hsorted := List.pairwise_insertionSort (fun a b : ℕ × Bytes => a.1 ≤ b.1) l
  refine List.Perm.eq_of_pairwise (fun a b ha hb hab hba => ?_) hsorted (numbered_sorted parts 1)
    ((List.perm_insertionSort _ _).trans h)
  · have h1 := mem_numbered (h.mem_iff.mp ((List.mem_insertionSort _).mp ha))
    have h2 := mem_numbered hb
    have heq : a.1 = b.1 := Nat.le_antisymm hab hba
    rw [heq, h2.2] at h1
    exact Prod.ext heq (Option.some.inj h1.2).symm

theorem collect_perm {s3 : S3} {p p' : Parts} (h : collect s3 p = .ok p') :
    (p'.inFlight ++ p'.completed).Perm (p.inFlight ++ p.completed) := by
  unfold collect at h
  split at h
  · exact absurd h (by simp)
  · rename_i part hpart
    split at h
    · obtain rfl := Except.ok.inj h
      have hmem : part ∈ p.inFlight := List.mem_of_getElem? hpart
      have hp : (part :: p.inFlight.erase part).Perm p.inFlight := (List.perm_cons_erase hmem).symm
      calc p.inFlight.erase part ++ (p.completed ++ [part])
          _ = p.inFlight.erase part ++ p.completed ++ [part] := (List.append_assoc ..).symm
          _ |>.Perm (part :: (p.inFlight.erase part ++ p.completed)) :=
            List.perm_append_singleton _ _
          _ |>.Perm (p.inFlight ++ p.completed) := hp.append_right p.completed
    · exact absurd h (by simp)

theorem collectBelow_perm {s3 : S3} {limit : ℕ} : ∀ {fuel : ℕ} {p p' : Parts},
    collectBelow s3 limit fuel p = .ok p' →
    p'.inFlight.length < limit ∧ (p'.inFlight ++ p'.completed).Perm (p.inFlight ++ p.completed)
  | 0, p, p', h => by
    simp only [collectBelow] at h
    split at h
    · rename_i hlt
      obtain rfl := Except.ok.inj h
      exact ⟨hlt, List.Perm.refl _⟩
    · exact absurd h (by simp)
  | fuel + 1, p, p', h => by
    simp only [collectBelow] at h
    split at h
    · rename_i hlt
      obtain rfl := Except.ok.inj h
      exact ⟨hlt, List.Perm.refl _⟩
    · split at h
      · rename_i q hq
        obtain ⟨h1, h2⟩ := collectBelow_perm h
        exact ⟨h1, h2.trans (collect_perm hq)⟩
      · exact absurd h (by simp)

section

variable {δ : Type} {z : Zstd δ} {sha256 : Bytes → Bytes} {sched : ℕ → Sched}
variable {limits : UploadLimits} {s3 : S3} {key : String} {hash : String} {size : Int} {body : Body}

/-- The parts cut so far are in flight or completed, and are what was appended. -/
def Parts.Cut (p : Parts) (n : ℕ) (hashed : Bytes) : Prop :=
  ∃ parts : List Bytes, n = parts.length ∧ parts.flatten = hashed ∧
    (p.inFlight ++ p.completed).Perm (numbered parts)

theorem Parts.Cut.collect {p p' : Parts} {limit fuel n : ℕ} {hashed : Bytes} (h : p.Cut n hashed)
    (hc : collectBelow s3 limit fuel p = .ok p') : p'.Cut n hashed := by
  obtain ⟨parts, h1, h2, h3⟩ := h
  exact ⟨parts, h1, h2, (collectBelow_perm hc).2.trans h3⟩

theorem Parts.Cut.add {p : Parts} {n : ℕ} {hashed part : Bytes} (h : p.Cut n hashed) :
    Parts.Cut { p with inFlight := p.inFlight ++ [(n + 1, part)] } (n + 1) (hashed ++ part) := by
  obtain ⟨parts, rfl, rfl, hperm⟩ := h
  refine ⟨parts ++ [part], by simp, by simp, ?_⟩
  rw [numbered_append]
  simp only [List.append_assoc]
  refine (List.Perm.append_left _ List.perm_append_comm).trans ?_
  rw [← List.append_assoc]
  exact hperm.append_right _

/-- The read loop ends at the end of the body, with all of it cut into parts. -/
theorem multipartLoop_cases :
    ∀ {fuel n : ℕ} {p : Parts} {r r' : BodyReader δ} {res : Except PutError Parts},
    r.Reading z hash size body → p.Cut n r.hashed →
    multipartLoop z sha256 sched limits s3 fuel n p r = (res, r') →
    (∃ p' n', res = .ok p' ∧ p'.Cut n' r'.hashed ∧ r'.Ended z sha256 hash size body) ∨
    (∃ e, res = .error e)
  | 0, _, _, _, _, _, _, _, h => by
    obtain ⟨rfl, rfl⟩ := Prod.mk.inj h
    exact Or.inr ⟨_, rfl⟩
  | fuel + 1, n, p, r, r', res, hr, hcut, h => by
    simp only [multipartLoop] at h
    split at h
    · obtain ⟨rfl, rfl⟩ := Prod.mk.inj h
      exact Or.inr ⟨_, rfl⟩
    · rename_i p₁ hcol
      have hcut₁ := hcut.collect hcol
      split at h
      · obtain ⟨rfl, rfl⟩ := Prod.mk.inj h
        exact Or.inr ⟨_, rfl⟩
      · rename_i part r₁ hfill
        rcases BodyReader.fill_cases hr hfill with ⟨new, hnew, hhash, hlen⟩ | ⟨⟨e, he⟩, -⟩
        · obtain rfl : part = new := by simpa using hnew
          split at h
          · rename_i hnil
            obtain ⟨rfl, rfl⟩ := Prod.mk.inj h
            subst hnil
            rcases hlen with ⟨h0, -⟩ | ⟨-, hend⟩
            · have := limits.partSize_pos
              exact absurd h0 (by simp; omega)
            · exact Or.inl ⟨p₁, n, rfl, by simpa [hhash] using hcut₁, hend⟩
          · have hadd : Parts.Cut { p₁ with inFlight := p₁.inFlight ++ [(n + 1, part)] } (n + 1)
                r₁.hashed := by
              rw [hhash]
              exact hcut₁.add
            split at h
            · rename_i hshort
              obtain ⟨rfl, rfl⟩ := Prod.mk.inj h
              rcases hlen with ⟨heq, -⟩ | ⟨-, hend⟩
              · omega
              · exact Or.inl ⟨_, n + 1, rfl, hadd, hend⟩
            · rename_i hfull
              rcases hlen with ⟨-, hreading⟩ | ⟨hlt, -⟩
              · exact multipartLoop_cases hreading hadd h
              · exact absurd hlt hfull
        · exact absurd he (by simp)

/-- What a store guarantees: a blob it makes visible is the whole body, read to its end and
accepted, and no larger than S3 has them; a success made it visible and returns its digest and
length. -/
structure Stored.Sound (s : Stored δ) (z : Zstd δ) (sha256 : Bytes → Bytes) (hash : String)
    (size : Int) (body : Body) : Prop where
  visible : ∀ blob, s.visible = some blob → s.reader.Ended z sha256 hash size body ∧
    blob = s.reader.hashed ∧ blob.length ≤ maxObject
  ok : ∀ digest, s.result = .ok digest → s.visible = some s.reader.hashed ∧
    digest = (sha256 s.reader.hashed, (s.reader.hashed.length : Int))

theorem Stored.sound_error {e : PutError} {r : BodyReader δ} :
    Stored.Sound ⟨none, .error e, r⟩ z sha256 hash size body :=
  ⟨by simp, by simp⟩

/-- A request for the whole body, after its end. -/
theorem Stored.sound_request {q : Request} {e : PutError} {r : BodyReader δ} {blob : Bytes}
    (hend : r.Ended z sha256 hash size body) (hblob : blob = r.hashed) :
    Stored.Sound ⟨(q.on blob).visible blob,
      if q.on blob = .ok then .ok (r.finish sha256) else .error e, r⟩ z sha256 hash size body := by
  subst hblob
  unfold Request.on
  by_cases hle : r.hashed.length ≤ maxObject
  · rw [if_pos hle]
    constructor
    · intro blob hb
      cases q with
      | ok =>
        obtain rfl := Option.some.inj hb
        exact ⟨hend, rfl, hle⟩
      | lost => exact absurd hb (by simp [Request.visible])
      | applied =>
        obtain rfl := Option.some.inj hb
        exact ⟨hend, rfl, hle⟩
    · intro digest hd
      cases q with
      | ok =>
        simp only [if_pos] at hd
        obtain rfl := Except.ok.inj hd
        have hlt : r.hashed.length < 2 ^ 63 := Nat.lt_of_le_of_lt hle (by decide)
        exact ⟨rfl, by rw [BodyReader.finish, wrapI64_of_lt hlt]⟩
      | lost => exact absurd hd (by simp)
      | applied => exact absurd hd (by simp)
  · rw [if_neg hle]
    exact ⟨fun blob hb => absurd hb (by simp [Request.visible]), fun digest hd =>
      absurd hd (by simp)⟩

theorem completeUpload_sound {p : Parts} {n : ℕ} {r : BodyReader δ}
    (hend : r.Ended z sha256 hash size body) (hcut : p.Cut n r.hashed) :
    (completeUpload sha256 s3 key p r).Sound z sha256 hash size body := by
  unfold completeUpload
  split
  · exact Stored.sound_error
  · rename_i p₁ hcol
    obtain ⟨parts, -, hflat, hperm⟩ := hcut.collect hcol
    have hnil : p₁.inFlight = [] := by
      have := (collectBelow_perm hcol).1
      exact List.length_eq_zero_iff.mp (by omega)
    rw [hnil, List.nil_append] at hperm
    refine Stored.sound_request hend ?_
    rw [sort_numbered hperm, ← hflat]
    congr 1
    unfold numbered
    rw [List.map_map]
    exact List.zipIdx_map_fst 1 parts

theorem multipart_sound {first : Bytes} {r : BodyReader δ}
    (hr : r.Reading z hash size body) (hfirst : first = r.hashed) :
    (multipart z sha256 sched limits s3 key first r).Sound z sha256 hash size body := by
  unfold multipart
  split
  · have hcut : Parts.Cut ⟨[(1, first)], []⟩ 1 r.hashed :=
      ⟨[first], rfl, by simp [hfirst], by simp [numbered]⟩
    split
    · exact Stored.sound_error
    · rename_i p r' hl
      rcases multipartLoop_cases hr hcut hl with ⟨p', n', hp, hcut', hend⟩ | ⟨e, he⟩
      · obtain rfl : p = p' := by simpa using hp
        exact completeUpload_sound hend hcut'
      · exact absurd he (by simp)
  · exact Stored.sound_error

/-- **Only a body read to its end and accepted becomes visible**, whole, for every chunking, part
size, hint, order of part uploads and failing request. -/
theorem putStreaming_sound (hint : ℕ) :
    (putStreaming z sha256 sched limits s3 key (VerifiedNar.new z body hash size) hint).Sound
      z sha256 hash size body := by
  unfold putStreaming
  simp only
  split
  · exact Stored.sound_error
  · rename_i first r hfill
    rcases BodyReader.fill_cases BodyReader.reading_new hfill with ⟨new, hnew, hhash, hlen⟩ |
      ⟨⟨e, he⟩, -⟩
    · obtain rfl : first = new := by simpa using hnew
      have hfirst : first = r.hashed := by simpa [BodyReader.new] using hhash.symm
      by_cases hfull : first.length = min (max hint 1) limits.partSize ∧
          min (max hint 1) limits.partSize < limits.partSize
      · -- the reserve is full and below a part: `has_more` decides
        rw [if_pos hfull]
        have hr : r.Reading z hash size body := by
          rcases hlen with ⟨-, hr⟩ | ⟨hlt, -⟩
          · exact hr
          · omega
        split
        · exact Stored.sound_error
        · exact Stored.sound_error
        · rename_i hmore
          rcases hasMoreLoop_cases hr (Prod.mk.eta (p := r.hasMore z sha256 sched)).symm with
            ⟨-, heq, hend⟩ | ⟨hbad, -⟩ | ⟨⟨e, hbad⟩, -⟩
          · rw [if_pos (by omega)]
            exact Stored.sound_request hend (by rw [heq, hfirst])
          · rw [hbad] at hmore
            exact absurd hmore (by simp)
          · rw [hbad] at hmore
            exact absurd hmore (by simp)
      · rw [if_neg hfull]
        simp only
        rcases hlen with ⟨heq, hr⟩ | ⟨hlt, hend⟩
        · have : ¬ first.length < limits.partSize := by omega
          rw [if_neg this]
          exact multipart_sound hr hfirst
        · rw [if_pos (by omega)]
          exact Stored.sound_request hend hfirst
    · exact absurd he (by simp)

end

end Garret
