import Garret.Db.Ops
import Garret.Narinfo
import Garret.Upload.Storage

/-!
# From a request body to a signed row

Model of `store_upload`, `take_preamble` and `build_object` (`crates/garret-pusher/src/main.rs`).
`transfer` is everything up to the signed object: the preamble is read off the body, the rest goes
through the check to S3, and only an accepted, stored NAR is signed. `storeUpload` adds the insert.

* JSON and base64 decoding are parameters of the `Server`, as are the zstd decoder and sha256.
* `{:?}` of a string is `String.quote`.

`transfer_sound` collects what a transfer guarantees; `storeUpload_verified` is the result for the
whole function.
-/

namespace Garret

/-- The JSON metadata that prefixes an uploaded NAR (`Preamble`). -/
structure Preamble where
  storePath : String
  narHash : String
  narSize : Int
  references : List String
  deriver : Option String
  ca : Option String
  deriving DecidableEq, Repr

/-- Why an upload failed: the caller's 400, a store that failed, or a server fault. -/
inductive UploadError where
  | refused (message : String)
  | store (e : PutError)
  | failed (message : String)
  deriving DecidableEq, Repr

/-- The configuration and libraries of the Pusher that a transfer uses. -/
structure Server (δ : Type) where
  zstd : Zstd δ
  sha256 : Bytes → Bytes
  parse : Bytes → Except String Preamble
  decodeB64 : String → Option Bytes
  storeDir : String
  keys : List SigningKeyFile
  limits : UploadLimits

/-- What the outside decides in one transfer: the body and its chunking, the check thread's
progress, and the S3 side. -/
structure Transfer where
  body : Body
  sched : ℕ → Sched
  s3 : S3

/-! ## The preamble -/

/-- `MAX_PREAMBLE`. -/
def maxPreamble : ℕ := 1024 * 1024

/-- `u32::from_le_bytes`. -/
def fromLeBytes (a b c d : UInt8) : ℕ :=
  a.toNat + 256 * b.toNat + 65536 * c.toNat + 16777216 * d.toNat

/-- `preamble_end`: where a framed preamble ends, once all of it has arrived. -/
def preambleEnd (buf : Bytes) (max : ℕ) : Except ℕ (Option ℕ) :=
  match buf with
  | a :: b :: c :: d :: _ =>
    let len := fromLeBytes a b c d
    if max < len then .error len
    else if len ≤ buf.length - 4 then .ok (some (4 + len)) else .ok none
  | _ => .ok none

section

variable {δ : Type} (srv : Server δ)

/-- `take_preamble`: the preamble and what follows it. -/
def takePreamble (buf : Bytes) : Except UploadError (Option (Preamble × Bytes)) :=
  match preambleEnd buf maxPreamble with
  | .error _ => .error (.refused "preamble length is implausible")
  | .ok none => .ok none
  | .ok (some stop) =>
    match srv.parse ((buf.take stop).drop 4) with
    | .error e => .error (.refused ("bad preamble: " ++ e))
    | .ok preamble => .ok (some (preamble, buf.drop stop))

/-- The read loop of `store_upload`: the preamble, the start of the NAR and the rest of the body. -/
def readPreamble : Bytes → Body → Except UploadError (Preamble × Bytes × Body)
  | head, [] =>
    match takePreamble srv head with
    | .error e => .error e
    | .ok (some (preamble, leftover)) => .ok (preamble, leftover, [])
    | .ok none => .error (.refused "body ended before the preamble was complete")
  | head, item :: body =>
    match takePreamble srv head with
    | .error e => .error e
    | .ok (some (preamble, leftover)) => .ok (preamble, leftover, item :: body)
    | .ok none =>
      match item with
      | .error e => .error (.refused e)
      | .ok chunk => readPreamble (head ++ chunk) body

/-- The `basename` closure of `build_object`. -/
def basename (path what : String) : Except UploadError String :=
  match storeBasename path srv.storeDir with
  | some base => .ok base
  | none => .error (.refused (what ++ " " ++ path.quote ++ " is not a store path in " ++ srv.storeDir))

/-- The name of the object: its store path is `<store_dir>/<hash>-<name>` for the URL's hash. -/
def objectName (hash : String) (preamble : Preamble) : Except UploadError String :=
  match (storeBasename preamble.storePath srv.storeDir).bind fun base =>
      (stripPrefix hash base).bind (stripPrefix "-") with
  | some name => .ok name
  | none => .error (.refused ("store path " ++ preamble.storePath.quote ++ " is not " ++
      srv.storeDir ++ "/" ++ hash ++ "-<name>"))

/-- The deriver as a basename, when the preamble has one. -/
def deriverName : Option String → Except UploadError (Option String)
  | none => .ok none
  | some d => (basename srv d "deriver").map some

/-- `ca` is one line: it is printed raw into the narinfo. -/
def checkCa (ca : Option String) : Except UploadError Unit :=
  match ca.filter fun ca => ca.toList.any fun c => c == '\n' || c == '\r' with
  | some ca => .error (.refused ("ca " ++ ca.quote ++ " is not a single line"))
  | none => .ok ()

/-- `build_object`: the unsigned object a preamble describes. -/
def buildObject (hash : String) (preamble : Preamble) (subject : String) :
    Except UploadError Object := do
  let name ← objectName srv hash preamble
  let references ← preamble.references.mapM fun r => basename srv r "reference"
  let deriver ← deriverName srv preamble.deriver
  checkCa preamble.ca
  let narHash ← (normalizeHash srv.decodeB64 preamble.narHash).mapError .refused
  return {
    storePathHash := hash
    storePath := preamble.storePath
    name := name
    narHash := narHash
    narSize := preamble.narSize
    fileHash := ""
    fileSize := 0
    deriver := deriver
    ca := preamble.ca
    references := references.insertionSort (· ≤ ·)
    sigs := []
    pushedBy := some subject }

/-! ## The transfer -/

/-- What a transfer did: the blob it made visible, how the check ended, what the store returned if
it was reached, and the signed object. -/
structure Transferred where
  visible : Option Bytes
  outcome : Option Outcome
  stored : Option (Except PutError (Bytes × Int))
  result : Except UploadError Object

/-- The end of `store_upload` before the insert: only an accepted, stored NAR is signed. -/
def signStored (object : Object) (outcome : Option Outcome)
    (stored : Except PutError (Bytes × Int)) : Except UploadError Object :=
  match outcome with
  | some .accepted =>
    match stored with
    | .error e => .error (.store e)
    | .ok (digest, fileSize) =>
      let object := { object with fileHash := sha256Nix32 digest, fileSize := fileSize }
      match sign object srv.storeDir srv.keys with
      | .error e => .error (.failed e)
      | .ok sigs => .ok { object with sigs := sigs }
  | some (.failed reason) => .error (.failed reason)
  | some (.refused reason) => .error (.refused reason)
  | none =>
    match stored with
    | .error e => .error (.store e)
    | .ok _ => .error (.failed "stored a NAR the check never accepted")

/-- What a store that ended so makes of the transfer. -/
def Stored.transferred (object : Object) (s : Stored δ) : Transferred :=
  ⟨s.visible, s.reader.body.outcome, some s.result,
    signStored srv object s.reader.body.outcome s.result⟩

/-- `store_upload` up to the signed object. -/
def transfer (hash subject : String) (t : Transfer) : Transferred :=
  match readPreamble srv [] t.body with
  | .error e => ⟨none, none, none, .error e⟩
  | .ok (preamble, leftover, rest) =>
    match buildObject srv hash preamble subject with
    | .error e => ⟨none, none, none, .error e⟩
    | .ok object =>
      let nar := VerifiedNar.new srv.zstd (.ok leftover :: rest) object.narHash object.narSize
      (putStreaming srv.zstd srv.sha256 t.sched srv.limits t.s3 (keyFor hash) nar
        (maxCompressedLen srv.zstd object.narSize)).transferred srv object

/-- `store_upload`, with the timestamp it takes and the database its insert runs on. -/
def storeUpload (hash subject : String) (t : Transfer) (at' : Int) (io : Faults) (db : Db) :
    Transferred × Db :=
  let moved := transfer srv hash subject t
  match moved.result with
  | .error _ => (moved, db)
  | .ok object => (moved, (insertObject io object at' db).2)

/-! ## What a transfer guarantees -/

/-- `pre` is the frame of `preamble`: its length in four bytes, then its JSON. -/
def Framed (pre : Bytes) (preamble : Preamble) : Prop :=
  preambleEnd pre maxPreamble = .ok (some pre.length) ∧ srv.parse (pre.drop 4) = .ok preamble

variable {srv}

theorem preambleEnd_take {buf : Bytes} {max stop : ℕ}
    (h : preambleEnd buf max = .ok (some stop)) :
    preambleEnd (buf.take stop) max = .ok (some (buf.take stop).length) ∧ stop ≤ buf.length := by
  unfold preambleEnd at h
  split at h
  · rename_i a b c d rest
    simp only at h
    split at h
    · exact absurd h (by simp)
    · rename_i hmax
      split at h
      · rename_i hlen
        obtain rfl : 4 + fromLeBytes a b c d = stop := by simpa using h
        have hstop : 4 + fromLeBytes a b c d ≤ (a :: b :: c :: d :: rest).length := by
          simp only [List.length_cons] at hlen ⊢
          omega
        refine ⟨?_, hstop⟩
        have htake : (a :: b :: c :: d :: rest).take (4 + fromLeBytes a b c d) =
            a :: b :: c :: d :: rest.take (fromLeBytes a b c d) := by
          rw [Nat.add_comm]
          rfl
        rw [List.length_take, Nat.min_eq_left hstop, htake]
        unfold preambleEnd
        simp only [List.length_cons, List.length_take] at hlen ⊢
        rw [if_neg hmax, if_pos (by omega)]
      · exact absurd h (by simp)
  · exact absurd h (by simp)

theorem takePreamble_some {buf leftover : Bytes} {preamble : Preamble}
    (h : takePreamble srv buf = .ok (some (preamble, leftover))) :
    ∃ pre, buf = pre ++ leftover ∧ Framed srv pre preamble := by
  unfold takePreamble at h
  split at h
  · exact absurd h (by simp)
  · exact absurd h (by simp)
  · rename_i stop hend
    split at h
    · exact absurd h (by simp)
    · rename_i p hp
      simp only [Except.ok.injEq, Option.some.injEq, Prod.mk.injEq] at h
      obtain ⟨rfl, rfl⟩ := h
      exact ⟨buf.take stop, (List.take_append_drop _ _).symm, (preambleEnd_take hend).1, hp⟩

/-- The read loop splits the body after the preamble. -/
theorem readPreamble_ok : ∀ {body : Body} {head leftover : Bytes} {preamble : Preamble}
    {rest : Body}, readPreamble srv head body = .ok (preamble, leftover, rest) →
    ∃ pre, ∃ chunks : List Bytes, body = chunks.map .ok ++ rest ∧
      head ++ chunks.flatten = pre ++ leftover ∧ Framed srv pre preamble
  | [], head, leftover, preamble, rest, h => by
    simp only [readPreamble] at h
    split at h
    · exact absurd h (by simp)
    · rename_i p l ht
      simp only [Except.ok.injEq, Prod.mk.injEq] at h
      obtain ⟨rfl, rfl, rfl⟩ := h
      obtain ⟨pre, hpre, hf⟩ := takePreamble_some ht
      exact ⟨pre, [], rfl, by simpa using hpre, hf⟩
    · exact absurd h (by simp)
  | item :: body, head, leftover, preamble, rest, h => by
    simp only [readPreamble] at h
    split at h
    · exact absurd h (by simp)
    · rename_i p l ht
      simp only [Except.ok.injEq, Prod.mk.injEq] at h
      obtain ⟨rfl, rfl, rfl⟩ := h
      obtain ⟨pre, hpre, hf⟩ := takePreamble_some ht
      exact ⟨pre, [], rfl, by simpa using hpre, hf⟩
    · split at h
      · exact absurd h (by simp)
      · rename_i chunk
        obtain ⟨pre, chunks, hb, hpre, hf⟩ := readPreamble_ok h
        refine ⟨pre, chunk :: chunks, by simp [hb], ?_, hf⟩
        simpa using hpre

/-- What `build_object` carries over from the request. -/
theorem buildObject_ok {hash subject : String} {preamble : Preamble} {object : Object}
    (h : buildObject srv hash preamble subject = .ok object) :
    object.storePathHash = hash ∧ object.pushedBy = some subject ∧
      object.narSize = preamble.narSize ∧
      normalizeHash srv.decodeB64 preamble.narHash = .ok object.narHash := by
  unfold buildObject at h
  obtain ⟨name, -, h⟩ := bind_eq_ok.mp h
  obtain ⟨references, -, h⟩ := bind_eq_ok.mp h
  obtain ⟨deriver, -, h⟩ := bind_eq_ok.mp h
  obtain ⟨_, -, h⟩ := bind_eq_ok.mp h
  obtain ⟨narHash, hn, h⟩ := bind_eq_ok.mp h
  obtain rfl := Except.ok.inj h
  refine ⟨rfl, rfl, rfl, ?_⟩
  cases hnorm : normalizeHash srv.decodeB64 preamble.narHash with
  | error e =>
    rw [hnorm] at hn
    exact absurd hn (by simp [Except.mapError])
  | ok n =>
    rw [hnorm] at hn
    rw [Except.ok.inj hn]

/-- The path of an object has a hash. -/
theorem buildObject_named {hash subject : String} {preamble : Preamble} {object : Object}
    (h : buildObject srv hash preamble subject = .ok object) : hash ≠ "" := by
  rintro rfl
  unfold buildObject at h
  obtain ⟨name, hname, -⟩ := bind_eq_ok.mp h
  unfold objectName at hname
  split at hname
  · rename_i n hn
    obtain ⟨base, hbase, hn⟩ := Option.bind_eq_some_iff.mp hn
    obtain ⟨rest, hrest, hdash⟩ := Option.bind_eq_some_iff.mp hn
    have hsame : rest = base := by
      simpa [stripPrefix] using hrest.symm
    subst hsame
    refine storeBasename_dash hbase ?_
    unfold stripPrefix at hdash
    split at hdash
    · rename_i hp
      exact List.isPrefixOf_iff_prefix.mp hp
    · exact absurd hdash (by simp)
  · exact absurd hname (by simp)

/-- Only an accepted, stored NAR is signed; the object then carries the store's digest and size. -/
theorem signStored_ok {object signed : Object} {outcome : Option Outcome}
    {stored : Except PutError (Bytes × Int)}
    (h : signStored srv object outcome stored = .ok signed) :
    outcome = some .accepted ∧ ∃ digest fileSize, stored = .ok (digest, fileSize) ∧
      signed = { object with
        fileHash := sha256Nix32 digest, fileSize := fileSize, sigs := signed.sigs } ∧
      sign signed srv.storeDir srv.keys = .ok signed.sigs := by
  unfold signStored at h
  split at h
  · split at h
    · exact absurd h (by simp)
    · rename_i digest fileSize
      simp only at h
      split at h
      · exact absurd h (by simp)
      · rename_i sigs hs
        obtain rfl := Except.ok.inj h
        exact ⟨rfl, digest, fileSize, rfl, rfl, hs⟩
  · exact absurd h (by simp)
  · exact absurd h (by simp)
  · split at h
    · exact absurd h (by simp)
    · exact absurd h (by simp)

/-- The request's body is the frame of `preamble` and then `blob`; `object` is what the preamble
describes; and `blob` is what it claims: whole frames of a NAR of that size and hash. -/
structure Claimed (srv : Server δ) (hash subject : String) (body : Body) (blob : Bytes)
    (preamble : Preamble) (object : Object) : Prop where
  body : ∃ pre, ∃ chunks : List Bytes, body = chunks.map .ok ∧ chunks.flatten = pre ++ blob ∧
    Framed srv pre preamble
  built : buildObject srv hash preamble subject = .ok object
  nar : ∃ nar, srv.zstd.Whole blob nar ∧ (nar.length : Int) = preamble.narSize ∧
    normalizeHash srv.decodeB64 preamble.narHash = .ok (sha256Nix32 (srv.sha256 nar))

/-- What a transfer guarantees. -/
structure Transferred.Sound (m : Transferred) (srv : Server δ) (hash subject : String)
    (body : Body) : Prop where
  visible : ∀ blob, m.visible = some blob → m.outcome = some .accepted ∧
    ∃ preamble object, Claimed srv hash subject body blob preamble object
  signed : ∀ signed, m.result = .ok signed → ∃ blob preamble object, m.visible = some blob ∧
    (∃ digest, m.stored = some (.ok digest)) ∧
    Claimed srv hash subject body blob preamble object ∧
    signed = { object with
      fileHash := sha256Nix32 (srv.sha256 blob), fileSize := blob.length, sigs := signed.sigs } ∧
    sign signed srv.storeDir srv.keys = .ok signed.sigs

/-- A body read to its end is the preamble and the blob. -/
theorem BodyReader.Ended.claimed {r : BodyReader δ} {hash subject : String} {body rest : Body}
    {preamble : Preamble} {leftover : Bytes} {object : Object}
    (hend : r.Ended srv.zstd srv.sha256 object.narHash object.narSize (.ok leftover :: rest))
    (hread : readPreamble srv [] body = .ok (preamble, leftover, rest))
    (hobj : buildObject srv hash preamble subject = .ok object)
    (hle : r.hashed.length ≤ maxObject) :
    Claimed srv hash subject body r.hashed preamble object := by
  obtain ⟨pre, chunks, hbody, hpre, hframe⟩ := readPreamble_ok hread
  obtain ⟨tail, htail, hflat⟩ := hend.read
  obtain ⟨nar, hw, hn, hh⟩ := hend.checked
  -- frames that fit S3 hold a NAR whose length fits the count
  have hexp : nar.length ≤ 2 ^ 17 * maxObject :=
    (srv.zstd.expands hw).trans (Nat.mul_le_mul_left _ hle)
  rw [wrapI64_of_lt (Nat.lt_of_le_of_lt hexp (by decide))] at hn
  obtain ⟨-, -, hsize, hnorm⟩ := buildObject_ok hobj
  cases tail with
  | nil => exact absurd htail (by simp)
  | cons first more =>
    simp only [List.map_cons, List.cons.injEq, Except.ok.injEq] at htail
    obtain ⟨rfl, rfl⟩ := htail
    refine ⟨⟨pre, chunks ++ more, by simp [hbody], ?_, hframe⟩, hobj, nar, hw, ?_, ?_⟩
    rotate_left
    · rw [hn, hsize]
    · rw [hh, hnorm]
    rw [List.nil_append] at hpre
    rw [List.flatten_append, ← hflat, List.flatten_cons, ← List.append_assoc, hpre]

theorem Stored.transferred_sound {s : Stored δ} {hash subject : String} {body rest : Body}
    {preamble : Preamble} {leftover : Bytes} {object : Object}
    (hs : s.Sound srv.zstd srv.sha256 object.narHash object.narSize (.ok leftover :: rest))
    (hread : readPreamble srv [] body = .ok (preamble, leftover, rest))
    (hobj : buildObject srv hash preamble subject = .ok object) :
    (s.transferred srv object).Sound srv hash subject body := by
  refine ⟨fun blob hb => ?_, fun signed hsigned => ?_⟩
  · obtain ⟨hend, rfl, hle⟩ := hs.visible blob hb
    exact ⟨hend.outcome, preamble, object, hend.claimed hread hobj hle⟩
  · obtain ⟨-, digest, fileSize, hok, heq, hsigs⟩ := signStored_ok hsigned
    obtain ⟨hvis, hdig⟩ := hs.ok _ hok
    obtain ⟨rfl, rfl⟩ := Prod.mk.inj hdig
    obtain ⟨hend, -, hle⟩ := hs.visible _ hvis
    exact ⟨_, preamble, object, hvis, ⟨_, congrArg some hok⟩, hend.claimed hread hobj hle, heq,
      hsigs⟩

/-- **What a transfer guarantees**, for every body, chunking, schedule and S3 outcome. -/
theorem transfer_sound (hash subject : String) (t : Transfer) :
    (transfer srv hash subject t).Sound srv hash subject t.body := by
  unfold transfer
  split
  · exact ⟨by simp, by simp⟩
  · rename_i preamble leftover rest hread
    split
    · exact ⟨by simp, by simp⟩
    · rename_i object hobj
      exact Stored.transferred_sound (putStreaming_sound _) hread hobj

/-- **Only verified bytes are stored and signed.** A blob becomes visible only when the body was
read to its end with outcome `Accepted`, and then it is the body after the preamble and what the
preamble claims. A row is inserted only under a visible blob, with its digest and length; every
other outcome and every failed store leaves the database as it was. -/
theorem storeUpload_verified (srv : Server δ) (hash subject : String) (t : Transfer) (at' : Int)
    (io : Faults) (db : Db) :
    (∀ blob, (storeUpload srv hash subject t at' io db).1.visible = some blob →
      (storeUpload srv hash subject t at' io db).1.outcome = some .accepted ∧
      ∃ preamble object, Claimed srv hash subject t.body blob preamble object) ∧
    ((storeUpload srv hash subject t at' io db).2 = db ∨
      ∃ blob preamble object signed,
        (storeUpload srv hash subject t at' io db).1.visible = some blob ∧
        Claimed srv hash subject t.body blob preamble object ∧
        signed = { object with
          fileHash := sha256Nix32 (srv.sha256 blob), fileSize := blob.length, sigs := signed.sigs } ∧
        InsertedBy signed at' db (storeUpload srv hash subject t at' io db).2 ∧
        (storeUpload srv hash subject t at' io db).2.row? hash = some (signed.toRow at')) ∧
    ((storeUpload srv hash subject t at' io db).1.outcome ≠ some .accepted →
      (storeUpload srv hash subject t at' io db).2 = db) ∧
    ∀ e, (storeUpload srv hash subject t at' io db).1.stored = some (.error e) →
      (storeUpload srv hash subject t at' io db).2 = db := by
  have hsound := @transfer_sound _ srv hash subject t
  have hmoved : (storeUpload srv hash subject t at' io db).1 = transfer srv hash subject t := by
    unfold storeUpload
    simp only
    split <;> rfl
  rw [hmoved]
  cases hres : (transfer srv hash subject t).result with
  | error e =>
    have hdb : (storeUpload srv hash subject t at' io db).2 = db := by
      simp only [storeUpload, hres]
    exact ⟨hsound.visible, Or.inl hdb, fun _ => hdb, fun _ _ => hdb⟩
  | ok signed =>
    obtain ⟨blob, preamble, object, hvis, ⟨digest, hst⟩, hclaim, heq, -⟩ := hsound.signed signed hres
    have hdb : (storeUpload srv hash subject t at' io db).2 = (insertObject io signed at' db).2 := by
      simp only [storeUpload, hres]
    have hhash : signed.storePathHash = hash := by
      rw [heq]
      exact (buildObject_ok hclaim.built).1
    refine ⟨hsound.visible, ?_, fun hne => absurd (hsound.visible blob hvis).1 hne, fun e he => ?_⟩
    · rw [hdb]
      rcases insertObject_cases (Prod.mk.eta (p := insertObject io signed at' db)).symm with
        ⟨-, hi⟩ | ⟨-, hsame⟩
      · refine Or.inr ⟨blob, preamble, object, signed, hvis, hclaim, heq, hi, ?_⟩
        rw [hi.row?, if_pos hhash.symm]
      · exact Or.inl hsame
    · rw [hst] at he
      exact absurd he (by simp)

end

/-! ## One upload -/

namespace Sample

/-- The NAR of the example: six bytes. -/
def nar : Bytes := [0x67, 0x61, 0x72, 0x72, 0x65, 0x74]

/-- Its zstd frame: magic, a single-segment header with the content size, one raw block. -/
def frame : Bytes := [0x28, 0xb5, 0x2f, 0xfd, 0x20, 0x06, 0x31, 0x00, 0x00] ++ nar

/-- A decoder that knows one frame. Its state is what it has consumed. -/
def run (x src : Bytes) (_ : ℕ) : Except String (Ran Bytes) :=
  if src = [] then .ok ⟨x, 0, [], 1⟩
  else if x ++ src = frame then .ok ⟨x ++ src, src.length, nar, 0⟩
  else if x ++ src <+: frame then .ok ⟨x ++ src, src.length, [], 1⟩
  else .error "Unknown frame descriptor"

/-- What the decoder has produced after `x`. -/
def At (d x y : Bytes) : Prop :=
  d = x ∧ x <+: frame ∧ y = if x = frame then nar else []

theorem run_spec {d x y src : Bytes} {room : ℕ} {r : Ran Bytes} (h : At d x y)
    (hr : run d src room = .ok r) :
    r.consumed ≤ src.length ∧ At r.state (x ++ src.take r.consumed) (y ++ r.out) ∧
      (0 < r.consumed ∨ r.out ≠ [] → r.hint = 0 →
        x ++ src.take r.consumed = frame ∧ y ++ r.out = nar) := by
  obtain ⟨rfl, hpre, rfl⟩ := h
  unfold run at hr
  split at hr
  · obtain rfl := Except.ok.inj hr
    exact ⟨Nat.zero_le _, by simp [At, hpre], by simp⟩
  · rename_i hne
    -- `d` is a proper prefix, so nothing was produced before
    have hproper : ∀ h : d ++ src <+: frame, d ≠ frame := by
      intro hp he
      have := hp.length_le
      rw [he, List.length_append] at this
      exact hne (List.length_eq_zero_iff.mp (by omega))
    split at hr
    · rename_i heq
      obtain rfl := Except.ok.inj hr
      have hd := hproper (heq ▸ List.prefix_refl _)
      refine ⟨Nat.le_refl _, ⟨by simp, ?_, ?_⟩, fun _ _ => ?_⟩
      · simp [heq]
      · simp [heq, hd]
      · simp [heq, hd]
    · split at hr
      · rename_i hnf hp
        obtain rfl := Except.ok.inj hr
        have hd := hproper hp
        refine ⟨Nat.le_refl _, ⟨by simp, ?_, ?_⟩, fun _ h1 => absurd h1 (by simp)⟩
        · simpa using hp
        · simp [hnf, hd]
      · exact absurd hr (by simp)

/-- The decoder as the check sees it. -/
def zstd : Zstd Bytes where
  init := []
  run := run
  compressBound := fun n => n + n / 256 + 64
  At := At
  Whole := fun x y => x = frame ∧ y = nar
  at_init := ⟨rfl, List.nil_prefix, by decide⟩
  run_at := fun h hr => ⟨(run_spec h hr).1, (run_spec h hr).2.1⟩
  run_whole := fun h hr hp h0 => (run_spec h hr).2.2 hp h0
  expands := by
    rintro x y ⟨rfl, rfl⟩
    decide

/-- sha256 at the two inputs the example hashes. -/
def sha256 (x : Bytes) : Bytes :=
  if x = nar then
    [162, 220, 152, 225, 246, 135, 93, 253, 44, 99, 208, 200, 167, 150, 22, 168, 132, 135, 40, 255,
      150, 102, 3, 38, 183, 91, 208, 211, 218, 224, 223, 224]
  else if x = frame then
    [1, 191, 99, 239, 158, 73, 232, 141, 64, 237, 178, 169, 119, 106, 19, 25, 163, 214, 81, 189, 81,
      3, 61, 154, 15, 143, 105, 172, 53, 137, 50, 193]
  else []

/-- The hash of the example's store path. -/
def hash : String := "0c7qrl7qkgy1ypf0n3c8b1kz3w5hlm2d"

/-- The preamble the example sends. -/
def preamble : Preamble where
  storePath := "/nix/store/0c7qrl7qkgy1ypf0n3c8b1kz3w5hlm2d-app"
  narHash := "sha256:1q6zw3dd7l2vnwk06rlnzwl8g1582sbagj6hccngspc7yvhrip52"
  narSize := 6
  references := []
  deriver := none
  ca := none

/-- Its JSON. -/
def json : Bytes :=
  ("\x7b\"store_path\":\"/nix/store/0c7qrl7qkgy1ypf0n3c8b1kz3w5hlm2d-app\"," ++
    "\"nar_hash\":\"sha256:1q6zw3dd7l2vnwk06rlnzwl8g1582sbagj6hccngspc7yvhrip52\"," ++
    "\"nar_size\":6,\"references\":[],\"deriver\":null,\"ca\":null\x7d").toList.map
    fun c => UInt8.ofNat c.toNat

/-- A server that parses one JSON text. -/
def server : Server Bytes where
  zstd := zstd
  sha256 := sha256
  parse := fun b => if b = json then .ok preamble else .error "expected value"
  decodeB64 := fun _ => none
  storeDir := "/nix/store"
  keys := [echoKey]
  limits := ⟨8, 2, by decide⟩

/-- The frame of the preamble and the NAR in four chunks, one of them empty; the frame is stored in
two parts, and the second part's upload ends first. -/
def upload : Transfer where
  body := [.ok [0xbf, 0x00], .ok ([0x00, 0x00] ++ json ++ frame.take 4), .ok [],
    .ok (frame.drop 4)]
  sched := fun _ => ⟨1, false⟩
  s3 := ⟨.ok, true, fun _ => true, fun _ => 1, .ok⟩

end Sample

/-- The example's upload is stored, and its row carries the digest and length of the frame. -/
theorem storeUpload_verified_sample :
    ∃ signed, (storeUpload Sample.server Sample.hash "ci" Sample.upload 7 noFaults Db.empty).1.visible =
        some Sample.frame ∧
      (storeUpload Sample.server Sample.hash "ci" Sample.upload 7 noFaults Db.empty).1.outcome =
        some .accepted ∧
      InsertedBy signed 7 Db.empty
        (storeUpload Sample.server Sample.hash "ci" Sample.upload 7 noFaults Db.empty).2 ∧
      signed.fileSize = 15 := by
  have h := storeUpload_verified Sample.server Sample.hash "ci" Sample.upload 7 noFaults Db.empty
  obtain ⟨hvis, hrow⟩ : (storeUpload Sample.server Sample.hash "ci" Sample.upload 7 noFaults
      Db.empty).1.visible = some Sample.frame ∧
      ((storeUpload Sample.server Sample.hash "ci" Sample.upload 7 noFaults Db.empty).2.row?
        Sample.hash).isSome = true := by decide +kernel
  rcases h.2.1 with hsame | ⟨blob, preamble, object, signed, hb, -, heq, hi, -⟩
  · rw [hsame] at hrow
    exact absurd hrow (by simp)
  · obtain rfl : Sample.frame = blob := Option.some.inj (hvis.symm.trans hb)
    exact ⟨signed, hvis, (h.1 _ hvis).1, hi, by rw [heq]; rfl⟩

end Garret
