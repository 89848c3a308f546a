import Garret.Upload.Requests

/-!
# A body is cut exactly

`putStreaming_exact`: for every chunking of a body, when S3 takes what it is sent, a store sends one
`PutObject`, or nothing, or a multipart upload whose parts are the body cut every `part_size` bytes.
`sentFor` says which, as a function of the body alone, and `putStreaming_eq` that this is what the
code does.
-/

namespace Garret.Streaming

section

variable (sha256 : Bytes → Bytes) (limits : UploadLimits) (hint : ℕ)

/-- The requests of a multipart upload of these parts. -/
def multipartCalls (parts : List Bytes) : List Call :=
  .createMultipartUpload :: (partList parts).map (fun p => .uploadPart p.1 p.2) ++
    [.completeMultipartUpload (partList parts)]

/-- What a store of this body sends and returns, when S3 takes it. -/
def sentFor (body : Bytes) : Sent :=
  if body.length ≤ reserve limits hint ∧ body.length < limits.partSize then
    ⟨[.putObject body], .ok (sha256 body, body.length)⟩
  else if reserve limits hint < limits.partSize then ⟨[], .error (overLimit (reserve limits hint))⟩
  else ⟨multipartCalls (chunks limits.partSize body), .ok (sha256 body, body.length)⟩

/-- A store of `body` that S3 took, request by request. -/
structure Exact (body : Bytes) (sent : Sent) : Prop where
  /-- A body within the reserve and shorter than a part is one request. -/
  whole : body.length ≤ reserve limits hint → body.length < limits.partSize →
    sent = ⟨[.putObject body], .ok (sha256 body, body.length)⟩
  /-- A body over a reserve that is less than a part is refused, and nothing is sent. -/
  tooLong : reserve limits hint < limits.partSize → reserve limits hint < body.length →
    sent = ⟨[], .error (overLimit (reserve limits hint))⟩
  /-- Any other body is cut into parts. -/
  cut : ¬ (body.length ≤ reserve limits hint ∧ body.length < limits.partSize) →
    ¬ (reserve limits hint < limits.partSize ∧ reserve limits hint < body.length) →
    ∃ parts : List Bytes, parts.flatten = body ∧
      (∀ part ∈ parts.dropLast, part.length = limits.partSize) ∧
      (∀ part ∈ parts.getLast?, part ≠ [] ∧ part.length ≤ limits.partSize) ∧
      sent = ⟨multipartCalls parts, .ok (sha256 body, body.length)⟩

end

section

variable {sha256 : Bytes → Bytes} {limits : UploadLimits} {server : Server} {key : String}
  {hint : ℕ} {body rest first : Bytes} {r : Reader}

theorem exact_sentFor (sha256 : Bytes → Bytes) (limits : UploadLimits) (hint : ℕ) (body : Bytes) :
    Exact sha256 limits hint body (sentFor sha256 limits hint body) where
  whole hr hpart := by rw [sentFor, if_pos ⟨hr, hpart⟩]
  tooLong hpart hr := by rw [sentFor, if_neg (by omega), if_pos hpart]
  cut hwhole hover := by
    have hpart : ¬ reserve limits hint < limits.partSize := by omega
    obtain ⟨hall, hinit⟩ := chunks_length limits.partSize_pos body.length body (Nat.le_refl _)
    refine ⟨chunks limits.partSize body, flatten_chunks limits.partSize_pos body, hinit,
      fun part h => hall part (List.mem_of_getLast? h), ?_⟩
    rw [sentFor, if_neg hwhole, if_neg hpart]

theorem Reader.finish_eq (hlen : r.hashed.length < 2 ^ 63) :
    r.finish sha256 = (sha256 r.hashed, (r.hashed.length : Int)) := by
  rw [finish, wrapI64_of_lt hlen]

theorem not_refused {calls : List Call} (h : ∀ call ∈ calls, server.answers call = true) :
    ¬ Refused server calls := by
  rintro ⟨call, hmem, hno⟩
  rw [h call hmem] at hno
  exact absurd hno (by decide)

theorem Refused.append {calls : List Call} (h : Refused server calls) (more : List Call) :
    Refused server (calls ++ more) := by
  obtain ⟨call, hmem, hno⟩ := h
  exact ⟨call, List.mem_append_left _ hmem, hno⟩

/-- What a multipart branch reports includes every request of `multipart_body`. -/
theorem refused_multipart (sha256 : Bytes → Bytes)
    (hcreate : server.answers .createMultipartUpload = true)
    (h : Refused server (multipartBody limits server key
      (Multipart.spawn ⟨[.createMultipartUpload], [], []⟩ 1 first) r).2.1) :
    Refused server (multipart sha256 limits server key first r).calls := by
  unfold multipart
  rw [if_pos hcreate]
  split
  · rename_i calls r' hbody
    rw [hbody] at h
    exact h
  · rename_i e calls r' hbody
    rw [hbody] at h
    exact h.append _

/-- A multipart upload that S3 took: a part that was read, and the rest cut the same way. -/
theorem multipart_eq (hmax : 0 < limits.maxPartsInFlight) (hr : r.Holds rest)
    (hfirst : r.hashed = first)
    (hok : ¬ Refused server (multipart sha256 limits server key first r).calls) :
    multipart sha256 limits server key first r =
      ⟨multipartCalls (first :: chunks limits.partSize rest),
        .ok (sha256 (first ++ rest), ((first ++ rest).length : Int))⟩ := by
  have hcreate : server.answers .createMultipartUpload = true := by
    by_contra hno
    refine hok ⟨.createMultipartUpload, ?_, by simpa using hno⟩
    rw [multipart, if_neg hno]
    exact List.mem_singleton_self _
  have hone : (1 : Int) = wrapI32 ([first] : List Bytes).length := by simp [wrapI32]
  have hfuel : rest.length < r.left + 2 := by
    rw [hr.left_eq]
    omega
  have hbody := mt (refused_multipart sha256 hcreate) hok
  rcases readParts_spec server key hmax (Multipart.cut_first first) hr hfuel with
    ⟨u, r', hread, hcut, hhash⟩ | ⟨e, u, r', hread, href⟩
  · rw [← hone] at hread
    simp only [multipartBody, hread] at hbody
    obtain ⟨hcomplete, hlen⟩ := complete_spec hcut hbody
    rw [List.singleton_append, List.flatten_cons, flatten_chunks limits.partSize_pos] at hlen
    rw [hfirst] at hhash
    have hfinish : r'.finish sha256 = (sha256 (first ++ rest), ((first ++ rest).length : Int)) := by
      rw [← hhash] at hlen ⊢
      exact Reader.finish_eq hlen
    simp only [multipart, multipartBody, if_pos hcreate, hread, hcomplete, hfinish, multipartCalls,
      List.singleton_append]
  · rw [← hone] at hread
    simp only [multipartBody, hread] at hbody
    exact absurd href hbody

/-- A `PutObject` that S3 took. -/
theorem put_result (hok : ¬ Refused server [.putObject body]) (hhash : r.hashed = body) :
    (if server.answers (.putObject body) = true then .ok (r.finish sha256)
      else .error (.s3 ("uploading " ++ key)) : Except PutError (Bytes × Int)) =
      .ok (sha256 body, (body.length : Int)) := by
  have hput : server.answers (.putObject body) = true := by
    by_contra hno
    exact hok ⟨_, List.mem_singleton_self _, by simpa using hno⟩
  have hlen := server.put_size hput
  rw [← hhash] at hlen
  rw [if_pos hput, Reader.finish_eq hlen, hhash]

/-- **What a store does with a body depends on its bytes only**, when S3 takes what it is sent. -/
theorem putStreaming_eq (hmax : 0 < limits.maxPartsInFlight) (cs : List Bytes)
    (hok : ¬ Refused server (putStreaming sha256 limits server key (cs.map .ok) hint).calls) :
    putStreaming sha256 limits server key (cs.map .ok) hint =
      sentFor sha256 limits hint cs.flatten := by
  obtain ⟨r, hfill, hr, hhash⟩ := Reader.fill_spec (reserve limits hint) (Reader.holds_new cs)
  have hle : reserve limits hint ≤ limits.partSize := Nat.min_le_right _ _
  have hlen : (cs.flatten.take (reserve limits hint)).length =
      min (reserve limits hint) cs.flatten.length := List.length_take
  rw [Reader.new, List.nil_append] at hhash
  simp only [putStreaming, hfill] at hok ⊢
  by_cases hfull : (cs.flatten.take (reserve limits hint)).length = reserve limits hint ∧
      reserve limits hint < limits.partSize
  · -- the reserve is full and below a part: the probe decides
    obtain ⟨r', hmore, -, hhash'⟩ := Reader.hasMore_spec hr
    rw [if_pos hfull, hmore] at hok ⊢
    by_cases hrest : cs.flatten.drop (reserve limits hint) = []
    · have hshort := List.drop_eq_nil_iff.mp hrest
      have htake := List.take_of_length_le hshort
      rw [htake] at hhash hok ⊢
      simp only [hrest, ne_eq, not_true_eq_false, decide_false] at hok ⊢
      have hpart : cs.flatten.length < limits.partSize := by omega
      rw [if_pos hpart] at hok ⊢
      rw [put_result hok (hhash'.trans hhash), sentFor, if_pos ⟨hshort, hpart⟩]
    · have hover : ¬ (cs.flatten.length ≤ reserve limits hint) :=
        fun h => hrest (List.drop_eq_nil_iff.mpr h)
      simp only [hrest, ne_eq, not_false_eq_true, decide_true]
      rw [sentFor, if_neg (fun h => hover h.1), if_pos hfull.2]
  · rw [if_neg hfull] at hok ⊢
    simp only at hok ⊢
    by_cases hpart : cs.flatten.length < limits.partSize
    · -- the body ended before the reserve
      have hshort : cs.flatten.length ≤ reserve limits hint := by omega
      have htake := List.take_of_length_le hshort
      rw [htake] at hhash hok ⊢
      rw [if_pos hpart] at hok ⊢
      rw [put_result hok hhash, sentFor, if_pos ⟨hshort, hpart⟩]
    · -- the first part is whole
      have hwhole : reserve limits hint = limits.partSize := by omega
      have hnot : ¬ (cs.flatten.take (reserve limits hint)).length < limits.partSize := by omega
      have hne : cs.flatten ≠ [] := by
        intro h0
        rw [h0, List.length_nil] at hpart
        exact hpart limits.partSize_pos
      rw [if_neg hnot] at hok ⊢
      rw [multipart_eq hmax hr hhash hok, sentFor, if_neg (fun h => hpart h.2),
        if_neg (by omega), List.take_append_drop, hwhole, ← chunks_cons limits.partSize_pos hne]

/-- **A body is cut exactly**, and what is sent and returned depends on nothing but its bytes. -/
theorem putStreaming_exact (sha256 : Bytes → Bytes) (limits : UploadLimits) (server : Server)
    (key : String) (hint : ℕ) (cs : List Bytes) (hmax : 1 ≤ limits.maxPartsInFlight)
    (hok : ∀ call ∈ (putStreaming sha256 limits server key (cs.map .ok) hint).calls,
      server.answers call = true) :
    Exact sha256 limits hint cs.flatten
        (putStreaming sha256 limits server key (cs.map .ok) hint) ∧
      ∀ (server' : Server) (cs' : List Bytes), cs'.flatten = cs.flatten →
        (∀ call ∈ (putStreaming sha256 limits server' key (cs'.map .ok) hint).calls,
          server'.answers call = true) →
        putStreaming sha256 limits server' key (cs'.map .ok) hint =
          putStreaming sha256 limits server key (cs.map .ok) hint := by
  rw [putStreaming_eq hmax cs (not_refused hok)]
  refine ⟨exact_sentFor sha256 limits hint cs.flatten, fun server' cs' hflat hok' => ?_⟩
  rw [putStreaming_eq hmax cs' (not_refused hok'), hflat]

end

/-- An S3 that takes what the protocol allows, and whose part uploads end last first. -/
def openServer : Server where
  answers
    | .putObject body => decide (body.length < 2 ^ 63)
    | .uploadPart number _ => decide (1 ≤ number ∧ number ≤ 10000)
    | .completeMultipartUpload parts => decide ((parts.map Prod.snd).flatten.length < 2 ^ 63)
    | _ => true
  picks := fun _ => 1
  part_number h := by simpa using h
  put_size h := by simpa using h
  complete_size h := by simpa using h

/-- Five bytes in parts of two, from chunks that straddle them. -/
theorem putStreaming_exact_parts :
    (putStreaming id ⟨2, 2, by decide⟩ openServer "nar/a.nar.zst"
      (([[1], [], [2, 3, 4], [5]] : List Bytes).map .ok) 9) =
      ⟨[.createMultipartUpload, .uploadPart 1 [1, 2], .uploadPart 2 [3, 4], .uploadPart 3 [5],
        .completeMultipartUpload [(1, [1, 2]), (2, [3, 4]), (3, [5])]], .ok ([1, 2, 3, 4, 5], 5)⟩ ∧
      Exact id ⟨2, 2, by decide⟩ 9 [1, 2, 3, 4, 5]
        (putStreaming id ⟨2, 2, by decide⟩ openServer "nar/a.nar.zst"
          (([[1], [], [2, 3, 4], [5]] : List Bytes).map .ok) 9) :=
  ⟨by decide +kernel,
    (putStreaming_exact id ⟨2, 2, by decide⟩ openServer "nar/a.nar.zst" 9 [[1], [], [2, 3, 4], [5]]
      (by decide) (by decide +kernel)).1⟩

end Garret.Streaming
