import Garret.Common

/-!
# Pushing one path

Model of `Backoff`, of how `attempt` reads an answer, and of the loop of `push_one`
(`crates/garret-client/src/push.rs`). Durations and instants are nanoseconds. `rand` is what
`fastrand` draws, `now` the client's clock; `renewal` is what the token source answers when it is
asked for a new token.

`Try.settle` is the body of the loop from the answer on: it ends the push, or goes round again.
`settle_ok`: only an acknowledgment that the path is stored ends it well.
-/

namespace Garret.Client

/-- `Duration::from_millis`. -/
def millis (n : ℕ) : ℕ := 1000000 * n

/-- `Duration::from_secs`. -/
def secs (n : ℕ) : ℕ := 1000000000 * n

/-- `WAIT_DEADLINE`. -/
def waitDeadline : ℕ := secs (15 * 60)

/-- `IN_PROGRESS_MAX_POLL`. -/
def inProgressMaxPoll : ℕ := secs 30

/-! ## Answers -/

/-- `UploadAck`. -/
inductive UploadAck where
  | created
  | exists
  | inProgress
  deriving DecidableEq, Repr

/-- The errors of one attempt, as far as the client tells them apart. -/
inductive PushError where
  /-- `Shed`: when to come back. -/
  | shed (after : ℕ)
  /-- `Rejected`: another status that is no success. -/
  | rejected (status : ℕ) (body : String)
  /-- `Stalled`. -/
  | stalled (idle : ℕ)
  /-- A `reqwest::Error`; `transport` for a timeout, a failed connect or a dropped connection. -/
  | request (transport : Bool)
  /-- Any other error. -/
  | other (message : String)
  deriving DecidableEq, Repr

/-- `is_retryable`. -/
def isRetryable : PushError → Bool
  | .rejected status _ => 500 ≤ status && status < 600
  | .stalled _ => true
  | .request transport => transport
  | _ => false

/-- The client is told that its token is no good (401). -/
def PushError.unauthorized : PushError → Bool
  | .rejected status _ => status == 401
  | _ => false

/-- `text.parse::<u64>()`: an optional plus sign and digits, below `2^64`. -/
def parseU64 (text : List Char) : Option ℕ :=
  let digits := match text with
    | '+' :: rest => rest
    | text => text
  if digits.isEmpty || !digits.all Char.isDigit then none
  else
    let n := digits.foldl (fun n c => 10 * n + (c.toNat - '0'.toNat)) 0
    if n < 2 ^ 64 then some n else none

/-- `str::trim`, on the text of a header. -/
def trim (text : String) : List Char :=
  ((text.toList.dropWhile Char.isWhitespace).reverse.dropWhile Char.isWhitespace).reverse

/-- `shed_for`: seconds, or 1 s, clamped. -/
def shedFor (retryAfter : Option String) : ℕ :=
  let after := ((retryAfter.bind fun v => parseU64 (trim v)).map secs).getD (secs 1)
  min (max after (secs 1)) waitDeadline

/-- What the client reads of a response. `ack` is the acknowledgment its body parses to. -/
structure HttpResponse where
  status : ℕ
  retryAfter : Option String
  ack : Option UploadAck
  body : String
  deriving DecidableEq, Repr

/-- `retry_after`: a 429, or a 503 that says when to come back. -/
def HttpResponse.shed (r : HttpResponse) : Option ℕ :=
  if r.status = 429 then some (shedFor r.retryAfter)
  else if r.status = 503 then r.retryAfter.map fun v => shedFor (some v)
  else none

/-- What `attempt` makes of a response. -/
def HttpResponse.read (r : HttpResponse) : Except PushError UploadAck :=
  match r.shed with
  | some after => .error (.shed after)
  | none =>
    if 200 ≤ r.status ∧ r.status < 300 then
      match r.ack with
      | some ack => .ok ack
      | none => .error (.other "parsing upload response")
    else .error (.rejected r.status r.body)

theorem HttpResponse.read_ok {r : HttpResponse} {ack : UploadAck} (h : r.read = .ok ack) :
    r.ack = some ack := by
  unfold read at h
  split at h
  · exact absurd h (by simp)
  · split at h
    · split at h
      · rename_i hack
        rw [hack, Except.ok.inj h]
      · exact absurd h (by simp)
    · exact absurd h (by simp)

/-! ## `Backoff` -/

/-- `jitter`: whole milliseconds below `delay`. -/
def jitter (rand delay : ℕ) : ℕ := millis (rand % max (delay / millis 1) 1)

/-- `Backoff`. -/
structure Backoff where
  started : ℕ
  retries : ℕ
  maxRetries : ℕ
  delay : ℕ
  poll : ℕ
  deriving DecidableEq, Repr

namespace Backoff

/-- `Backoff::new`. -/
def new (maxRetries now : ℕ) : Backoff := ⟨now, 0, maxRetries, millis 250, secs 1⟩

/-- `Backoff::queued`. -/
def queued (b : Backoff) (now rand base : ℕ) : Backoff × Option ℕ :=
  let wait := base + jitter rand base
  ({ b with retries := 0, delay := millis 250 },
    if now - b.started + wait ≤ waitDeadline then some wait else none)

/-- `Backoff::in_progress`. -/
def inProgress (b : Backoff) (now rand : ℕ) : Backoff × Option ℕ :=
  queued { b with poll := min (b.poll * 2) inProgressMaxPoll } now rand b.poll

/-- `Backoff::next`. -/
def next (b : Backoff) (now rand : ℕ) (error : PushError) : Backoff × Option ℕ :=
  match error with
  | .shed after => b.queued now rand after
  | error =>
    if b.maxRetries ≤ b.retries || !isRetryable error then (b, none)
    else
      ({ b with retries := b.retries + 1, delay := b.delay * 2 },
        some (b.delay + jitter rand b.delay))

end Backoff

/-! ## The loop -/

/-- `Outcome`, less the two a push never ends in. A failure carries its error, not its text. -/
inductive Outcome where
  | pushed
  | deduped
  | failed (error : PushError)
  deriving DecidableEq, Repr

/-- What the loop of `push_one` carries round. -/
structure Try where
  backoff : Backoff
  renewed : Bool
  deriving DecidableEq, Repr

/-- How one round ends. -/
inductive Turn where
  | done (result : Except PushError Outcome)
  /-- Go round again, after a wait if there is one. -/
  | again (wait : Option ℕ) (t : Try)

namespace Try

/-- Before the first round. -/
def new (maxRetries now : ℕ) : Try := ⟨.new maxRetries now, false⟩

/-- The end of the loop: wait, or give up. -/
def retry (t : Try) (now rand : ℕ) (error : PushError) : Turn :=
  match t.backoff.next now rand error with
  | (b, some wait) => .again (some wait) { t with backoff := b }
  | (_, none) => .done (.error error)

/-- Another upload of the path is running: ask again later, or give up. -/
def poll (t : Try) (now rand : ℕ) : Turn :=
  match t.backoff.inProgress now rand with
  | (b, some wait) => .again (some wait) { t with backoff := b }
  | (_, none) => .done (.error (.other "another pusher is still uploading this path"))

/-- One round, from the answer of `attempt` on. `renewal` is whether the token source has another
token, or its error. -/
def settle (t : Try) (now rand : ℕ) (renewal : Except String Bool) :
    Except PushError UploadAck → Turn
  | .ok .exists => .done (.ok .deduped)
  | .ok .created => .done (.ok .pushed)
  | .ok .inProgress => t.poll now rand
  | .error error =>
    if !t.renewed && error.unauthorized then
      match renewal with
      | .error message => .done (.error (.other message))
      | .ok true => .again none { t with renewed := true }
      | .ok false => t.retry now rand error
    else t.retry now rand error

theorem retry_not_ok {t : Try} {now rand : ℕ} {error : PushError} {o : Outcome} :
    t.retry now rand error ≠ .done (.ok o) := by
  unfold retry
  split <;> simp

theorem poll_not_ok {t : Try} {now rand : ℕ} {o : Outcome} :
    t.poll now rand ≠ .done (.ok o) := by
  unfold poll
  split <;> simp

theorem settle_error_not_ok {t : Try} {now rand : ℕ} {renewal : Except String Bool}
    {error : PushError} {o : Outcome} :
    t.settle now rand renewal (.error error) ≠ .done (.ok o) := by
  intro h
  simp only [settle] at h
  split at h
  · split at h
    · exact absurd h (by simp)
    · exact absurd h (by simp)
    · exact absurd h retry_not_ok
  · exact absurd h retry_not_ok

/-- **Only an acknowledgment that the path is stored ends a push well.** -/
theorem settle_ok {t : Try} {now rand : ℕ} {renewal : Except String Bool}
    {answer : Except PushError UploadAck} {o : Outcome}
    (h : t.settle now rand renewal answer = .done (.ok o)) :
    answer = .ok .created ∨ answer = .ok .exists := by
  cases answer with
  | error error => exact absurd h settle_error_not_ok
  | ok ack =>
    cases ack with
    | created => exact Or.inl rfl
    | «exists» => exact Or.inr rfl
    | inProgress => exact absurd h poll_not_ok

end Try

end Garret.Client
