import Garret.Client.Retry
import Mathlib.Order.Nat

/-!
# The rounds of `push_one`

Model of `push_one` (`crates/garret-client/src/push.rs`) against whatever the outside does: round
after round the token source, the server or the connection, the clock and the random numbers answer
as they like. Instants and durations are exact.

* A `Reply` is what `attempt` gets to see; a shed comes from a response, so its wait is `shedFor` of
  the header's text.
* The clock goes on by `pause` until the answer is there and by at least each wait that was slept.
* `pushOne` runs the loop for a number of rounds; `before` is the state a round starts from.
-/

namespace Garret.Client

/-- What comes back from an upload. -/
inductive Reply where
  | response (r : HttpResponse)
  | stalled (idle : ℕ)
  | request (transport : Bool)
  | other (message : String)
  deriving DecidableEq, Repr

/-- What `attempt` makes of it. -/
def Reply.answer : Reply → Except PushError UploadAck
  | .response r => r.read
  | .stalled idle => .error (.stalled idle)
  | .request transport => .error (.request transport)
  | .other message => .error (.other message)

/-- What the outside decides in one round. -/
structure Round where
  /-- `tokens.get`. -/
  token : Except String Unit
  /-- The time until the answer is there. -/
  pause : ℕ
  reply : Reply
  rand : ℕ
  /-- `tokens.renew`: whether there is another token. -/
  renewal : Except String Bool

/-- The loop between two rounds. -/
structure Loop where
  t : Try
  now : ℕ
  deriving DecidableEq, Repr

/-- Before the first round. -/
def Loop.new (maxRetries now : ℕ) : Loop := ⟨.new maxRetries now, now⟩

namespace Round

/-- When the answer is there. -/
def now (r : Round) (s : Loop) : ℕ := s.now + r.pause

/-- One round of the loop. -/
def turn (r : Round) (s : Loop) : Turn :=
  match r.token with
  | .error message => .done (.error (.other message))
  | .ok () => s.t.settle (r.now s) r.rand r.renewal r.reply.answer

/-- The loop after a round that goes on. -/
def next (r : Round) (s : Loop) (wait : Option ℕ) (t : Try) : Loop := ⟨t, r.now s + wait.getD 0⟩

end Round

/-- The loop from round `k` on, for at most `fuel` rounds. -/
def runRounds (env : ℕ → Round) : ℕ → ℕ → Loop → Option (Except PushError Outcome)
  | 0, _, _ => none
  | fuel + 1, k, s =>
    match (env k).turn s with
    | .done result => some result
    | .again wait t => runRounds env fuel (k + 1) ((env k).next s wait t)

/-- `push_one`, for at most `fuel` rounds. -/
def pushOne (env : ℕ → Round) (maxRetries now fuel : ℕ) : Option (Except PushError Outcome) :=
  runRounds env fuel 0 (.new maxRetries now)

/-- The loop before round `k`, if the push has not ended by then. -/
def before (env : ℕ → Round) (maxRetries now : ℕ) : ℕ → Option Loop
  | 0 => some (.new maxRetries now)
  | k + 1 =>
    (before env maxRetries now k).bind fun s =>
      match (env k).turn s with
      | .done _ => none
      | .again wait t => some ((env k).next s wait t)

/-! ## Kinds of answers -/

/-- An answer that is waited out: the server's queue, or another pusher's upload. -/
def isQueued : Except PushError UploadAck → Bool
  | .ok .inProgress => true
  | .error (.shed _) => true
  | _ => false

/-- A fault that may be retried. -/
def isFault : Except PushError UploadAck → Bool
  | .error e => isRetryable e
  | .ok _ => false

/-- An answer whose wait, where it says one, is at least a second. -/
def WaitsASecond (answer : Except PushError UploadAck) : Prop :=
  ∀ after, answer = .error (.shed after) → secs 1 ≤ after

theorem shedFor_le (v : Option String) : secs 1 ≤ shedFor v := by
  unfold shedFor
  exact le_min (le_max_right _ _) (by decide)

theorem Reply.waitsASecond (r : Reply) : WaitsASecond r.answer := by
  intro after h
  cases r with
  | response r =>
    simp only [answer, HttpResponse.read] at h
    split at h
    · rename_i a ha
      obtain rfl := PushError.shed.inj (Except.error.inj h)
      unfold HttpResponse.shed at ha
      split at ha
      · exact Option.some.inj ha ▸ shedFor_le _
      · split at ha
        · obtain ⟨v, -, rfl⟩ := Option.map_eq_some_iff.mp ha
          exact shedFor_le _
        · exact absurd ha (by simp)
    · split at h
      · split at h <;> simp at h
      · simp at h
  | stalled idle => simp [answer] at h
  | request transport => simp [answer] at h
  | other message => simp [answer] at h

/-! ## What one round does -/

namespace Try

variable {t t' : Try} {now rand : ℕ} {renewal : Except String Bool}
  {answer : Except PushError UploadAck} {wait : Option ℕ}

/-- How a round goes on: what changes in the schedule. -/
inductive Goes (t : Try) (now : ℕ) (answer : Except PushError UploadAck) : Option ℕ → Try → Prop
  /-- The token was renewed, and the next attempt follows at once. -/
  | renewed (hnot : t.renewed = false) (hq : isQueued answer = false)
      (hf : isFault answer = false) : Goes t now answer none { t with renewed := true }
  /-- A wait that is no fault. -/
  | queued {w poll : ℕ} (hq : isQueued answer = true) (hf : isFault answer = false)
      (hw : secs 1 ≤ w) (hend : now - t.backoff.started + w ≤ waitDeadline)
      (hpoll : secs 1 ≤ poll) : Goes t now answer (some w) { t with
        backoff := ⟨t.backoff.started, 0, t.backoff.maxRetries, millis 250, poll⟩ }
  /-- A fault within the budget. -/
  | fault {w delay : ℕ} (hq : isQueued answer = false) (hf : isFault answer = true)
      (hbudget : t.backoff.retries < t.backoff.maxRetries) : Goes t now answer (some w) { t with
        backoff := ⟨t.backoff.started, t.backoff.retries + 1, t.backoff.maxRetries, delay,
          t.backoff.poll⟩ }

/-- What the schedule answers after an error that ends no push. -/
theorem next_some {b b' : Backoff} {error : PushError} {w : ℕ}
    (h : b.next now rand error = (b', some w)) :
    (∃ after, error = .shed after ∧ after ≤ w ∧ now - b.started + w ≤ waitDeadline ∧
        b' = ⟨b.started, 0, b.maxRetries, millis 250, b.poll⟩) ∨
      (isRetryable error = true ∧ b.retries < b.maxRetries ∧
        b' = ⟨b.started, b.retries + 1, b.maxRetries, b.delay * 2, b.poll⟩) := by
  have hfault : (if b.maxRetries ≤ b.retries || !isRetryable error then (b, none)
      else (⟨b.started, b.retries + 1, b.maxRetries, b.delay * 2, b.poll⟩,
        some (b.delay + jitter rand b.delay))) = (b', some w) →
      isRetryable error = true ∧ b.retries < b.maxRetries ∧
        b' = ⟨b.started, b.retries + 1, b.maxRetries, b.delay * 2, b.poll⟩ := by
    intro hif
    split at hif
    · exact absurd (Prod.mk.inj hif).2 (by simp)
    · rename_i hgo
      simp only [Bool.or_eq_true, decide_eq_true_eq, Bool.not_eq_true', not_or, not_le,
        Bool.not_eq_false] at hgo
      exact ⟨hgo.2, hgo.1, (Prod.mk.inj hif).1.symm⟩
  cases error with
  | shed after =>
    refine Or.inl ⟨after, rfl, ?_⟩
    simp only [Backoff.next, Backoff.queued, Prod.mk.injEq, Option.ite_none_right_eq_some,
      Option.some.injEq] at h
    obtain ⟨rfl, hend, rfl⟩ := h
    exact ⟨Nat.le_add_right _ _, hend, rfl⟩
  | rejected status body => exact Or.inr (hfault h)
  | stalled idle => exact Or.inr (hfault h)
  | request transport => exact Or.inr (hfault h)
  | other message => exact Or.inr (hfault h)

theorem retry_again {error : PushError} (hs : WaitsASecond (.error error))
    (hpoll : secs 1 ≤ t.backoff.poll) (h : t.retry now rand error = .again wait t') :
    Goes t now (.error error) wait t' := by
  unfold retry at h
  split at h
  · rename_i b w hnext
    obtain ⟨rfl, rfl⟩ := Turn.again.inj h
    rcases next_some hnext with ⟨after, rfl, hle, hend, rfl⟩ | ⟨hretry, hbudget, rfl⟩
    · exact Goes.queued rfl rfl ((hs after rfl).trans hle) hend hpoll
    · refine Goes.fault ?_ hretry hbudget
      cases error with
      | shed after => exact absurd hretry (by simp [isRetryable])
      | _ => rfl
  · exact absurd h (by simp)

/-- **What a round that goes on has done.** -/
theorem settle_again (hs : WaitsASecond answer) (hpoll : secs 1 ≤ t.backoff.poll)
    (h : t.settle now rand renewal answer = .again wait t') : Goes t now answer wait t' := by
  cases answer with
  | ok ack =>
    cases ack with
    | created => exact absurd h (by simp [settle])
    | «exists» => exact absurd h (by simp [settle])
    | inProgress =>
      simp only [settle, poll] at h
      split at h
      · rename_i b w hnext
        obtain ⟨rfl, rfl⟩ := Turn.again.inj h
        simp only [Backoff.inProgress, Backoff.queued, Prod.mk.injEq,
          Option.ite_none_right_eq_some, Option.some.injEq] at hnext
        obtain ⟨rfl, hend, rfl⟩ := hnext
        refine Goes.queued rfl rfl (hpoll.trans (Nat.le_add_right _ _)) hend ?_
        exact le_min (hpoll.trans (Nat.le_mul_of_pos_right _ (by decide))) (by decide)
      · exact absurd h (by simp)
  | error error =>
    simp only [settle] at h
    split at h
    · rename_i hrenew
      simp only [Bool.and_eq_true, Bool.not_eq_true'] at hrenew
      split at h
      · exact absurd h (by simp)
      · obtain ⟨rfl, rfl⟩ := Turn.again.inj h
        cases error with
        | rejected status body =>
          have h401 : status = 401 := by simpa [PushError.unauthorized] using hrenew.2
          subst h401
          exact Goes.renewed hrenew.1 rfl rfl
        | shed after => exact absurd hrenew.2 (by simp [PushError.unauthorized])
        | stalled idle => exact absurd hrenew.2 (by simp [PushError.unauthorized])
        | request transport => exact absurd hrenew.2 (by simp [PushError.unauthorized])
        | other message => exact absurd hrenew.2 (by simp [PushError.unauthorized])
      · exact retry_again hs hpoll h
    · exact retry_again hs hpoll h

end Try

end Garret.Client
