import Garret.Client.Rounds
import Mathlib.Data.Nat.Count

/-!
# One path's push ends, and ends honestly

`pushOne_honest`: whatever the outside does, round after round. The rounds that go on are counted
apart (`Counted`): those that wait for the server are bounded by the time, since each waits at least
a second; the faults between two of them by the budget; and the renewal of the token by its flag.
-/

namespace Garret.Client

variable {env : ℕ → Round} {maxRetries start k : ℕ} {s : Loop}

/-- The most rounds a push can take. -/
def maxRounds (maxRetries : ℕ) : ℕ := 901 * (maxRetries + 1) + 1

/-- A push before its round `k`: `queued` rounds have waited for the server, `faults` have failed,
and one more if the token has been renewed. -/
structure Counted (maxRetries start k queued faults : ℕ) (s : Loop) : Prop where
  rounds : k = queued + faults + s.t.renewed.toNat
  queued_le : queued ≤ 900
  faults_le : faults ≤ queued * maxRetries + s.t.backoff.retries
  retries_le : s.t.backoff.retries ≤ maxRetries
  budget : s.t.backoff.maxRetries = maxRetries
  started : s.t.backoff.started = start
  clock : start + secs queued ≤ s.now
  poll : secs 1 ≤ s.t.backoff.poll

theorem counted_new (maxRetries start : ℕ) :
    Counted maxRetries start 0 0 0 (.new maxRetries start) :=
  ⟨rfl, Nat.zero_le _, Nat.zero_le _, Nat.zero_le _, rfl, rfl, Nat.le_refl _, Nat.le_refl _⟩

/-- A round that goes on settled an answer. -/
theorem turn_again {r : Round} {wait : Option ℕ} {t : Try} (hpoll : secs 1 ≤ s.t.backoff.poll)
    (h : r.turn s = .again wait t) :
    r.token = .ok () ∧ Try.Goes s.t (r.now s) r.reply.answer wait t := by
  unfold Round.turn at h
  split at h
  · exact absurd h (by simp)
  · rename_i htoken
    exact ⟨htoken, Try.settle_again r.reply.waitsASecond hpoll h⟩

/-- **One round counts as what it was.** -/
theorem Counted.step {queued faults : ℕ} (h : Counted maxRetries start k queued faults s)
    {r : Round} {wait : Option ℕ} {t : Try} (hturn : r.turn s = .again wait t) :
    ∃ queued' faults', Counted maxRetries start (k + 1) queued' faults' (r.next s wait t) := by
  obtain ⟨-, hgoes⟩ := turn_again h.poll hturn
  have hnow : s.now ≤ r.now s := Nat.le_add_right _ _
  have hrounds := h.rounds
  have hfaults := h.faults_le
  have hclock := h.clock
  have hretries := h.retries_le
  cases hgoes with
  | renewed hnot _ _ =>
    refine ⟨queued, faults, ?_, h.queued_le, h.faults_le, h.retries_le, h.budget, h.started, ?_,
      h.poll⟩
    · rw [hnot] at hrounds
      simp only [Round.next, Bool.toNat_true, Bool.toNat_false] at hrounds ⊢
      omega
    · simp only [Round.next, Option.getD_none]
      omega
  | @queued w poll _ _ hw hend hpoll =>
    rw [h.started] at hend
    -- a second more has passed by the end of the wait, and it ends before the deadline
    have hsecond : secs (queued + 1) = secs queued + secs 1 := by simp [secs, Nat.mul_add]
    have hmore : queued + 1 ≤ 900 := by
      simp only [secs, waitDeadline] at hw hend hclock
      omega
    refine ⟨queued + 1, faults, ?_, hmore, ?_, Nat.zero_le _, h.budget, h.started, ?_, hpoll⟩
    · simp only [Round.next]
      omega
    · simp only [Round.next, Nat.add_mul, Nat.one_mul]
      omega
    · simp only [Round.next, Option.getD_some]
      omega
  | @fault w delay _ _ hbudget =>
    rw [h.budget] at hbudget
    refine ⟨queued, faults + 1, ?_, h.queued_le, ?_, hbudget, h.budget, h.started, ?_, h.poll⟩
    · simp only [Round.next]
      omega
    · simp only [Round.next]
      omega
    · simp only [Round.next, Option.getD_some]
      omega

/-- A round that follows another. -/
theorem before_succ : before env maxRetries start (k + 1) = some s →
    ∃ s₀ wait t, before env maxRetries start k = some s₀ ∧ (env k).turn s₀ = .again wait t ∧
      s = (env k).next s₀ wait t := by
  intro h
  obtain ⟨s₀, h₀, h⟩ := Option.bind_eq_some_iff.mp h
  split at h
  · exact absurd h (by simp)
  · rename_i wait t hturn
    exact ⟨s₀, wait, t, h₀, hturn, (Option.some.inj h).symm⟩

theorem before_counted : ∀ {k : ℕ} {s : Loop}, before env maxRetries start k = some s →
    ∃ queued faults, Counted maxRetries start k queued faults s
  | 0, s, h => by
    obtain rfl := Option.some.inj h
    exact ⟨0, 0, counted_new maxRetries start⟩
  | k + 1, s, h => by
    obtain ⟨s₀, wait, t, h₀, hturn, rfl⟩ := before_succ h
    obtain ⟨queued, faults, hc⟩ := before_counted h₀
    exact hc.step hturn

/-- **The rounds are bounded**: 900 waits, the faults before and between them, and a renewal. -/
theorem before_lt (h : before env maxRetries start k = some s) : k < maxRounds maxRetries := by
  obtain ⟨queued, faults, hc⟩ := before_counted h
  have hrounds := hc.rounds
  have hfaults := hc.faults_le
  have hretries := hc.retries_le
  have hqueued := Nat.mul_le_mul_right maxRetries hc.queued_le
  have hrenewed : s.t.renewed.toNat ≤ 1 := Bool.toNat_le _
  have hq := hc.queued_le
  unfold maxRounds
  rw [Nat.mul_add]
  omega

/-- A push of so many rounds ends in one of them, or goes on. -/
theorem runRounds_cases : ∀ (fuel : ℕ) {k : ℕ} {s : Loop},
    before env maxRetries start k = some s →
    (∃ j s' result, j < k + fuel ∧ before env maxRetries start j = some s' ∧
      (env j).turn s' = .done result ∧ runRounds env fuel k s = some result) ∨
    (∃ s', before env maxRetries start (k + fuel) = some s') ∧ runRounds env fuel k s = none
  | 0, k, s, h => Or.inr ⟨⟨s, h⟩, rfl⟩
  | fuel + 1, k, s, h => by
    cases hturn : (env k).turn s with
    | done result => exact Or.inl ⟨k, s, result, by omega, h, hturn, by rw [runRounds, hturn]⟩
    | again wait t =>
      have hnext : before env maxRetries start (k + 1) = some ((env k).next s wait t) := by
        rw [before, h, Option.bind_some, hturn]
      have hrun : runRounds env (fuel + 1) k s =
          runRounds env fuel (k + 1) ((env k).next s wait t) := by
        rw [runRounds, hturn]
      rw [hrun]
      have hsum : k + (fuel + 1) = k + 1 + fuel := by omega
      rw [hsum]
      exact runRounds_cases fuel hnext

/-! ## The budgets -/

/-- A token that was renewed stays renewed. -/
theorem renewed_stays {j : ℕ} {s' : Loop} (h : before env maxRetries start k = some s)
    (hr : s.t.renewed = true) : ∀ n, j = k + n → before env maxRetries start j = some s' →
      s'.t.renewed = true
  | 0, hj, h' => by
    subst hj
    obtain rfl := Option.some.inj (h.symm.trans h')
    exact hr
  | n + 1, hj, h' => by
    subst hj
    have hsucc : before env maxRetries start ((k + n) + 1) = some s' := h'
    obtain ⟨s₀, wait, t, h₀, hturn, rfl⟩ := before_succ hsucc
    have hrec := renewed_stays h hr n rfl h₀
    obtain ⟨_, _, hc⟩ := before_counted h₀
    obtain ⟨-, hgoes⟩ := turn_again hc.poll hturn
    cases hgoes with
    | renewed _ _ _ => rfl
    | queued _ _ _ _ _ => exact hrec
    | fault _ _ _ => exact hrec

/-- Only a renewal goes on without a wait, and it leaves its mark. -/
theorem renewed_of_again {r : Round} {t : Try} (hpoll : secs 1 ≤ s.t.backoff.poll)
    (h : r.turn s = .again none t) : s.t.renewed = false ∧ t.renewed = true := by
  obtain ⟨-, hgoes⟩ := turn_again hpoll h
  cases hgoes with
  | renewed hnot _ _ => exact ⟨hnot, rfl⟩

theorem renewal_lt {i j : ℕ} {s' : Loop} {t t' : Try} (hij : i < j)
    (hi : before env maxRetries start i = some s) (hti : (env i).turn s = .again none t)
    (hj : before env maxRetries start j = some s') (htj : (env j).turn s' = .again none t') :
    False := by
  obtain ⟨_, _, hci⟩ := before_counted hi
  obtain ⟨_, _, hcj⟩ := before_counted hj
  have hnext : before env maxRetries start (i + 1) = some ((env i).next s none t) := by
    rw [before, hi, Option.bind_some, hti]
  have hmark : ((env i).next s none t).t.renewed = true := (renewed_of_again hci.poll hti).2
  have hstays := renewed_stays hnext hmark (j - (i + 1)) (by omega) hj
  rw [(renewed_of_again hcj.poll htj).1] at hstays
  exact absurd hstays (by decide)

/-- Without a wait for the server in between, the budget counts the faults. -/
theorem retries_count (h : before env maxRetries start k = some s) : ∀ {n : ℕ} {s' : Loop},
    (∀ d < n, isQueued (env (k + d)).reply.answer = false) →
    before env maxRetries start (k + n) = some s' →
    s'.t.backoff.retries =
      s.t.backoff.retries + Nat.count (fun d => isFault (env (k + d)).reply.answer = true) n
  | 0, s', _, h' => by
    obtain rfl := Option.some.inj (h.symm.trans h')
    rfl
  | n + 1, s', hq, h' => by
    have hsucc : before env maxRetries start ((k + n) + 1) = some s' := h'
    obtain ⟨s₀, wait, t, h₀, hturn, rfl⟩ := before_succ hsucc
    have hrec := retries_count h (fun d hd => hq d (by omega)) h₀
    obtain ⟨_, _, hc⟩ := before_counted h₀
    obtain ⟨-, hgoes⟩ := turn_again hc.poll hturn
    rw [Nat.count_succ]
    cases hgoes with
    | renewed _ _ hf =>
      simp only [hf, Bool.false_eq_true, if_false]
      exact hrec
    | queued hqueued _ _ _ _ =>
      rw [hq n (Nat.lt_succ_self n)] at hqueued
      exact absurd hqueued (by decide)
    | fault _ hf _ =>
      simp only [hf, if_true, Round.next, hrec]
      omega

/-- An error for which the schedule has no wait ends the push, unless a new token follows it. -/
theorem error_done {r : Round} {e : PushError} (he : r.reply.answer = .error e)
    (hnone : ∀ now rand, (s.t.backoff.next now rand e).2 = none)
    (hrenew : ¬ (s.t.renewed = false ∧ e.unauthorized = true ∧ r.renewal = .ok true)) :
    ∃ e', r.turn s = .done (.error e') := by
  have hretry : ∀ now rand, s.t.retry now rand e = .done (.error e) := by
    intro now rand
    have hn := hnone now rand
    unfold Try.retry
    split
    · rename_i heq
      rw [heq] at hn
      exact absurd hn (by simp)
    · rfl
  unfold Round.turn
  split
  · exact ⟨_, rfl⟩
  · rw [he]
    simp only [Try.settle, hretry]
    split
    · rename_i hun
      simp only [Bool.and_eq_true, Bool.not_eq_true'] at hun
      split
      · exact ⟨_, rfl⟩
      · rename_i hok
        exact absurd ⟨hun.1, hun.2, hok⟩ hrenew
      · exact ⟨e, rfl⟩
    · exact ⟨e, rfl⟩

/-- A fault that may be retried is no 401, and no wait for the server. -/
theorem fault_cases {e : PushError} (h : isRetryable e = true) :
    e.unauthorized = false ∧ ∀ after, e ≠ .shed after := by
  cases e with
  | rejected status body =>
    simp only [isRetryable, Bool.and_eq_true, decide_eq_true_eq] at h
    refine ⟨?_, fun after => by simp⟩
    simp only [PushError.unauthorized, beq_eq_false_iff_ne, ne_eq]
    omega
  | shed after => exact absurd h (by simp [isRetryable])
  | stalled idle => exact ⟨rfl, fun after => by simp⟩
  | request transport => exact ⟨rfl, fun after => by simp⟩
  | other message => exact absurd h (by simp [isRetryable])

/-- The schedule gives up on an error that is out of the budget or not retried. -/
theorem next_none {b : Backoff} {e : PushError} (hshed : ∀ after, e ≠ .shed after)
    (h : b.maxRetries ≤ b.retries ∨ isRetryable e = false) (now rand : ℕ) :
    (b.next now rand e).2 = none := by
  have hcond : (decide (b.maxRetries ≤ b.retries) || !isRetryable e) = true := by
    rcases h with h | h <;> simp [h]
  cases e with
  | shed after => exact absurd rfl (hshed after)
  | rejected status body => simp only [Backoff.next, hcond, if_true]
  | stalled idle => simp only [Backoff.next, hcond, if_true]
  | request transport => simp only [Backoff.next, hcond, if_true]
  | other message => simp only [Backoff.next, hcond, if_true]

/-- **A fault with the budget spent ends the push.** -/
theorem fault_done {r : Round} (hspent : s.t.backoff.maxRetries ≤ s.t.backoff.retries)
    (hf : isFault r.reply.answer = true) : ∃ e, r.turn s = .done (.error e) := by
  cases hanswer : r.reply.answer with
  | ok ack =>
    rw [hanswer] at hf
    exact absurd hf (by simp [isFault])
  | error e =>
    rw [hanswer] at hf
    obtain ⟨hun, hshed⟩ := fault_cases hf
    refine error_done hanswer (next_none hshed (Or.inl hspent)) ?_
    rintro ⟨-, h401, -⟩
    rw [hun] at h401
    exact absurd h401 (by decide)

/-- How a push ends well. -/
theorem turn_done_ok {r : Round} {o : Outcome} (h : r.turn s = .done (.ok o)) :
    r.token = .ok () ∧ ((o = .pushed ∧ r.reply.answer = .ok .created) ∨
      (o = .deduped ∧ r.reply.answer = .ok .exists)) := by
  unfold Round.turn at h
  split at h
  · exact absurd h (by simp)
  · rename_i htoken
    refine ⟨htoken, ?_⟩
    cases hanswer : r.reply.answer with
    | error e =>
      rw [hanswer] at h
      exact absurd h Try.settle_error_not_ok
    | ok ack =>
      rw [hanswer] at h
      cases ack with
      | created => exact Or.inl ⟨(Except.ok.inj (Turn.done.inj h)).symm, rfl⟩
      | «exists» => exact Or.inr ⟨(Except.ok.inj (Turn.done.inj h)).symm, rfl⟩
      | inProgress => exact absurd h Try.poll_not_ok

/-- What a push owes, whatever the outside does. -/
structure Honest (env : ℕ → Round) (maxRetries start : ℕ) : Prop where
  /-- It ends. -/
  ends : ∃ result, pushOne env maxRetries start (maxRounds maxRetries) = some result
  /-- It makes a bounded number of attempts. -/
  attempts : ∀ k s, before env maxRetries start k = some s → k < maxRounds maxRetries
  /-- No wait for the server or another pusher is started that would end past the deadline. -/
  waits : ∀ k s wait t, before env maxRetries start k = some s →
    (env k).turn s = .again (some wait) t → isQueued (env k).reply.answer = true →
    (env k).now s + wait ≤ start + waitDeadline
  /-- The token is renewed at most once. -/
  renewed_once : ∀ i j s s' t t', before env maxRetries start i = some s →
    (env i).turn s = .again none t → before env maxRetries start j = some s' →
    (env j).turn s' = .again none t' → i = j
  /-- More than `maxRetries` faults without such a wait in between fail the path. -/
  faults : ∀ k n s s', before env maxRetries start k = some s →
    (∀ d ≤ n, isQueued (env (k + d)).reply.answer = false) →
    maxRetries < Nat.count (fun d => isFault (env (k + d)).reply.answer = true) (n + 1) →
    before env maxRetries start (k + n) = some s' → ∃ e, (env (k + n)).turn s' = .done (.error e)
  /-- An answer that is not retried fails it at once, but for a 401 that a new token follows. -/
  refused : ∀ k s e, before env maxRetries start k = some s → (env k).reply.answer = .error e →
    isQueued (env k).reply.answer = false → isRetryable e = false →
    ¬ (s.t.renewed = false ∧ e.unauthorized = true ∧ (env k).renewal = .ok true) →
    ∃ e', (env k).turn s = .done (.error e')
  /-- It counts as pushed after `created` only, and as deduped after `exists` only. -/
  acknowledged : ∀ fuel o, pushOne env maxRetries start fuel = some (.ok o) →
    ∃ k s, before env maxRetries start k = some s ∧ (env k).turn s = .done (.ok o) ∧
      (env k).token = .ok () ∧ ((o = .pushed ∧ (env k).reply.answer = .ok .created) ∨
        (o = .deduped ∧ (env k).reply.answer = .ok .exists))

/-- **One path's push always ends, and ends honestly.** -/
theorem pushOne_honest (env : ℕ → Round) (maxRetries start : ℕ) : Honest env maxRetries start where
  ends := by
    have h₀ : before env maxRetries start 0 = some (.new maxRetries start) := rfl
    rcases runRounds_cases (maxRounds maxRetries) h₀ with
      ⟨_, _, result, _, _, _, hrun⟩ | ⟨⟨s', h⟩, _⟩
    · exact ⟨result, hrun⟩
    · have hlt := before_lt h
      omega
  attempts k s h := before_lt h
  waits k s wait t h hturn hqueued := by
    obtain ⟨queued, faults, hc⟩ := before_counted h
    obtain ⟨-, hgoes⟩ := turn_again hc.poll hturn
    have hclock := hc.clock
    have hnow : s.now ≤ (env k).now s := Nat.le_add_right _ _
    cases hgoes with
    | queued _ _ _ hend _ =>
      rw [hc.started] at hend
      omega
    | fault hq _ _ =>
      rw [hq] at hqueued
      exact absurd hqueued (by decide)
  renewed_once i j s s' t t' hi hti hj htj := by
    rcases lt_trichotomy i j with hlt | heq | hgt
    · exact absurd (renewal_lt hlt hi hti hj htj) not_false
    · exact heq
    · exact absurd (renewal_lt hgt hj htj hi hti) not_false
  faults k n s s' hk hq hcount hn := by
    obtain ⟨_, _, hc⟩ := before_counted hn
    have hretries := retries_count hk (fun d hd => hq d (by omega)) hn
    have hle := hc.retries_le
    rw [Nat.count_succ] at hcount
    -- the budget is spent, and this answer is one fault more
    have hf : isFault (env (k + n)).reply.answer = true := by
      by_contra hno
      rw [if_neg hno] at hcount
      omega
    rw [if_pos hf] at hcount
    refine fault_done ?_ hf
    rw [hc.budget]
    omega
  refused k s e hk hanswer hq hf hrenew := by
    have hshed : ∀ after, e ≠ .shed after := by
      rintro after rfl
      rw [hanswer] at hq
      exact absurd hq (by simp [isQueued])
    exact error_done hanswer (next_none hshed (Or.inr hf)) hrenew
  acknowledged fuel o h := by
    have h₀ : before env maxRetries start 0 = some (.new maxRetries start) := rfl
    rcases runRounds_cases fuel h₀ with ⟨j, s, result, _, hj, hturn, hrun⟩ | ⟨_, hrun⟩
    · obtain rfl : result = .ok o := Option.some.inj (hrun.symm.trans h)
      exact ⟨j, s, hj, hturn, turn_done_ok hturn⟩
    · have hnone := hrun.symm.trans h
      exact absurd hnone (by simp)

end Garret.Client
