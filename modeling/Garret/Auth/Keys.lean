import Garret.Lib.Run
import Mathlib.Logic.Function.Basic
import Mathlib.Tactic.Common

/-!
# The signing keys of an issuer

Model of `KeyCache`, `RefreshState`, `Issuer::cached_key`, `Issuer::refresh` and of the part of
`Authenticator::verify` that looks for a key (`crates/garret-server/src/auth.rs`), for one issuer. A
`State` is the two locked records, the spawned fetch tasks and the calls of `verify`; each critical
section is one step, so every schedule of the tasks and the calls is a run.

* An `Instant` is a number of nanoseconds; `Act.tick` moves the clock forward.
* `fetch_keys` answers in its own time with any key set or error (`Act.fetched`).
* A task stores its key set under the `keys` lock (`Act.store`) and only then takes the `refresh`
  lock for its last lines (`Act.finish`).
* A task that panics or is cancelled (`Act.abort`) runs none of its remaining lines; the shared
  future then answers with the join error.
* A call is dropped at its only await (`Act.disconnect`); the task runs on.

`stores`, `Call.joined`, `Call.answer` and `Call.seen` are history: the key sets stored so far, and
for a call the attempt `refresh` gave it, what awaiting that attempt returned, and how many key sets
had been stored at its last look at the cache.
-/

namespace Garret.Jwks

open Garret.Lib

/-- A second of an `Instant`, in nanoseconds. -/
def second : ℕ := 1000000000

/-- `MIN_REFRESH`. -/
def minRefresh : ℕ := 10 * second

/-- `KEY_TTL`. -/
def keyTtl : ℕ := 3600 * second

/-- `by_kid`: the decoding key of each kid of a key set. -/
abbrev KeySet (κ : Type) := String → Option κ

/-- `KeyCache`. -/
structure KeyCache (κ : Type) where
  byKid : KeySet κ
  expiresAt : Option ℕ

/-- Why awaiting an attempt failed: `fetch_keys` did, or the task never returned. -/
inductive Failure (ε : Type) where
  | fetch (e : ε)
  | join
  deriving DecidableEq

/-- What awaiting an attempt returns. -/
abbrev Outcome (ε : Type) := Except (Failure ε) Unit

/-- Where the task of an attempt is. -/
inductive Phase (κ ε : Type) where
  | fetching
  /-- `fetch_keys` has returned a key set; the `keys` lock is not taken yet. -/
  | fetched (byKid : KeySet κ)
  /-- The outcome is known; the `refresh` lock is not taken yet. -/
  | settling (outcome : Outcome ε)
  | ended (outcome : Outcome ε) (at' : ℕ)
  | aborted (at' : ℕ)

/-- One `Attempt`: when `refresh` spawned its task, and how far the task is. -/
structure Attempt (κ ε : Type) where
  startedAt : ℕ
  phase : Phase κ ε

variable {κ ε : Type}

/-- The task still runs. -/
def Phase.running : Phase κ ε → Bool
  | .ended _ _ => false
  | .aborted _ => false
  | _ => true

/-- When the task stopped. -/
def Phase.endedAt : Phase κ ε → Option ℕ
  | .ended _ at' => some at'
  | .aborted at' => some at'
  | _ => none

/-- The task panicked or was cancelled. -/
def Phase.dead : Phase κ ε → Bool
  | .aborted _ => true
  | _ => false

/-- What the shared future of the attempt resolves to, once it does. -/
def Phase.outcome? : Phase κ ε → Option (Outcome ε)
  | .ended outcome _ => some outcome
  | .aborted _ => some (.error .join)
  | _ => none

/-- The task returned a success, or is about to. -/
def Phase.succeeded : Phase κ ε → Bool
  | .settling (.ok _) => true
  | .ended (.ok _) _ => true
  | _ => false

/-- Why a call of `verify` found no key. -/
inductive Refusal (ε : Type) where
  | jwksUnavailable (f : Failure ε)
  | unknownKey (kid : String)
  deriving DecidableEq

/-- Where a call of `verify` is. -/
inductive Pc (κ ε : Type) where
  | idle
  /-- The cached set is expired: `refresh` is called, and the key used meanwhile. -/
  | expired (kid : String) (key : κ)
  /-- The kid is not cached: `refresh` is called, and waited for. -/
  | unknown (kid : String)
  | waiting (kid : String)
  | reread (kid : String)
  | verifying (kid : String) (key : κ)
  | refused (r : Refusal ε)
  | gone

/-- A call of `verify`. -/
structure Call (κ ε : Type) where
  pc : Pc κ ε
  joined : Option ℕ
  answer : Option (Outcome ε)
  seen : ℕ

/-- The key a call validates its token with, and the kid it looked up. -/
def Pc.key? : Pc κ ε → Option (String × κ)
  | .expired kid key => some (kid, key)
  | .verifying kid key => some (kid, key)
  | _ => none

/-- A key set that has been stored: by which attempt. -/
structure Stored (κ : Type) where
  attempt : ℕ
  byKid : KeySet κ

/-- One `Issuer`, its fetch tasks and the calls that use it. -/
structure State (κ ε : Type) where
  now : ℕ
  /-- `Issuer::keys`. -/
  keys : KeyCache κ
  /-- `RefreshState::in_flight`. -/
  inFlight : Option ℕ
  /-- `RefreshState::next_attempt`. -/
  nextAttempt : Option ℕ
  attempts : List (Attempt κ ε)
  calls : ℕ → Call κ ε
  stores : List (Stored κ)

/-- What can happen next. -/
inductive Act (κ ε : Type) where
  | tick (d : ℕ)
  | verify (v : ℕ) (kid : String)
  | refresh (v : ℕ)
  | wake (v : ℕ)
  | reread (v : ℕ)
  | disconnect (v : ℕ)
  | fetched (n : ℕ) (result : Except ε (KeySet κ))
  | store (n : ℕ)
  | finish (n : ℕ)
  | abort (n : ℕ)

/-- How `verify` goes on with what `refresh` gave it. -/
def Pc.join : Pc κ ε → Option ℕ → Option (Pc κ ε)
  | .expired kid key, _ => some (.verifying kid key)
  | .unknown kid, some _ => some (.waiting kid)
  | .unknown kid, none => some (.reread kid)
  | _, _ => none

/-- How a waiting call goes on with the outcome of its attempt. -/
def Pc.resume (kid : String) : Outcome ε → Pc κ ε
  | .ok _ => .reread kid
  | .error f => .refused (.jwksUnavailable f)

/-- What the task does with the answer of `fetch_keys`. -/
def Phase.receive : Except ε (KeySet κ) → Phase κ ε
  | .ok byKid => .fetched byKid
  | .error e => .settling (.error (.fetch e))

/-- A fetch task panics or is cancelled. -/
def Act.aborts : Act κ ε → Bool
  | .abort _ => true
  | _ => false

namespace State

/-- A freshly configured issuer. -/
def init (now : ℕ) : State κ ε where
  now := now
  keys := ⟨fun _ => none, none⟩
  inFlight := none
  nextAttempt := none
  attempts := []
  calls := fun _ => ⟨.idle, none, none, 0⟩
  stores := []

/-- The phase of an attempt. -/
def phase? (s : State κ ε) (n : ℕ) : Option (Phase κ ε) := s.attempts[n]?.map Attempt.phase

/-- `Issuer::cached_key`. -/
def cachedKey (s : State κ ε) (kid : String) : Option κ × Bool :=
  (s.keys.byKid kid, s.keys.expiresAt.all fun t => decide (t ≤ s.now))

/-- A fetch task is spawned, and put in the slot. -/
def spawn (s : State κ ε) : State κ ε :=
  { s with
    attempts := s.attempts ++ [⟨s.now, .fetching⟩]
    inFlight := some s.attempts.length }

/-- `Issuer::refresh`. -/
def refresh (s : State κ ε) : State κ ε × Option ℕ :=
  match s.inFlight with
  | some n => (s, some n)
  | none =>
    if s.nextAttempt.any fun t => decide (s.now < t) then (s, none)
    else (s.spawn, some s.attempts.length)

/-- Replace a call. -/
def setCall (s : State κ ε) (v : ℕ) (c : Call κ ε) : State κ ε :=
  { s with calls := Function.update s.calls v c }

/-- Move the task of an attempt on. -/
def setPhase (s : State κ ε) (n : ℕ) (p : Phase κ ε) : State κ ε :=
  { s with attempts := s.attempts.modify n fun a => { a with phase := p } }

/-- The first look of `verify` at the cache. -/
def firstLook (s : State κ ε) (kid : String) : Pc κ ε :=
  match s.cachedKey kid with
  | (some key, true) => .expired kid key
  | (some key, false) => .verifying kid key
  | (none, _) => .unknown kid

/-- Its look after the refetch. -/
def secondLook (s : State κ ε) (kid : String) : Pc κ ε :=
  match (s.cachedKey kid).1 with
  | some key => .verifying kid key
  | none => .refused (.unknownKey kid)

/-- A call that has just looked at the cache. -/
def looked (s : State κ ε) (v : ℕ) (pc : Pc κ ε) : State κ ε :=
  s.setCall v { s.calls v with pc := pc, seen := s.stores.length }

/-- One step; `none` where it cannot happen. -/
def step (s : State κ ε) : Act κ ε → Option (State κ ε)
  | .tick d => some { s with now := s.now + d }
  | .verify v kid =>
    match (s.calls v).pc with
    | .idle => some (s.looked v (s.firstLook kid))
    | _ => none
  | .refresh v =>
    ((s.calls v).pc.join s.refresh.2).map fun pc =>
      s.refresh.1.setCall v { s.calls v with pc := pc, joined := s.refresh.2 }
  | .wake v =>
    match (s.calls v).pc, ((s.calls v).joined.bind s.phase?).bind Phase.outcome? with
    | .waiting kid, some o =>
      some (s.setCall v { s.calls v with pc := .resume kid o, answer := some o })
    | _, _ => none
  | .reread v =>
    match (s.calls v).pc with
    | .reread kid => some (s.looked v (s.secondLook kid))
    | _ => none
  | .disconnect v =>
    match (s.calls v).pc with
    | .waiting _ => some (s.setCall v { s.calls v with pc := .gone })
    | _ => none
  | .fetched n result =>
    match s.phase? n with
    | some .fetching => some (s.setPhase n (.receive result))
    | _ => none
  | .store n =>
    match s.phase? n with
    | some (.fetched byKid) =>
      some { s.setPhase n (.settling (.ok ())) with
        keys := ⟨byKid, some (s.now + keyTtl)⟩
        stores := s.stores ++ [⟨n, byKid⟩] }
    | _ => none
  | .finish n =>
    match s.phase? n with
    | some (.settling outcome) =>
      some { s.setPhase n (.ended outcome s.now) with
        inFlight := none
        nextAttempt := some (s.now + minRefresh) }
    | _ => none
  | .abort n =>
    match s.phase? n with
    | some p => if p.running then some (s.setPhase n (.aborted s.now)) else none
    | none => none

/-! ## What a step can do -/

variable {s s' : State κ ε} {a : Act κ ε}

/-- When an attempt was started. -/
def startedAt? (s : State κ ε) (n : ℕ) : Option ℕ := s.attempts[n]?.map Attempt.startedAt

theorem phase?_lt {n : ℕ} {p : Phase κ ε} (h : s.phase? n = some p) : n < s.attempts.length := by
  by_contra hn
  simp [phase?, List.getElem?_eq_none (Nat.not_lt.mp hn)] at h

theorem phase?_setPhase (s : State κ ε) (n m : ℕ) (p : Phase κ ε) :
    (s.setPhase n p).phase? m = if m = n then (s.phase? n).map fun _ => p else s.phase? m := by
  unfold phase? setPhase
  by_cases hm : m = n
  · subst hm
    simp [Function.comp_def]
  · simp [hm, List.getElem?_modify_ne _ _ (Ne.symm hm)]

/-- What the phases are once the task of attempt `n` has moved on. -/
theorem phase?_setPhase_cases {n m : ℕ} {p₀ p q : Phase κ ε} (hp : s.phase? n = some p₀)
    (h : (s.setPhase n p).phase? m = some q) :
    m = n ∧ q = p ∨ m ≠ n ∧ s.phase? m = some q := by
  rw [phase?_setPhase] at h
  by_cases hm : m = n
  · rw [if_pos hm, hp] at h
    exact Or.inl ⟨hm, (Option.some.inj h).symm⟩
  · rw [if_neg hm] at h
    exact Or.inr ⟨hm, h⟩

/-- A task that does not run keeps its phase. -/
theorem phase?_setPhase_still {n m : ℕ} {p₀ p q : Phase κ ε} (hp : s.phase? n = some p₀)
    (hr : p₀.running = true) (h : s.phase? m = some q) (hq : q.running = false) :
    (s.setPhase n p).phase? m = some q := by
  rw [phase?_setPhase, if_neg, h]
  rintro rfl
  obtain rfl := Option.some.inj (hp.symm.trans h)
  exact absurd hr (by simp [hq])

theorem startedAt?_setPhase (s : State κ ε) (n m : ℕ) (p : Phase κ ε) :
    (s.setPhase n p).startedAt? m = s.startedAt? m := by
  unfold startedAt? setPhase
  by_cases hm : m = n
  · subst hm
    simp [Function.comp_def]
  · simp [List.getElem?_modify_ne _ _ (Ne.symm hm)]

theorem attempts_spawn (s : State κ ε) (m : ℕ) :
    s.spawn.attempts[m]? =
      if m = s.attempts.length then some ⟨s.now, .fetching⟩ else s.attempts[m]? := by
  let a : Attempt κ ε := ⟨s.now, .fetching⟩
  have hspawn : s.spawn.attempts = s.attempts ++ [a] := rfl
  rw [hspawn]
  rcases Nat.lt_trichotomy m s.attempts.length with hlt | rfl | hgt
  · rw [List.getElem?_append_left hlt, if_neg (Nat.ne_of_lt hlt)]
  · rw [List.getElem?_concat_length, if_pos rfl]
  · have hlong : (s.attempts ++ [a]).length ≤ m := by
      rw [List.length_append]
      exact hgt
    rw [List.getElem?_eq_none hlong, if_neg (Nat.ne_of_gt hgt),
      List.getElem?_eq_none (Nat.le_of_lt hgt)]

theorem phase?_spawn (s : State κ ε) (m : ℕ) :
    s.spawn.phase? m = if m = s.attempts.length then some .fetching else s.phase? m := by
  unfold phase?
  rw [attempts_spawn]
  split <;> rfl

theorem phase?_spawn_cases {m : ℕ} {q : Phase κ ε} (h : s.spawn.phase? m = some q) :
    m = s.attempts.length ∧ q = .fetching ∨ s.phase? m = some q := by
  rw [phase?_spawn] at h
  by_cases hm : m = s.attempts.length
  · rw [if_pos hm] at h
    exact Or.inl ⟨hm, (Option.some.inj h).symm⟩
  · rw [if_neg hm] at h
    exact Or.inr h

theorem phase?_spawn_old {m : ℕ} {q : Phase κ ε} (h : s.phase? m = some q) :
    s.spawn.phase? m = some q := by
  rw [phase?_spawn, if_neg (Nat.ne_of_lt (phase?_lt h)), h]

theorem startedAt?_spawn (s : State κ ε) (m : ℕ) :
    s.spawn.startedAt? m = if m = s.attempts.length then some s.now else s.startedAt? m := by
  unfold startedAt?
  rw [attempts_spawn]
  split <;> rfl

/-- Every step, with what it needs. -/
inductive Moves (s : State κ ε) : Act κ ε → State κ ε → Prop
  | ticked (d : ℕ) : Moves s (.tick d) { s with now := s.now + d }
  | verified (v : ℕ) (kid : String) (hpc : (s.calls v).pc = .idle) :
      Moves s (.verify v kid) (s.looked v (s.firstLook kid))
  | joined (v n : ℕ) (pc : Pc κ ε) (hpc : (s.calls v).pc.join (some n) = some pc)
      (hslot : s.inFlight = some n) :
      Moves s (.refresh v) (s.setCall v { s.calls v with pc := pc, joined := some n })
  | floored (v t : ℕ) (pc : Pc κ ε) (hpc : (s.calls v).pc.join none = some pc)
      (hslot : s.inFlight = none) (ht : s.nextAttempt = some t) (hlt : s.now < t) :
      Moves s (.refresh v) (s.setCall v { s.calls v with pc := pc, joined := none })
  | spawned (v : ℕ) (pc : Pc κ ε) (hpc : (s.calls v).pc.join (some s.attempts.length) = some pc)
      (hslot : s.inFlight = none) (ht : ∀ t, s.nextAttempt = some t → t ≤ s.now) :
      Moves s (.refresh v)
        (s.spawn.setCall v { s.calls v with pc := pc, joined := some s.attempts.length })
  | woken (v n : ℕ) (kid : String) (o : Outcome ε) (p : Phase κ ε)
      (hpc : (s.calls v).pc = .waiting kid) (hj : (s.calls v).joined = some n)
      (hp : s.phase? n = some p) (ho : p.outcome? = some o) :
      Moves s (.wake v) (s.setCall v { s.calls v with pc := .resume kid o, answer := some o })
  | relooked (v : ℕ) (kid : String) (hpc : (s.calls v).pc = .reread kid) :
      Moves s (.reread v) (s.looked v (s.secondLook kid))
  | dropped (v : ℕ) (kid : String) (hpc : (s.calls v).pc = .waiting kid) :
      Moves s (.disconnect v) (s.setCall v { s.calls v with pc := .gone })
  | received (n : ℕ) (result : Except ε (KeySet κ)) (hp : s.phase? n = some .fetching) :
      Moves s (.fetched n result) (s.setPhase n (.receive result))
  | stored (n : ℕ) (byKid : KeySet κ) (hp : s.phase? n = some (.fetched byKid)) :
      Moves s (.store n) { s.setPhase n (.settling (.ok ())) with
        keys := ⟨byKid, some (s.now + keyTtl)⟩
        stores := s.stores ++ [⟨n, byKid⟩] }
  | finished (n : ℕ) (o : Outcome ε) (hp : s.phase? n = some (.settling o)) :
      Moves s (.finish n) { s.setPhase n (.ended o s.now) with
        inFlight := none
        nextAttempt := some (s.now + minRefresh) }
  | aborted (n : ℕ) (p : Phase κ ε) (hp : s.phase? n = some p) (hr : p.running = true) :
      Moves s (.abort n) (s.setPhase n (.aborted s.now))

theorem refresh_cases (s : State κ ε) :
    (∃ n, s.inFlight = some n ∧ s.refresh = (s, some n)) ∨
    (∃ t, s.inFlight = none ∧ s.nextAttempt = some t ∧ s.now < t ∧ s.refresh = (s, none)) ∨
    (s.inFlight = none ∧ (∀ t, s.nextAttempt = some t → t ≤ s.now) ∧
      s.refresh = (s.spawn, some s.attempts.length)) := by
  unfold refresh
  cases hslot : s.inFlight with
  | some n => exact Or.inl ⟨n, rfl, rfl⟩
  | none =>
    refine Or.inr ?_
    cases ht : s.nextAttempt with
    | none => exact Or.inr ⟨rfl, fun t h => absurd h (by simp), by simp⟩
    | some t =>
      by_cases hlt : s.now < t
      · exact Or.inl ⟨t, rfl, rfl, hlt, by simp [hlt]⟩
      · refine Or.inr ⟨rfl, fun u hu => ?_, by simp [hlt]⟩
        obtain rfl := Option.some.inj hu
        exact Nat.not_lt.mp hlt

theorem step_moves (h : s.step a = some s') : Moves s a s' := by
  cases a with
  | tick d =>
    obtain rfl := Option.some.inj h
    exact .ticked d
  | verify v kid =>
    simp only [step] at h
    split at h
    · rename_i hpc
      obtain rfl := Option.some.inj h
      exact .verified v kid hpc
    · exact absurd h (by simp)
  | refresh v =>
    simp only [step, Option.map_eq_some_iff] at h
    obtain ⟨pc, hpc, rfl⟩ := h
    rcases refresh_cases s with ⟨n, hslot, hr⟩ | ⟨t, hslot, ht, hlt, hr⟩ | ⟨hslot, ht, hr⟩
    · rw [hr] at hpc ⊢
      exact .joined v n pc hpc hslot
    · rw [hr] at hpc ⊢
      exact .floored v t pc hpc hslot ht hlt
    · rw [hr] at hpc ⊢
      exact .spawned v pc hpc hslot ht
  | wake v =>
    simp only [step] at h
    split at h
    · rename_i kid o hpc ho
      obtain rfl := Option.some.inj h
      simp only [Option.bind_eq_some_iff] at ho
      obtain ⟨p, ⟨n, hj, hp⟩, ho⟩ := ho
      exact .woken v n kid o p hpc hj hp ho
    · exact absurd h (by simp)
  | reread v =>
    simp only [step] at h
    split at h
    · rename_i kid hpc
      obtain rfl := Option.some.inj h
      exact .relooked v kid hpc
    · exact absurd h (by simp)
  | disconnect v =>
    simp only [step] at h
    split at h
    · rename_i kid hpc
      obtain rfl := Option.some.inj h
      exact .dropped v kid hpc
    · exact absurd h (by simp)
  | fetched n result =>
    simp only [step] at h
    split at h
    · rename_i hp
      obtain rfl := Option.some.inj h
      exact .received n result hp
    · exact absurd h (by simp)
  | store n =>
    simp only [step] at h
    split at h
    · rename_i byKid hp
      obtain rfl := Option.some.inj h
      exact .stored n byKid hp
    · exact absurd h (by simp)
  | finish n =>
    simp only [step] at h
    split at h
    · rename_i o hp
      obtain rfl := Option.some.inj h
      exact .finished n o hp
    · exact absurd h (by simp)
  | abort n =>
    simp only [step] at h
    split at h
    · rename_i p hp
      by_cases hr : p.running = true
      · rw [if_pos hr] at h
        obtain rfl := Option.some.inj h
        exact .aborted n p hp hr
      · rw [if_neg hr] at h
        exact absurd h (by simp)
    · exact absurd h (by simp)

end State

end Garret.Jwks
