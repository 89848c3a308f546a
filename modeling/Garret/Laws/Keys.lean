import Garret.Auth.Keys
import Mathlib.Algebra.Order.Group.Nat

/-!
# Refreshing the signing keys

What holds of the key cache and the refresh slot of an issuer, however its fetch tasks and the calls
that use it interleave (`crates/garret-server/src/auth.rs`).

* `Flight`: the slot holds the one task that has not run its last lines. Every older attempt ended,
  at least `minRefresh` before the next one started.
* `Shelf`: the cache is the key set stored last; the key sets stored are those of the attempts that
  succeeded.
* `CallOk`: a call's key was in the cache it saw; what it waited for is what its attempt returned.

A task that panics or is cancelled never empties the slot (`Flight.flying` leaves the dead task
there), so `refresh` keeps handing out its join error: a refetch starts only as long as no task died
(`refresh_starts_iff`).
-/

namespace Garret.Jwks

open Garret.Lib

variable {κ ε : Type}

/-- The call has not called `refresh` yet. -/
def Pc.early : Pc κ ε → Bool
  | .idle => true
  | .expired _ _ => true
  | .unknown _ => true
  | _ => false

namespace State

variable {s s' : State κ ε} {a : Act κ ε}

/-! ## The slot -/

/-- The slot, the floor and the attempts. -/
structure Flight (s : State κ ε) : Prop where
  last : ∀ n, s.inFlight = some n → n + 1 = s.attempts.length
  flying : ∀ n p, s.inFlight = some n → s.phase? n = some p → p.running = true ∨ p.dead = true
  landed : ∀ n p, s.phase? n = some p → s.inFlight ≠ some n → ∃ o t, p = .ended o t
  floor : ∀ u, s.nextAttempt = some u →
    ∃ n o t, s.phase? n = some (.ended o t) ∧ u = t + minRefresh
  past : ∀ n o t, s.phase? n = some (.ended o t) →
    t ≤ s.now ∧ ∃ u, s.nextAttempt = some u ∧ t + minRefresh ≤ u
  spaced : ∀ m n p b, m < n → s.phase? m = some p → s.startedAt? n = some b →
    ∃ o t, p = .ended o t ∧ t + minRefresh ≤ b

/-- A running task holds the slot. -/
theorem Flight.slot {n : ℕ} {p : Phase κ ε} (hi : Flight s) (hp : s.phase? n = some p)
    (hr : p.running = true) : s.inFlight = some n := by
  by_contra hne
  obtain ⟨o, t, rfl⟩ := hi.landed n p hp hne
  exact absurd hr (by simp [Phase.running])

theorem flight_init (now : ℕ) : Flight (init now : State κ ε) where
  last n h := absurd h (by simp [init])
  flying n p h := absurd h (by simp [init])
  landed n p h := absurd (phase?_lt h) (by simp [init])
  floor u h := absurd h (by simp [init])
  past n o t h := absurd (phase?_lt h) (by simp [init])
  spaced m n p b _ h := absurd (phase?_lt h) (by simp [init])

/-- What leaves the slot, the floor and the attempts alone. -/
theorem Flight.frame (hi : Flight s) (ha : s'.attempts = s.attempts)
    (hf : s'.inFlight = s.inFlight) (hn : s'.nextAttempt = s.nextAttempt)
    (hnow : s.now ≤ s'.now) : Flight s' := by
  have hp : ∀ n, s'.phase? n = s.phase? n := fun n => by unfold phase?; rw [ha]
  have hb : ∀ n, s'.startedAt? n = s.startedAt? n := fun n => by unfold startedAt?; rw [ha]
  constructor
  · intro n h
    rw [ha]
    exact hi.last n (hf ▸ h)
  · intro n p h h'
    exact hi.flying n p (hf ▸ h) (hp n ▸ h')
  · intro n p h hne
    exact hi.landed n p (hp n ▸ h) (hf ▸ hne)
  · intro u h
    obtain ⟨n, o, t, ht, hu⟩ := hi.floor u (hn ▸ h)
    exact ⟨n, o, t, (hp n).trans ht, hu⟩
  · intro n o t h
    obtain ⟨hle, hu⟩ := hi.past n o t (hp n ▸ h)
    exact ⟨hle.trans hnow, hn ▸ hu⟩
  · intro m n p b hlt h h'
    exact hi.spaced m n p b hlt (hp m ▸ h) (hb n ▸ h')

/-- A running task moves on, or dies. -/
theorem Flight.move {n : ℕ} {p p' : Phase κ ε} (hi : Flight s) (hp : s.phase? n = some p)
    (hr : p.running = true) (hp' : p'.running = true ∨ p'.dead = true) :
    Flight (s.setPhase n p') := by
  have hslot := hi.slot hp hr
  have hne : ∀ o t, p' ≠ .ended o t := by
    rintro o t rfl
    simp [Phase.running, Phase.dead] at hp'
  constructor
  · intro m h
    simp only [setPhase, List.length_modify]
    exact hi.last m h
  · intro m q h h'
    rcases phase?_setPhase_cases hp h' with ⟨-, rfl⟩ | ⟨-, h'⟩
    · exact hp'
    · exact hi.flying m q h h'
  · intro m q h hm
    rcases phase?_setPhase_cases hp h with ⟨rfl, -⟩ | ⟨-, h⟩
    · exact absurd hslot hm
    · exact hi.landed m q h hm
  · intro u h
    obtain ⟨m, o, t, ht, hu⟩ := hi.floor u h
    exact ⟨m, o, t, phase?_setPhase_still hp hr ht rfl, hu⟩
  · intro m o t h
    rcases phase?_setPhase_cases hp h with ⟨-, he⟩ | ⟨-, h⟩
    · exact absurd he.symm (hne o t)
    · exact hi.past m o t h
  · intro m k q b hlt h h'
    rw [startedAt?_setPhase] at h'
    rcases phase?_setPhase_cases hp h with ⟨rfl, -⟩ | ⟨-, h⟩
    · -- no attempt follows one that still runs
      obtain ⟨o, t, rfl, -⟩ := hi.spaced m k p b hlt hp h'
      exact absurd hr (by simp [Phase.running])
    · exact hi.spaced m k q b hlt h h'

/-- A task runs its last lines. -/
theorem Flight.finish {n : ℕ} {o : Outcome ε} (hi : Flight s)
    (hp : s.phase? n = some (.settling o)) :
    Flight { s.setPhase n (.ended o s.now) with
      inFlight := none
      nextAttempt := some (s.now + minRefresh) } := by
  have hslot := hi.slot hp rfl
  constructor
  · intro m h
    exact absurd h (by simp)
  · intro m q h
    exact absurd h (by simp)
  · intro m q h _
    rcases phase?_setPhase_cases hp h with ⟨-, rfl⟩ | ⟨hm, h⟩
    · exact ⟨o, s.now, rfl⟩
    · refine hi.landed m q h fun hs => hm ?_
      exact Option.some.inj (hs.symm.trans hslot)
  · intro u h
    obtain rfl := Option.some.inj h
    refine ⟨n, o, s.now, ?_, rfl⟩
    change (s.setPhase n (.ended o s.now)).phase? n = _
    rw [phase?_setPhase, if_pos rfl, hp]
    rfl
  · intro m o' t h
    rcases phase?_setPhase_cases hp h with ⟨-, he⟩ | ⟨-, h⟩
    · obtain ⟨-, rfl⟩ := Phase.ended.inj he
      exact ⟨Nat.le_refl _, _, rfl, Nat.le_refl _⟩
    · obtain ⟨hle, -⟩ := hi.past m o' t h
      exact ⟨hle, _, rfl, Nat.add_le_add_right hle _⟩
  · intro m k q b hlt h h'
    have hb := (startedAt?_setPhase s n k (.ended o s.now)).symm.trans h'
    rcases phase?_setPhase_cases hp h with ⟨rfl, -⟩ | ⟨-, h⟩
    · obtain ⟨o', t, he, -⟩ := hi.spaced m k _ b hlt hp hb
      exact absurd he (by simp)
    · exact hi.spaced m k q b hlt h hb

/-- A fetch starts once the slot is empty and the floor has passed. -/
theorem Flight.spawn (hi : Flight s) (hslot : s.inFlight = none)
    (ht : ∀ t, s.nextAttempt = some t → t ≤ s.now) : Flight s.spawn := by
  constructor
  · intro n h
    obtain rfl := Option.some.inj h
    simp [State.spawn]
  · intro n p h h'
    obtain rfl := Option.some.inj h
    rw [phase?_spawn, if_pos rfl] at h'
    obtain rfl := Option.some.inj h'
    exact Or.inl rfl
  · intro m q h hm
    rcases phase?_spawn_cases h with ⟨rfl, -⟩ | h
    · exact absurd rfl hm
    · exact hi.landed m q h (by simp [hslot])
  · intro u h
    obtain ⟨n, o, t, hn, hu⟩ := hi.floor u h
    exact ⟨n, o, t, phase?_spawn_old hn, hu⟩
  · intro m o t h
    rcases phase?_spawn_cases h with ⟨-, he⟩ | h
    · exact absurd he (by simp)
    · exact hi.past m o t h
  · intro m n p b hlt h h'
    rw [startedAt?_spawn] at h'
    by_cases hn : n = s.attempts.length
    · rw [if_pos hn] at h'
      obtain rfl := Option.some.inj h'
      rcases phase?_spawn_cases h with ⟨rfl, -⟩ | h
      · exact absurd hn hlt.ne'
      · -- every attempt so far has ended, and the floor of the last one has passed
        obtain ⟨o, t, rfl⟩ := hi.landed m p h (by simp [hslot])
        obtain ⟨-, u, hu, hle⟩ := hi.past m o t h
        exact ⟨o, t, rfl, hle.trans (ht u hu)⟩
    · rw [if_neg hn] at h'
      rcases phase?_spawn_cases h with ⟨rfl, -⟩ | h
      · have hlen : n < s.attempts.length := by
          unfold startedAt? at h'
          obtain ⟨x, hx, -⟩ := Option.map_eq_some_iff.mp h'
          exact (List.getElem?_eq_some_iff.mp hx).1
        exact absurd hlt (Nat.not_lt.mpr hlen.le)
      · exact hi.spaced m n p b hlt h h'

theorem flight_step (hi : Flight s) (h : s.step a = some s') : Flight s' := by
  cases step_moves h with
  | ticked d => exact hi.frame rfl rfl rfl (Nat.le_add_right _ _)
  | verified v kid hpc => exact hi.frame rfl rfl rfl (Nat.le_refl _)
  | joined v n pc hpc hslot => exact hi.frame rfl rfl rfl (Nat.le_refl _)
  | floored v t pc hpc hslot ht hlt => exact hi.frame rfl rfl rfl (Nat.le_refl _)
  | spawned v pc hpc hslot ht => exact (hi.spawn hslot ht).frame rfl rfl rfl (Nat.le_refl _)
  | woken v n kid o p hpc hj hp ho => exact hi.frame rfl rfl rfl (Nat.le_refl _)
  | relooked v kid hpc => exact hi.frame rfl rfl rfl (Nat.le_refl _)
  | dropped v kid hpc => exact hi.frame rfl rfl rfl (Nat.le_refl _)
  | received n result hp =>
    refine hi.move hp rfl (Or.inl ?_)
    cases result <;> rfl
  | stored n byKid hp =>
    exact (hi.move hp rfl (Or.inl rfl)).frame rfl rfl rfl (Nat.le_refl _)
  | finished n o hp => exact hi.finish hp
  | aborted n p hp hr => exact hi.move hp hr (Or.inr rfl)

/-! ## The cache -/

/-- The key set stored last: empty until the first. -/
def newest (stores : List (Stored κ)) : KeySet κ :=
  match stores.getLast? with
  | some f => f.byKid
  | none => fun _ => none

/-- The cache and the key sets stored so far. -/
structure Shelf (s : State κ ε) : Prop where
  newest : s.keys.byKid = newest s.stores
  ordered : s.stores.Pairwise fun f g => f.attempt < g.attempt
  sound : ∀ f ∈ s.stores, ∃ p, s.phase? f.attempt = some p ∧ (p.succeeded = true ∨ p.dead = true)
  complete : ∀ n p, s.phase? n = some p → p.succeeded = true → ∃ f ∈ s.stores, f.attempt = n

theorem shelf_init (now : ℕ) : Shelf (init now : State κ ε) where
  newest := rfl
  ordered := List.Pairwise.nil
  sound f hf := absurd hf (by simp [init])
  complete n p h := absurd (phase?_lt h) (by simp [init])

/-- What leaves the cache and the attempts alone. -/
theorem Shelf.frame (hi : Shelf s) (ha : s'.attempts = s.attempts) (hk : s'.keys = s.keys)
    (hs : s'.stores = s.stores) : Shelf s' := by
  have hp : ∀ n, s'.phase? n = s.phase? n := fun n => by unfold phase?; rw [ha]
  constructor
  · rw [hk, hs]
    exact hi.newest
  · rw [hs]
    exact hi.ordered
  · rw [hs]
    intro f hf
    rw [hp]
    exact hi.sound f hf
  · rw [hs]
    intro n p h
    exact hi.complete n p (hp n ▸ h)

/-- A task moves on without touching the cache: what it stored before, it has stored. -/
theorem Shelf.move {n : ℕ} {p p' : Phase κ ε} (hi : Shelf s) (hp : s.phase? n = some p)
    (hkeep : p.succeeded = true ∨ p.dead = true → p'.succeeded = true ∨ p'.dead = true)
    (hnew : p'.succeeded = true → p.succeeded = true) : Shelf (s.setPhase n p') := by
  constructor
  · exact hi.newest
  · exact hi.ordered
  · intro f hf
    obtain ⟨q, hq, hs⟩ := hi.sound f hf
    rw [phase?_setPhase]
    by_cases hn : f.attempt = n
    · rw [if_pos hn, hp]
      obtain rfl := Option.some.inj (hp.symm.trans (hn ▸ hq))
      exact ⟨p', rfl, hkeep hs⟩
    · rw [if_neg hn]
      exact ⟨q, hq, hs⟩
  · intro m q h hs
    rcases phase?_setPhase_cases hp h with ⟨rfl, rfl⟩ | ⟨-, h⟩
    · exact hi.complete m p hp (hnew hs)
    · exact hi.complete m q h hs

/-- A fetched key set replaces the cache. -/
theorem Shelf.store {n : ℕ} {byKid : KeySet κ} (hf : Flight s) (hi : Shelf s)
    (hp : s.phase? n = some (.fetched byKid)) :
    Shelf { s.setPhase n (.settling (.ok ())) with
      keys := ⟨byKid, some (s.now + keyTtl)⟩
      stores := s.stores ++ [⟨n, byKid⟩] } := by
  have hlast := hf.last n (hf.slot hp rfl)
  constructor
  · simp [State.newest]
  · refine List.pairwise_append.mpr ⟨hi.ordered, List.pairwise_singleton _ _, fun f hf' g hg => ?_⟩
    obtain rfl := List.mem_singleton.mp hg
    obtain ⟨q, hq, hs⟩ := hi.sound f hf'
    -- the attempt that stores is the last one, and has stored nothing yet
    have hne : f.attempt ≠ n := by
      rintro rfl
      obtain rfl := Option.some.inj (hp.symm.trans hq)
      simp [Phase.succeeded, Phase.dead] at hs
    have hlt := phase?_lt hq
    change f.attempt < n
    omega
  · intro f hf'
    change ∃ q, (s.setPhase n _).phase? f.attempt = some q ∧ _
    rw [phase?_setPhase]
    by_cases hn : f.attempt = n
    · rw [if_pos hn, hp]
      exact ⟨_, rfl, Or.inl rfl⟩
    · rw [if_neg hn]
      rcases List.mem_append.mp hf' with hf' | hf'
      · exact hi.sound f hf'
      · exact absurd (congrArg Stored.attempt (List.mem_singleton.mp hf')) hn
  · intro m q h hs
    rcases phase?_setPhase_cases hp h with ⟨rfl, -⟩ | ⟨-, h⟩
    · exact ⟨_, List.mem_append_right _ (List.mem_singleton.mpr rfl), rfl⟩
    · obtain ⟨f, hf', hn⟩ := hi.complete m q h hs
      exact ⟨f, List.mem_append_left _ hf', hn⟩

theorem Shelf.spawn (hi : Shelf s) : Shelf s.spawn := by
  constructor
  · exact hi.newest
  · exact hi.ordered
  · intro f hf
    obtain ⟨q, hq, hs⟩ := hi.sound f hf
    exact ⟨q, phase?_spawn_old hq, hs⟩
  · intro m q h hs
    rcases phase?_spawn_cases h with ⟨-, rfl⟩ | h
    · exact absurd hs (by simp [Phase.succeeded])
    · exact hi.complete m q h hs

theorem shelf_step (hf : Flight s) (hi : Shelf s) (h : s.step a = some s') : Shelf s' := by
  cases step_moves h with
  | ticked d => exact hi.frame rfl rfl rfl
  | verified v kid hpc => exact hi.frame rfl rfl rfl
  | joined v n pc hpc hslot => exact hi.frame rfl rfl rfl
  | floored v t pc hpc hslot ht hlt => exact hi.frame rfl rfl rfl
  | spawned v pc hpc hslot ht => exact hi.spawn.frame rfl rfl rfl
  | woken v n kid o p hpc hj hp ho => exact hi.frame rfl rfl rfl
  | relooked v kid hpc => exact hi.frame rfl rfl rfl
  | dropped v kid hpc => exact hi.frame rfl rfl rfl
  | received n result hp =>
    refine hi.move hp (fun h => absurd h (by simp [Phase.succeeded, Phase.dead])) fun h => ?_
    cases result <;> exact absurd h (by simp [Phase.receive, Phase.succeeded])
  | stored n byKid hp => exact hi.store hf hp
  | finished n o hp =>
    have hmove : Shelf (s.setPhase n (.ended o s.now)) := by
      refine hi.move hp (fun h => ?_) fun h => ?_
      · cases o <;> simp_all [Phase.succeeded, Phase.dead]
      · cases o <;> simp_all [Phase.succeeded]
    exact hmove.frame rfl rfl rfl
  | aborted n p hp hr =>
    exact hi.move hp (fun _ => Or.inr rfl) fun h => absurd h (by simp [Phase.succeeded])

/-! ## The calls -/

/-- What one call knows. -/
structure CallOk (s : State κ ε) (c : Call κ ε) : Prop where
  seen_le : c.seen ≤ s.stores.length
  held : ∀ kid key, c.pc.key? = some (kid, key) →
    ∃ f, (s.stores.take c.seen).getLast? = some f ∧ f.byKid kid = some key
  early : c.pc.early = true → c.joined = none ∧ c.answer = none
  waiting : ∀ kid, c.pc = .waiting kid → ∃ n p, c.joined = some n ∧ s.phase? n = some p
  answered : ∀ o, c.answer = some o →
    ∃ n p, c.joined = some n ∧ s.phase? n = some p ∧ p.outcome? = some o
  refused : ∀ f, c.pc = .refused (.jwksUnavailable f) → c.answer = some (.error f)

/-- What only ever grows: the key sets stored, and the attempts with their outcomes. -/
structure Grows (s s' : State κ ε) : Prop where
  stores : s.stores <+: s'.stores
  phase : ∀ n p, s.phase? n = some p →
    ∃ p', s'.phase? n = some p' ∧ ∀ o, p.outcome? = some o → p'.outcome? = some o

theorem Grows.of_eq (ha : s'.attempts = s.attempts) (hs : s'.stores = s.stores) : Grows s s' where
  stores := hs ▸ List.prefix_rfl
  phase n p h := ⟨p, by unfold phase?; rw [ha]; exact h, fun _ => id⟩

theorem Grows.move {n : ℕ} {p p' : Phase κ ε} (hp : s.phase? n = some p)
    (hr : p.running = true) : Grows s (s.setPhase n p') where
  stores := List.prefix_rfl
  phase m q h := by
    by_cases hq : q.running = true
    · rw [phase?_setPhase]
      have hout : q.outcome? = none := by cases q <;> simp_all [Phase.outcome?, Phase.running]
      by_cases hm : m = n
      · exact ⟨p', by rw [if_pos hm, hp]; rfl, fun o ho => absurd ho (by simp [hout])⟩
      · exact ⟨q, by rw [if_neg hm]; exact h, fun _ => id⟩
    · exact ⟨q, phase?_setPhase_still hp hr h (by simpa using hq), fun _ => id⟩

theorem step_grows (h : s.step a = some s') : Grows s s' := by
  cases step_moves h with
  | spawned v pc hpc hslot ht =>
    exact ⟨List.prefix_rfl, fun n p h => ⟨p, phase?_spawn_old h, fun _ => id⟩⟩
  | received n result hp => exact Grows.move hp rfl
  | stored n byKid hp =>
    have hmove : Grows s (s.setPhase n (.settling (.ok ()))) := Grows.move hp rfl
    exact ⟨List.prefix_append _ _, hmove.phase⟩
  | finished n o hp =>
    have hmove : Grows s (s.setPhase n (.ended o s.now)) := Grows.move hp rfl
    exact ⟨List.prefix_rfl, hmove.phase⟩
  | aborted n p hp hr => exact Grows.move hp hr
  | _ => exact Grows.of_eq rfl rfl

theorem CallOk.mono {c : Call κ ε} (hg : Grows s s') (hc : CallOk s c) : CallOk s' c := by
  obtain ⟨later, hstores⟩ := hg.stores
  constructor
  · rw [← hstores, List.length_append]
    exact hc.seen_le.trans (Nat.le_add_right _ _)
  · intro kid key hk
    rw [← hstores, List.take_append_of_le_length hc.seen_le]
    exact hc.held kid key hk
  · exact hc.early
  · intro kid hpc
    obtain ⟨n, p, hj, hp⟩ := hc.waiting kid hpc
    obtain ⟨p', hp', -⟩ := hg.phase n p hp
    exact ⟨n, p', hj, hp'⟩
  · intro o ho
    obtain ⟨n, p, hj, hp, hout⟩ := hc.answered o ho
    obtain ⟨p', hp', hkeep⟩ := hg.phase n p hp
    exact ⟨n, p', hj, hp', hkeep o hout⟩
  · exact hc.refused

/-- A cached key is a key of the set stored last. -/
theorem Shelf.key {kid : String} {key : κ} (hi : Shelf s) (h : s.keys.byKid kid = some key) :
    ∃ f, s.stores.getLast? = some f ∧ f.byKid kid = some key := by
  rw [hi.newest, State.newest] at h
  cases hl : s.stores.getLast? with
  | none => exact absurd h (by simp [hl])
  | some f => exact ⟨f, rfl, by simpa [hl] using h⟩

theorem firstLook_key {kid kid' : String} {key : κ}
    (h : (s.firstLook kid).key? = some (kid', key)) : s.keys.byKid kid' = some key := by
  unfold firstLook cachedKey at h
  split at h <;> simp_all [Pc.key?]

theorem secondLook_key {kid kid' : String} {key : κ}
    (h : (s.secondLook kid).key? = some (kid', key)) : s.keys.byKid kid' = some key := by
  unfold secondLook cachedKey at h
  split at h <;> simp_all [Pc.key?]

/-- A call looks at the cache. -/
theorem CallOk.look {c : Call κ ε} {pc : Pc κ ε} (hs : Shelf s) (hc : CallOk s c)
    (hkey : ∀ kid key, pc.key? = some (kid, key) → s.keys.byKid kid = some key)
    (hearly : pc.early = true → c.pc.early = true) (hwait : ∀ kid, pc ≠ .waiting kid)
    (href : ∀ f, pc ≠ .refused (.jwksUnavailable f)) :
    CallOk s { c with pc := pc, seen := s.stores.length } := by
  constructor
  · exact Nat.le_refl _
  · intro kid key hk
    rw [List.take_length]
    exact hs.key (hkey kid key hk)
  · intro he
    exact hc.early (hearly he)
  · intro kid hpc
    exact absurd hpc (hwait kid)
  · exact hc.answered
  · intro f hpc
    exact absurd hpc (href f)

/-- A call is given what `refresh` returned. -/
theorem CallOk.join {c : Call κ ε} {pc : Pc κ ε} {r : Option ℕ} (hc : CallOk s c)
    (hpc : c.pc.join r = some pc) (hr : ∀ n, r = some n → ∃ p, s.phase? n = some p) :
    CallOk s { c with pc := pc, joined := r } := by
  have hearly : c.pc.early = true := by
    revert hpc
    cases c.pc <;> simp [Pc.join, Pc.early]
  have hanswer : c.answer = none := (hc.early hearly).2
  constructor
  · exact hc.seen_le
  · intro kid key hk
    refine hc.held kid key ?_
    revert hpc hk
    cases c.pc <;> cases r <;> simp +contextual [Pc.join, Pc.key?, ← eq_comm (a := pc)]
  · intro he
    revert hpc he
    cases c.pc <;> cases r <;> simp +contextual [Pc.join, Pc.early, ← eq_comm (a := pc)]
  · intro kid hw
    cases r with
    | none =>
      subst hw
      revert hpc
      cases c.pc <;> simp [Pc.join]
    | some n =>
      obtain ⟨p, hp⟩ := hr n rfl
      exact ⟨n, p, rfl, hp⟩
  · intro o ho
    exact absurd ho (by simp [hanswer])
  · intro f hf
    subst hf
    revert hpc
    cases c.pc <;> cases r <;> simp [Pc.join]

/-- Replacing one call. -/
theorem callOk_update {calls : ℕ → Call κ ε} {v : ℕ} {c : Call κ ε}
    (hall : ∀ u, CallOk s (calls u)) (hc : CallOk s c) (u : ℕ) :
    CallOk s (Function.update calls v c u) := by
  rw [Function.update_apply]
  by_cases hu : u = v
  · rw [if_pos hu]
    exact hc
  · rw [if_neg hu]
    exact hall u

/-- What every reachable state satisfies. -/
structure Inv (s : State κ ε) : Prop where
  flight : Flight s
  shelf : Shelf s
  calls : ∀ v, CallOk s (s.calls v)

theorem inv_init (now : ℕ) : Inv (init now : State κ ε) where
  flight := flight_init now
  shelf := shelf_init now
  calls v :=
    { seen_le := Nat.le_refl _
      held := fun _ _ h => absurd h (by simp [init, Pc.key?])
      early := fun _ => ⟨rfl, rfl⟩
      waiting := fun _ h => absurd h (by simp [init])
      answered := fun _ h => absurd h (by simp [init])
      refused := fun _ h => absurd h (by simp [init]) }

theorem calls_step (hi : Inv s) (h : s.step a = some s') (u : ℕ) : CallOk s' (s'.calls u) := by
  have hgrow := step_grows h
  have hkept : ∀ v, CallOk s' (s.calls v) := fun v => (hi.calls v).mono hgrow
  cases step_moves h with
  | verified v kid hpc =>
    refine callOk_update hkept (((hi.calls v).look hi.shelf (fun _ _ => firstLook_key)
      (fun _ => by simp [hpc, Pc.early]) ?_ ?_).mono hgrow) u
    · intro kid'
      unfold firstLook
      split <;> simp
    · intro f
      unfold firstLook
      split <;> simp
  | joined v n pc hpc hslot =>
    refine callOk_update hkept (((hi.calls v).join hpc ?_).mono hgrow) u
    intro m hm
    obtain rfl := Option.some.inj hm
    have hlt : n < s.attempts.length := (hi.flight.last n hslot) ▸ Nat.lt_succ_self n
    exact ⟨_, by unfold phase?; rw [List.getElem?_eq_getElem hlt]; rfl⟩
  | floored v t pc hpc hslot ht hlt =>
    exact callOk_update hkept (((hi.calls v).join hpc (by simp)).mono hgrow) u
  | spawned v pc hpc hslot ht =>
    refine callOk_update hkept ((hkept v).join hpc ?_) u
    intro m hm
    obtain rfl := Option.some.inj hm
    refine ⟨.fetching, ?_⟩
    change s.spawn.phase? _ = _
    rw [phase?_spawn, if_pos rfl]
  | woken v n kid o p hpc hj hp ho =>
    have hc := hi.calls v
    refine callOk_update hkept (CallOk.mono hgrow ?_) u
    constructor
    · exact hc.seen_le
    · intro kid' key hk
      cases o <;> exact absurd hk (by simp [Pc.resume, Pc.key?])
    · intro he
      cases o <;> exact absurd he (by simp [Pc.resume, Pc.early])
    · intro kid' hw
      cases o <;> exact absurd hw (by simp [Pc.resume])
    · intro o' ho'
      obtain rfl := Option.some.inj ho'
      exact ⟨n, p, hj, hp, ho⟩
    · intro f hf
      cases o with
      | ok x => exact absurd hf (by simp [Pc.resume])
      | error e => simpa [Pc.resume] using hf
  | relooked v kid hpc =>
    refine callOk_update hkept (((hi.calls v).look hi.shelf (fun _ _ => secondLook_key) ?_ ?_
      ?_).mono hgrow) u
    · intro he
      revert he
      unfold secondLook
      split <;> simp [Pc.early]
    · intro kid'
      unfold secondLook
      split <;> simp
    · intro f
      unfold secondLook
      split <;> simp
  | dropped v kid hpc =>
    have hc := hi.calls v
    refine callOk_update hkept (CallOk.mono hgrow ?_) u
    exact ⟨hc.seen_le, fun _ _ hk => absurd hk (by simp [Pc.key?]),
      fun he => absurd he (by simp [Pc.early]), fun _ hw => absurd hw (by simp), hc.answered,
      fun _ hf => absurd hf (by simp)⟩
  | _ => exact hkept u

theorem inv_step (hi : Inv s) (h : s.step a = some s') : Inv s' :=
  ⟨flight_step hi.flight h, shelf_step hi.flight hi.shelf h, calls_step hi h⟩

theorem inv_reach {ok : State κ ε → Act κ ε → Prop} {now : ℕ} (h : Reach step ok (init now) s) :
    Inv s :=
  h.invariant (fun _ _ _ hi _ hs => inv_step hi hs) (inv_init now)

/-! ## What the callers can rely on -/

/-- The task of attempt `n` runs. -/
def Running (s : State κ ε) (n : ℕ) : Prop := ∃ p, s.phase? n = some p ∧ p.running = true

/-- At most one fetch is in progress. -/
def SingleFlight (s : State κ ε) : Prop := ∀ m n, s.Running m → s.Running n → m = n

/-- An attempt starts only when every earlier one ended `minRefresh` ago. -/
def RateLimited (s : State κ ε) : Prop :=
  ∀ m n p started, m < n → s.phase? m = some p → s.startedAt? n = some started →
    ∃ ended, p.endedAt = some ended ∧ ended + minRefresh ≤ started

/-- A call that joins an attempt joins the running one, waits for it, and goes on with what it
returned. -/
structure Served (s : State κ ε) : Prop where
  answered : ∀ v n o, (s.calls v).joined = some n → (s.calls v).answer = some o →
    (s.phase? n).bind Phase.outcome? = some o
  refused : ∀ v f, (s.calls v).pc = .refused (.jwksUnavailable f) →
    (s.calls v).answer = some (.error f)
  waiting : ∀ v kid, (s.calls v).pc = .waiting kid → ∃ n, (s.calls v).joined = some n ∧
    (s.Running n ∨ ∃ o, (s.phase? n).bind Phase.outcome? = some o ∧ s.step (.wake v) =
      some (s.setCall v { s.calls v with pc := .resume kid o, answer := some o }))
  running : ∀ a s' v n, s.step a = some s' → (s.calls v).joined ≠ some n →
    (s'.calls v).joined = some n → s'.Running n

/-- A step leaves the cache alone, or stores the key set its attempt fetched, whole. An attempt
that failed never stored one; one that succeeded did. -/
structure Atomic (s : State κ ε) : Prop where
  replaced : ∀ a s', s.step a = some s' →
    (s'.keys = s.keys ∧ s'.stores = s.stores) ∨ ∃ n byKid, a = .store n ∧
      s.phase? n = some (.fetched byKid) ∧ s'.keys = ⟨byKid, some (s.now + keyTtl)⟩ ∧
      s'.stores = s.stores ++ [⟨n, byKid⟩]
  failed : ∀ n e, (s.phase? n).bind Phase.outcome? = some (.error e) →
    ∀ f ∈ s.stores, f.attempt ≠ n
  succeeded : ∀ n, (s.phase? n).bind Phase.outcome? = some (.ok ()) → ∃ f ∈ s.stores, f.attempt = n

/-- A call's key is a key of the last set stored before it looked; sets are stored in the order of
the attempts. -/
structure Current (s : State κ ε) : Prop where
  held : ∀ v kid key, (s.calls v).pc.key? = some (kid, key) →
    ∃ f, (s.stores.take (s.calls v).seen).getLast? = some f ∧ f.byKid kid = some key
  ordered : s.stores.Pairwise fun f g => f.attempt < g.attempt

/-- Every fetch task runs to its last lines. -/
def Completes (_ : State κ ε) (a : Act κ ε) : Prop := a.aborts = false

instance (s : State κ ε) (a : Act κ ε) : Decidable (Completes s a) :=
  inferInstanceAs (Decidable (_ = _))

/-- No task has died. -/
def Alive (s : State κ ε) : Prop := ∀ n p, s.phase? n = some p → p.dead = false

theorem alive_step (hi : Alive s) (hok : Completes s a) (h : s.step a = some s') : Alive s' := by
  have hmove : ∀ {n p p'}, s.phase? n = some p → p'.dead = false → Alive (s.setPhase n p') := by
    intro n p p' hp hp' m q hq
    rcases phase?_setPhase_cases hp hq with ⟨-, rfl⟩ | ⟨-, hq⟩
    · exact hp'
    · exact hi m q hq
  cases step_moves h with
  | spawned v pc hpc hslot ht =>
    intro m q hq
    rcases phase?_spawn_cases hq with ⟨-, rfl⟩ | hq
    · rfl
    · exact hi m q hq
  | received n result hp =>
    refine hmove hp ?_
    cases result <;> rfl
  | stored n byKid hp => exact hmove hp rfl
  | finished n o hp => exact hmove hp rfl
  | aborted n p hp hr => exact absurd hok (by simp [Completes, Act.aborts])
  | _ => exact hi

theorem alive_reach {now : ℕ} (h : Reach step Completes (init now) s) : Alive s :=
  h.invariant (fun _ _ _ hi ha hs => alive_step hi ha hs)
    fun _ _ hp => absurd (phase?_lt hp) (by simp [init])

theorem Flight.singleFlight (hi : Flight s) : SingleFlight s := by
  rintro m n ⟨p, hp, hpr⟩ ⟨q, hq, hqr⟩
  exact Option.some.inj ((hi.slot hp hpr).symm.trans (hi.slot hq hqr))

theorem Flight.rateLimited (hi : Flight s) : RateLimited s := by
  intro m n p started hlt hp hb
  obtain ⟨o, t, rfl, hle⟩ := hi.spaced m n p started hlt hp hb
  exact ⟨t, rfl, hle⟩

theorem Inv.served (hi : Inv s) (hl : Alive s) : Served s := by
  constructor
  · intro v n o hj ho
    obtain ⟨m, p, hm, hp, hout⟩ := (hi.calls v).answered o ho
    obtain rfl := Option.some.inj (hj.symm.trans hm)
    rw [hp]
    exact hout
  · intro v f hf
    exact (hi.calls v).refused f hf
  · intro v kid hpc
    obtain ⟨n, p, hj, hp⟩ := (hi.calls v).waiting kid hpc
    refine ⟨n, hj, ?_⟩
    cases hr : p.running with
    | true => exact Or.inl ⟨p, hp, hr⟩
    | false =>
      obtain ⟨o, ho⟩ : ∃ o, p.outcome? = some o := by
        cases p <;> simp_all [Phase.running, Phase.outcome?]
      refine Or.inr ⟨o, by rw [hp]; exact ho, ?_⟩
      simp [step, hpc, hj, hp, ho]
  · intro a s' v n h hold hnew
    cases step_moves h with
    | joined u m pc hpc hslot =>
      change Running s n
      simp only [setCall, Function.update_apply] at hnew
      by_cases hv : v = u
      · rw [if_pos hv] at hnew
        obtain rfl := Option.some.inj hnew
        have hlt : m < s.attempts.length := (hi.flight.last m hslot) ▸ Nat.lt_succ_self m
        have hp : s.phase? m = some s.attempts[m].phase := by
          unfold phase?
          rw [List.getElem?_eq_getElem hlt]
          rfl
        rcases hi.flight.flying m _ hslot hp with hr | hd
        · exact ⟨_, hp, hr⟩
        · exact absurd (hl m _ hp) (by simp [hd])
      · rw [if_neg hv] at hnew
        exact absurd hnew hold
    | spawned u pc hpc hslot ht =>
      change Running s.spawn n
      simp only [setCall, Function.update_apply] at hnew
      by_cases hv : v = u
      · rw [if_pos hv] at hnew
        obtain rfl := Option.some.inj hnew
        exact ⟨.fetching, by rw [phase?_spawn, if_pos rfl], rfl⟩
      · rw [if_neg hv] at hnew
        exact absurd hnew hold
    | floored u t pc hpc hslot ht hlt =>
      simp only [setCall, Function.update_apply] at hnew
      by_cases hv : v = u
      · rw [if_pos hv] at hnew
        exact absurd hnew (by simp)
      · rw [if_neg hv] at hnew
        exact absurd hnew hold
    | verified u kid hpc | woken u m kid o p hpc hj hp ho | relooked u kid hpc
    | dropped u kid hpc =>
      simp only [looked, setCall, Function.update_apply] at hnew
      by_cases hv : v = u
      · subst hv
        rw [if_pos rfl] at hnew
        exact absurd hnew hold
      · rw [if_neg hv] at hnew
        exact absurd hnew hold
    | _ => exact absurd hnew hold

theorem Inv.atomic (hi : Inv s) (hl : Alive s) : Atomic s := by
  constructor
  · intro a s' h
    cases step_moves h with
    | stored n byKid hp => exact Or.inr ⟨n, byKid, rfl, hp, rfl, rfl⟩
    | _ => exact Or.inl ⟨rfl, rfl⟩
  · rintro n e hout f hf rfl
    obtain ⟨p, hp, hs⟩ := hi.shelf.sound f hf
    have hd := hl _ p hp
    simp only [hp, Option.bind_some] at hout
    cases p <;> simp_all [Phase.outcome?, Phase.succeeded, Phase.dead]
  · intro n hout
    obtain ⟨p, hp, ho⟩ := Option.bind_eq_some_iff.mp hout
    refine hi.shelf.complete n p hp ?_
    cases p <;> simp_all [Phase.outcome?, Phase.succeeded]

theorem Inv.current (hi : Inv s) : Current s where
  held v := (hi.calls v).held
  ordered := hi.shelf.ordered

/-- **Refreshing the keys is single-flight, rate-limited and atomic**, however the verifications of
an issuer and the endings of its fetches interleave. -/
theorem refresh_contract {now : ℕ} (h : Reach step Completes (init now) s) :
    SingleFlight s ∧ RateLimited s ∧ Served s ∧ Atomic s ∧ Current s := by
  have hi := inv_reach h
  have hl := alive_reach h
  exact ⟨hi.flight.singleFlight, hi.flight.rateLimited,
    hi.served hl, hi.atomic hl, hi.current⟩

/-- Two calls wait for one fetch, which succeeds; a third waits for the next one, which fails. -/
theorem refresh_contract_rotation : ∃ s : State ℕ String,
    ((s.calls 1).pc.key? = some ("k", 7) ∧ (s.calls 2).joined = some 1 ∧ s.stores.length = 1) ∧
      SingleFlight s ∧ RateLimited s ∧ Served s ∧ Atomic s ∧ Current s := by
  obtain ⟨s, h, hs⟩ := exec_check (step (κ := ℕ) (ε := String)) Completes
    [.verify 0 "k", .refresh 0, .verify 1 "k", .refresh 1,
      .fetched 0 (.ok fun kid => if kid = "k" then some 7 else none), .store 0,
      .finish 0, .wake 0, .wake 1, .reread 0, .reread 1, .verify 2 "z", .tick minRefresh,
      .refresh 2, .fetched 1 (.error "down"), .finish 1, .wake 2] (init 0)
    (fun s => (s.calls 1).pc.key? = some ("k", 7) ∧ (s.calls 2).joined = some 1 ∧
      s.stores.length = 1) (by decide +kernel)
  exact ⟨s, hs, refresh_contract h⟩

/-! ## What a dead task leaves behind -/

/-- No fetch runs, and the last one stopped `minRefresh` ago. -/
def Rested (s : State κ ε) : Prop :=
  ∀ a ∈ s.attempts, a.phase.running = false ∧ ∀ t ∈ a.phase.endedAt, t + minRefresh ≤ s.now

/-- The next call of `refresh` starts a fetch. -/
def Refetches (s : State κ ε) : Prop := s.refresh.1.attempts.length = s.attempts.length + 1

instance (s : State κ ε) : Decidable (Rested s) :=
  inferInstanceAs (Decidable (∀ a ∈ s.attempts, _ ∧ ∀ t ∈ a.phase.endedAt, _))

instance (s : State κ ε) : Decidable (Refetches s) := inferInstanceAs (Decidable (_ = _))

theorem phase?_of_mem {a : Attempt κ ε} (h : a ∈ s.attempts) :
    ∃ n, s.phase? n = some a.phase := by
  obtain ⟨n, hn⟩ := List.mem_iff_getElem?.mp h
  exact ⟨n, by unfold phase?; rw [hn]; rfl⟩

theorem mem_of_phase? {n : ℕ} {p : Phase κ ε} (h : s.phase? n = some p) :
    ∃ a ∈ s.attempts, a.phase = p := by
  obtain ⟨a, ha, rfl⟩ := Option.map_eq_some_iff.mp h
  exact ⟨a, List.mem_of_getElem? ha, rfl⟩

/-- A resting issuer refetches exactly when its slot is empty. -/
theorem refetches_iff (hi : Flight s) (hr : Rested s) : Refetches s ↔ s.inFlight = none := by
  rcases refresh_cases s with ⟨n, hslot, he⟩ | ⟨t, hslot, ht, hlt, he⟩ | ⟨hslot, -, he⟩
  · simp [Refetches, he, hslot]
  · -- the floor is that of an attempt that ended
    obtain ⟨n, o, u, hn, rfl⟩ := hi.floor t ht
    obtain ⟨a, ha, hp⟩ := mem_of_phase? hn
    have hle := (hr a ha).2 u (by rw [hp]; rfl)
    exact absurd hlt (Nat.not_lt.mpr hle)
  · simp [Refetches, he, hslot, spawn]

/-- **A resting issuer refetches exactly when no task of it died.** -/
theorem Flight.refetches (hi : Flight s) (hr : Rested s) :
    Refetches s ↔ ∀ a ∈ s.attempts, a.phase.dead = false := by
  rw [refetches_iff hi hr]
  constructor
  · intro hslot a ha
    obtain ⟨n, hn⟩ := phase?_of_mem ha
    obtain ⟨o, t, he⟩ := hi.landed n _ hn (by simp [hslot])
    rw [he]
    rfl
  · intro hdead
    cases hslot : s.inFlight with
    | none => rfl
    | some n =>
      have hlt : n < s.attempts.length := (hi.last n hslot) ▸ Nat.lt_succ_self n
      have hmem : s.attempts[n] ∈ s.attempts := List.getElem_mem hlt
      have hp : s.phase? n = some s.attempts[n].phase := by
        unfold phase?
        rw [List.getElem?_eq_getElem hlt]
        rfl
      rcases hi.flying n _ hslot hp with h | h
      · exact absurd h (by simp [(hr _ hmem).1])
      · exact absurd h (by simp [hdead _ hmem])

/-- **The refresh is never wedged as long as every fetch task runs to its last lines**; after one
that did not, no fetch is ever started again. -/
theorem never_wedged_iff (now : ℕ) :
    (∀ s : State κ ε, Reach step Completes (init now) s → Rested s → Refetches s) ∧
    ∀ s : State κ ε, Reach step (fun _ _ => True) (init now) s → Rested s →
      (Refetches s ↔ ∀ a ∈ s.attempts, a.phase.dead = false) := by
  constructor
  · intro s h hr
    refine ((inv_reach h).flight.refetches hr).mpr fun a ha => ?_
    obtain ⟨n, hn⟩ := phase?_of_mem ha
    exact alive_reach h n _ hn
  · intro s h hr
    exact (inv_reach h).flight.refetches hr

/-- A resting issuer after one fetch that ended and one that failed. -/
theorem never_wedged_iff_resting : ∃ s : State ℕ String,
    Reach step Completes (init 0) s ∧ Rested s ∧ s.attempts.length = 2 ∧ Refetches s := by
  obtain ⟨s, h, hs⟩ := exec_check (step (κ := ℕ) (ε := String)) Completes
    [.verify 0 "k", .refresh 0, .fetched 0 (.error "down"), .finish 0, .tick minRefresh,
      .verify 1 "k", .refresh 1, .fetched 1 (.ok fun _ => some 7), .store 1, .finish 1,
      .tick minRefresh] (init 0) (fun s => Rested s ∧ s.attempts.length = 2) (by decide +kernel)
  exact ⟨s, h, hs.1, hs.2, (never_wedged_iff 0).1 s h hs.1⟩

/-- The task of the first fetch panics: the slot keeps it, and no fetch is ever started again. -/
theorem dead_task_wedges_refresh :
    ¬ ∀ s : State ℕ String, Reach step (fun _ _ => True) (init 0) s → Rested s → Refetches s := by
  intro hall
  obtain ⟨s, h, hr, hn⟩ := exec_check (step (κ := ℕ) (ε := String)) (fun _ _ => True)
    [.verify 0 "k", .refresh 0, .abort 0, .wake 0, .tick minRefresh, .verify 1 "k"] (init 0)
    (fun s => Rested s ∧ ¬ Refetches s) (by decide +kernel)
  exact hn (hall s h hr)

end State

end Garret.Jwks
