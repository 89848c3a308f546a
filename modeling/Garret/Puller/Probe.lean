import Garret.Lib.Tasks
import Mathlib.Data.List.Basic

/-!
# The deep readiness probe

Model of `cached_probe` and its callers (`ready_deep`, `crates/garret-puller/src/main.rs`) in one
process. Instants are nanoseconds.

* A task is one call, and the probe it spawned if it had to: the probe goes on by itself, so its
  caller may be gone before it ends.
* The cache is behind a lock that the caller hands on to its probe. Between the lock and the spawn,
  or the answer from the cache, there is no await: that is one step.
* What a probe does is the outside's: whether it gets as far as its S3 read, when it ends and with
  what, or that it panics. When a read was sent is kept (`reads`), for the proofs only.

`probes_in_window`: however many callers there are, come and go, no window of `READ_PROBE_TTL` holds
two S3 reads. `probe_single`: one probe at a time, and the lock is never left to nobody.
-/

namespace Garret.Probe

open Garret.Lib

/-- `READ_PROBE_TTL`: 30 s. -/
def readProbeTtl : ℕ := 30 * 1000000000

/-- What a probe found: `Ok(())` or why the read path fails. -/
inductive Outcome where
  | ok
  | failed (message : String)
  deriving DecidableEq, Repr

/-- The cache and its lock. -/
structure World where
  clock : ℕ
  /-- The last answer, and when it was taken. -/
  cache : Option (ℕ × Outcome)
  locked : Bool
  /-- When S3 reads were sent, the newest first. -/
  reads : List ℕ
  deriving DecidableEq, Repr

/-- A Puller that has just started. -/
def World.boot (clock : ℕ) : World := ⟨clock, none, false, []⟩

/-- The answer in the cache, while it is young. -/
def World.fresh (w : World) : Option Outcome :=
  w.cache.bind fun (at', outcome) => if w.clock - at' < readProbeTtl then some outcome else none

/-- The probe's last lines: the answer is cached and the lock goes. -/
def World.store (w : World) (outcome : Outcome) : World :=
  { w with cache := some (w.clock, outcome), locked := false }

/-- Where a call and its probe stand. `caller` is whether the call still waits for it. -/
inductive Stage where
  /-- Queued for the lock. -/
  | waiting
  /-- The probe runs, and has sent no read. -/
  | probing (caller : Bool)
  /-- The probe waits for S3. -/
  | reading (caller : Bool)
  /-- The probe has ended, its caller is not yet awake. -/
  | joining (outcome : Outcome)
  /-- `none` when the caller is gone. -/
  | ended (answer : Option Outcome)
  deriving DecidableEq, Repr

/-- What happens in a step. -/
inductive Choice where
  | go
  /-- The handler is dropped. -/
  | drop
  /-- The probe sends its S3 read. -/
  | read
  | finish (outcome : Outcome)
  /-- The probe panics; the join error says how. -/
  | panic (error : String)
  deriving DecidableEq, Repr

namespace Stage

/-- The probe runs. -/
def active : Stage → Bool
  | probing _ => true
  | reading _ => true
  | _ => false

/-- The call after its probe: it has still to wake, if it is there. -/
def after (caller : Bool) (outcome : Outcome) : Stage :=
  if caller then joining outcome else ended none

/-- One step of a call or of its probe. -/
def step (w : World) : Choice → Stage → Option (World × Stage)
  | .go, waiting =>
    if w.locked then none
    else
      match w.fresh with
      | some outcome => some (w, ended (some outcome))
      | none => some ({ w with locked := true }, probing true)
  | .drop, waiting => some (w, ended none)
  | .drop, probing true => some (w, probing false)
  | .drop, reading true => some (w, reading false)
  | .read, probing caller => some ({ w with reads := w.clock :: w.reads }, reading caller)
  | .finish outcome, probing caller => some (w.store outcome, after caller outcome)
  | .finish outcome, reading caller => some (w.store outcome, after caller outcome)
  | .panic e, probing caller =>
    some ({ w with locked := false }, after caller (.failed ("probe task failed: " ++ e)))
  | .panic e, reading caller =>
    some ({ w with locked := false }, after caller (.failed ("probe task failed: " ++ e)))
  | .go, joining outcome => some (w, ended (some outcome))
  | .drop, joining _ => some (w, ended none)
  | _, _ => none

end Stage

/-- The route's callers. A restarted Puller has no cache. -/
def program : Program World Stage Choice ℕ where
  initial t := decide (t = .waiting)
  run _ w c t := t.step w c
  outside w n := some { w with clock := w.clock + n }
  restart w _ := .boot w.clock

/-- The states of the route. -/
abbrev State := Tasks World Stage

/-- Its actions. -/
abbrev Act := Tasks.Act Stage Choice ℕ

/-! ## The steps -/

/-- What a step does, by where it stands with the lock. -/
inductive Stepped (w : World) : Choice → Stage → World → Stage → Prop
  /-- The lock and what it guards are left alone. -/
  | aside {c : Choice} {t t' : Stage} (hact : t'.active = t.active)
    (hread : ∀ caller, t' = .probing caller → ∃ caller', t = .probing caller') :
    Stepped w c t w t'
  | locks (hfree : w.locked = false) (hold : w.fresh = none) :
    Stepped w .go .waiting { w with locked := true } (.probing true)
  | reads {caller : Bool} :
    Stepped w .read (.probing caller) { w with reads := w.clock :: w.reads } (.reading caller)
  | finished {outcome : Outcome} {t t' : Stage} (ht : t.active = true) (ht' : t'.active = false) :
    Stepped w (.finish outcome) t (w.store outcome) t'
  | panicked {e : String} {t t' : Stage} (ht : t.active = true) (ht' : t'.active = false) :
    Stepped w (.panic e) t { w with locked := false } t'

theorem active_after (caller : Bool) (outcome : Outcome) :
    (Stage.after caller outcome).active = false := by
  cases caller <;> rfl

theorem step_cases {w w' : World} {c : Choice} {t t' : Stage} (h : t.step w c = some (w', t')) :
    Stepped w c t w' t' := by
  unfold Stage.step at h
  split at h
  -- the lock is free, or the call waits on
  · split at h
    · exact absurd h (by simp)
    · rename_i hfree
      split at h
      · obtain ⟨rfl, rfl⟩ := Prod.mk.inj (Option.some.inj h)
        exact .aside rfl fun _ hc => absurd hc (by simp)
      · rename_i hold
        obtain ⟨rfl, rfl⟩ := Prod.mk.inj (Option.some.inj h)
        exact .locks (Bool.eq_false_of_not_eq_true hfree) hold
  -- the handler is dropped
  · obtain ⟨rfl, rfl⟩ := Prod.mk.inj (Option.some.inj h)
    exact .aside rfl fun _ hc => absurd hc (by simp)
  · obtain ⟨rfl, rfl⟩ := Prod.mk.inj (Option.some.inj h)
    exact .aside rfl fun _ _ => ⟨true, rfl⟩
  · obtain ⟨rfl, rfl⟩ := Prod.mk.inj (Option.some.inj h)
    exact .aside rfl fun _ hc => absurd hc (by simp)
  -- the probe
  · obtain ⟨rfl, rfl⟩ := Prod.mk.inj (Option.some.inj h)
    exact .reads
  · obtain ⟨rfl, rfl⟩ := Prod.mk.inj (Option.some.inj h)
    exact .finished rfl (active_after _ _)
  · obtain ⟨rfl, rfl⟩ := Prod.mk.inj (Option.some.inj h)
    exact .finished rfl (active_after _ _)
  · obtain ⟨rfl, rfl⟩ := Prod.mk.inj (Option.some.inj h)
    exact .panicked rfl (active_after _ _)
  · obtain ⟨rfl, rfl⟩ := Prod.mk.inj (Option.some.inj h)
    exact .panicked rfl (active_after _ _)
  -- the caller wakes, or is gone
  · obtain ⟨rfl, rfl⟩ := Prod.mk.inj (Option.some.inj h)
    exact .aside rfl fun _ hc => absurd hc (by simp)
  · obtain ⟨rfl, rfl⟩ := Prod.mk.inj (Option.some.inj h)
    exact .aside rfl fun _ hc => absurd hc (by simp)
  · exact absurd h (by simp)

/-! ## One probe at a time -/

/-- Nobody but a running probe keeps the lock. -/
def Held (s : State) : Prop :=
  s.shared.locked = true → ∃ i t, s.task? i = some t ∧ t.active = true

/-- A running probe has the lock. -/
def Locks (_ : ℕ) (w : World) (t : Stage) : Prop := t.active = true → w.locked = true

/-- Not both of two probes run. -/
def Apart (t u : Stage) : Prop := t.active = true → u.active = true → False

theorem held_put {s : State} {i : ℕ} {w' : World} {t t' : Stage} (hs : Held s)
    (ht : s.task? i = some t) (hlock : w'.locked = s.shared.locked) (hact : t'.active = t.active) :
    Held (s.put i (w', t')) := by
  intro hl
  obtain ⟨j, u, hu, hact'⟩ := hs (hlock ▸ hl)
  by_cases hj : j = i
  · refine ⟨i, t', by rw [Tasks.task?_put, if_pos rfl], ?_⟩
    rw [hj, ht] at hu
    rw [hact, Option.some.inj hu, hact']
  · exact ⟨j, u, by rw [Tasks.task?_put, if_neg hj, hu], hact'⟩

theorem keeps_single (ok : State → Act → Prop) : program.Keeps ok Held Locks Apart where
  spawn {s i t} _ hi hnone hinit := by
    obtain rfl := of_decide_eq_true hinit
    refine ⟨fun hl => ?_, fun h => absurd h (by decide)⟩
    obtain ⟨j, u, hu, hact⟩ := hi.whole hl
    have hj : j ≠ i := by
      rintro rfl
      exact absurd (hnone.symm.trans hu) (by simp)
    exact ⟨j, u, by rw [Tasks.task?_put, if_neg hj, hu], hact⟩
  spawnPair _ _ hinit _ := by
    obtain rfl := of_decide_eq_true hinit
    exact ⟨fun h => absurd h (by decide), fun _ h => absurd h (by decide)⟩
  self {s i o t w' t'} _ hi ht h := by
    have hlock := hi.task i t ht
    cases step_cases h with
    | aside hact =>
      exact ⟨held_put hi.whole ht rfl hact, fun h' => hlock (hact ▸ h')⟩
    | locks =>
      exact ⟨fun _ => ⟨i, _, by rw [Tasks.task?_put, if_pos rfl], rfl⟩, fun _ => rfl⟩
    | reads => exact ⟨held_put hi.whole ht rfl rfl, fun _ => hlock rfl⟩
    | finished _ ht' =>
      exact ⟨fun hl => (Bool.false_ne_true hl).elim, fun h' => absurd (ht'.symm.trans h') (by simp)⟩
    | panicked _ ht' =>
      exact ⟨fun hl => (Bool.false_ne_true hl).elim, fun h' => absurd (ht'.symm.trans h') (by simp)⟩
  other {s i o t w' t' j u} _ hi ht h hj hu := by
    have hpair := hi.pair i j t u (Ne.symm hj) ht hu
    have hlock := hi.task j u hu
    cases step_cases h with
    | aside hact =>
      exact ⟨hlock, fun h' => hpair (hact ▸ h'), fun h' h'' => hpair (hact ▸ h'') h'⟩
    | locks hfree =>
      have hidle : u.active = true → False := fun h' =>
        absurd (hfree.symm.trans (hlock h')) (by decide)
      exact ⟨fun _ => rfl, fun _ h' => hidle h', fun h' _ => hidle h'⟩
    | reads => exact ⟨hlock, fun _ => hpair rfl, fun h' _ => hpair rfl h'⟩
    | finished hact ht' =>
      exact ⟨fun h' => (hpair hact h').elim, fun h' => absurd (ht'.symm.trans h') (by decide),
        fun _ h' => absurd (ht'.symm.trans h') (by decide)⟩
    | panicked hact ht' =>
      exact ⟨fun h' => (hpair hact h').elim, fun h' => absurd (ht'.symm.trans h') (by decide),
        fun _ h' => absurd (ht'.symm.trans h') (by decide)⟩
  outside {s e w'} _ hi h := by
    obtain rfl := Option.some.inj h
    exact ⟨hi.whole, fun i t ht => hi.task i t ht⟩
  restart _ _ := fun hl => (Bool.false_ne_true hl).elim

theorem held_boot (clock : ℕ) : Held (.boot (.boot clock)) := fun hl => (Bool.false_ne_true hl).elim

/-- **One probe at a time, and the lock is never left to nobody.** In every run, with callers that go
away and probes that panic: no two probes run, the lock is held exactly while one does, and that one
can end with any answer by itself, which caches it and frees the lock. -/
theorem probe_single {clock : ℕ} {s : State}
    (h : Reach program.step (fun _ _ => True) (.boot (.boot clock)) s) :
    (∀ i j t u, s.task? i = some t → s.task? j = some u → t.active = true → u.active = true →
      i = j) ∧
    (s.shared.locked = true ↔ ∃ i t, s.task? i = some t ∧ t.active = true) ∧
    ∀ i t outcome, s.task? i = some t → t.active = true →
      ∃ t', program.step s (.step i (.finish outcome)) =
        some (s.put i (s.shared.store outcome, t')) := by
  have hI := (keeps_single fun _ _ => True).reach h (.boot (held_boot clock))
  refine ⟨fun i j t u ht hu hta hua => ?_, ⟨hI.whole, fun ⟨i, t, ht, hact⟩ => hI.task i t ht hact⟩,
    fun i t outcome ht hact => ?_⟩
  · by_contra hij
    exact hI.pair i j t u hij ht hu hta hua
  · cases t with
    | probing caller =>
      exact ⟨Stage.after caller outcome, by simp only [Program.step, ht, Option.bind_some]; rfl⟩
    | reading caller =>
      exact ⟨Stage.after caller outcome, by simp only [Program.step, ht, Option.bind_some]; rfl⟩
    | _ => exact absurd hact (by simp [Stage.active])

namespace Sample

/-- A caller that goes away after it has spawned a probe, and one that queues behind it. -/
def queue : List Act :=
  [.spawn 0 .waiting, .step 0 .go, .spawn 1 .waiting, .step 0 .drop]

end Sample

/-- The probe of a caller that is gone still ends and frees the lock. -/
theorem probe_single_dropped : ∃ s,
    Reach program.step (fun _ _ => True) (.boot (.boot 0)) s ∧
    s.task? 0 = some (.probing false) ∧ s.task? 1 = some .waiting ∧
    (∃ t', program.step s (.step 0 (.finish .ok)) = some (s.put 0 (s.shared.store .ok, t'))) := by
  obtain ⟨s, hrun, h₀, h₁⟩ := exec_check program.step (fun _ _ => True) Sample.queue
    (.boot (.boot 0)) (fun s => s.task? 0 = some (.probing false) ∧ s.task? 1 = some .waiting)
    (by decide +kernel)
  exact ⟨s, hrun, h₀, h₁, (probe_single hrun).2.2 0 _ .ok h₀ rfl⟩

/-! ## One read in a window -/

/-- No probe panics. -/
def Steady (_ : State) : Act → Prop
  | .step _ (.panic _) => False
  | _ => True

instance (s : State) : ∀ a : Act, Decidable (Steady s a)
  | .step _ (.panic _) => .isFalse id
  | .step _ .go => .isTrue trivial
  | .step _ .drop => .isTrue trivial
  | .step _ .read => .isTrue trivial
  | .step _ (.finish _) => .isTrue trivial
  | .spawn _ _ => .isTrue trivial
  | .outside _ => .isTrue trivial
  | .crash _ => .isTrue trivial

/-- The reads so far, against the clock and the cache. -/
structure Spaced (s : State) : Prop where
  held : Held s
  apart : s.shared.reads.Pairwise fun r r' => r' + readProbeTtl ≤ r
  past : ∀ r ∈ s.shared.reads, r ≤ s.shared.clock
  /-- While no probe runs, the answer in the cache is younger than every read. -/
  cached : s.shared.locked = false →
    ∀ r ∈ s.shared.reads, ∃ at' outcome, s.shared.cache = some (at', outcome) ∧ r ≤ at'

/-- A probe that has not read yet may read. -/
structure Ready (i : ℕ) (w : World) (t : Stage) : Prop where
  locks : Locks i w t
  due : ∀ caller, t = .probing caller → ∀ r ∈ w.reads, r + readProbeTtl ≤ w.clock

/-- An answer that is not young lies a window back. -/
theorem due_of_stale {w : World} (hold : w.fresh = none)
    (hc : ∀ r ∈ w.reads, ∃ at' outcome, w.cache = some (at', outcome) ∧ r ≤ at') :
    ∀ r ∈ w.reads, r + readProbeTtl ≤ w.clock := by
  intro r hr
  obtain ⟨at', outcome, hcache, hle⟩ := hc r hr
  have hage : ¬w.clock - at' < readProbeTtl := by
    intro hlt
    simp only [World.fresh, hcache, Option.bind_some, if_pos hlt] at hold
    exact absurd hold (by simp)
  have hpos : 0 < readProbeTtl := by decide
  omega

theorem keeps_spaced : program.Keeps Steady Spaced Ready Apart where
  spawn {s i t} hok hi hnone hinit := by
    have hk := (keeps_single Steady).spawn hok
      ⟨hi.whole.held, fun j u hu => (hi.task j u hu).locks, hi.pair⟩ hnone hinit
    obtain rfl := of_decide_eq_true hinit
    exact ⟨⟨hk.1, hi.whole.apart, hi.whole.past, hi.whole.cached⟩, hk.2,
      fun _ hc => absurd hc (by simp)⟩
  spawnPair hok hi hinit hu :=
    (keeps_single Steady).spawnPair hok
      ⟨hi.whole.held, fun j u hu => (hi.task j u hu).locks, hi.pair⟩ hinit hu
  self {s i o t w' t'} hok hi ht h := by
    have hk := (keeps_single Steady).self hok
      ⟨hi.whole.held, fun j u hu => (hi.task j u hu).locks, hi.pair⟩ ht h
    have hw := hi.whole
    have hready := hi.task i t ht
    cases step_cases h with
    | aside _ hread =>
      refine ⟨⟨hk.1, hw.apart, hw.past, hw.cached⟩, hk.2, fun caller hc => ?_⟩
      obtain ⟨caller', hc'⟩ := hread caller hc
      exact hready.due caller' hc'
    | locks hfree hold =>
      exact ⟨⟨hk.1, hw.apart, hw.past, fun hl => (Bool.false_ne_true hl.symm).elim⟩, hk.2,
        fun _ _ => due_of_stale hold (hw.cached hfree)⟩
    | @reads caller =>
      have hlock : s.shared.locked = true := hready.locks rfl
      refine ⟨⟨hk.1, List.pairwise_cons.mpr ⟨hready.due caller rfl, hw.apart⟩, fun r hr => ?_,
        fun hl => absurd (hlock.symm.trans hl) (by simp)⟩, hk.2, fun _ hc => absurd hc (by simp)⟩
      rcases List.mem_cons.mp hr with rfl | hr
      · exact Nat.le_refl _
      · exact hw.past r hr
    | finished _ ht' =>
      refine ⟨⟨hk.1, hw.apart, hw.past, fun _ r hr => ⟨_, _, rfl, hw.past r hr⟩⟩, hk.2,
        fun caller hc => ?_⟩
      rw [hc] at ht'
      exact absurd ht' (by simp [Stage.active])
    | panicked => exact hok.elim
  other {s i o t w' t' j u} hok hi ht h hj hu := by
    have hk := (keeps_single Steady).other hok
      ⟨hi.whole.held, fun j u hu => (hi.task j u hu).locks, hi.pair⟩ ht h hj hu
    have hready := hi.task j u hu
    have hpair := hi.pair i j t u (Ne.symm hj) ht hu
    refine ⟨⟨hk.1, fun caller hc => ?_⟩, hk.2⟩
    cases step_cases h with
    | aside => exact hready.due caller hc
    | locks => exact hready.due caller hc
    | reads => exact (hpair rfl (by rw [hc]; rfl)).elim
    | finished => exact hready.due caller hc
    | panicked => exact hready.due caller hc
  outside {s e w'} hok hi h := by
    obtain rfl := Option.some.inj h
    have hw := hi.whole
    refine ⟨⟨hw.held, hw.apart, fun r hr => Nat.le_add_right_of_le (hw.past r hr), hw.cached⟩,
      fun i t ht => ⟨(hi.task i t ht).locks, fun caller hc r hr => ?_⟩⟩
    exact Nat.le_add_right_of_le ((hi.task i t ht).due caller hc r hr)
  restart _ _ := ⟨held_boot _, List.Pairwise.nil,
    fun _ h => absurd h (by simp [World.boot, program]), fun _ _ h => absurd h (by simp [World.boot, program])⟩

/-- Instants a window apart: no window has two. -/
theorem window_le_one {n : ℕ} {l : List ℕ} (h : l.Pairwise fun r r' => r' + n ≤ r) (t : ℕ) :
    (l.filter fun r => t ≤ r && r < t + n).length ≤ 1 := by
  have hf := h.sublist (List.filter_sublist (p := fun r => t ≤ r && r < t + n))
  have hmem : ∀ r ∈ l.filter (fun r => t ≤ r && r < t + n), t ≤ r ∧ r < t + n := fun r hr => by
    simpa using (List.mem_filter.mp hr).2
  generalize l.filter (fun r => t ≤ r && r < t + n) = m at hf hmem
  rcases m with _ | ⟨a, _ | ⟨b, m⟩⟩
  · exact Nat.zero_le _
  · exact Nat.le_refl _
  · have hab := (List.pairwise_cons.mp hf).1 b (by simp)
    have ha := hmem a (by simp)
    have hb := hmem b (by simp)
    omega

/-- **At most one S3 read in a window**: however many callers of a process there are, come and go, no
30 seconds hold two reads of the probe, as long as no probe panics. -/
theorem probes_in_window {clock : ℕ} {s : State}
    (h : Reach program.step Steady (.boot (.boot clock)) s) (t : ℕ) :
    (s.shared.reads.filter fun r => t ≤ r && r < t + readProbeTtl).length ≤ 1 := by
  have hI := keeps_spaced.reach h (.boot ⟨held_boot clock, List.Pairwise.nil,
    fun _ h => absurd h (by simp [World.boot]), fun _ _ h => absurd h (by simp [World.boot])⟩)
  exact window_le_one hI.whole.apart t

namespace Sample

/-- Three callers, the first of them gone early: the second is answered from the cache, the third by
a new probe. -/
def calls : List Act :=
  queue ++ [.step 0 .read, .step 0 (.finish .ok), .outside (readProbeTtl - 1), .step 1 .go,
    .outside 1, .spawn 2 .waiting, .step 2 .go, .step 2 .read, .step 2 (.finish .ok)]

end Sample

/-- Two reads, a window apart; a call in between is answered without one. -/
theorem probes_in_window_cached : ∃ s,
    Reach program.step Steady (.boot (.boot 0)) s ∧ s.shared.reads = [readProbeTtl, 0] ∧
    s.task? 1 = some (.ended (some .ok)) ∧
    (s.shared.reads.filter fun r => 0 ≤ r && r < 0 + readProbeTtl).length ≤ 1 := by
  obtain ⟨s, hrun, hreads, h₁⟩ := exec_check program.step Steady Sample.calls (.boot (.boot 0))
    (fun s => s.shared.reads = [readProbeTtl, 0] ∧ s.task? 1 = some (.ended (some .ok)))
    (by decide +kernel)
  exact ⟨s, hrun, hreads, h₁, probes_in_window hrun 0⟩

end Garret.Probe
