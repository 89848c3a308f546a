import Garret.Puller.Route

/-!
# Pulls in time

What holds of the two pull routes over whole runs, whatever hangs, panics, is dropped or is
committed meanwhile. `Sound` is what is so of one request and its read, by where they are; that the
lock is kept by one thread at a time is of the requests together (`keeps_single`); `Prompt` is the
part that rests on the runtime.

`reads_in_time`: one read at a time, none once its request has been answered. `answers_true`: what
is answered was so while the request ran. `answered_in_time`: a request is answered within its
budgets.
-/

namespace Garret.PullRoute

open Garret.Lib

variable {c : Config}

/-! ## One read at a time -/

/-- The thread of the request has the lock. -/
def Request.working (r : Request) : Bool := r.dbRead.any fun q => q.thread.working

/-- The lock is kept by the probe or by a thread. -/
structure Held (s : State) : Prop where
  owned : s.shared.locked = true →
    s.shared.probe = true ∨ ∃ i r, s.task? i = some r ∧ r.working = true
  probe : s.shared.probe = true → s.shared.locked = true

/-- A thread that works has the lock, and there is none before the request began. -/
structure Locks (w : World) (r : Request) : Prop where
  fresh : r.phase = .arrived → r.dbRead = none
  locked : r.working = true → w.locked = true ∧ w.probe = false

/-- Not both of two threads work. -/
def Apart (r u : Request) : Prop := r.working = true → u.working = true → False

theorem resume_dbRead (r : Request) (w : World) (read : Read) :
    (r.resume c w read).dbRead = r.dbRead := by
  cases read <;> rfl

theorem resume_phase_ne (r : Request) (w : World) (read : Read) :
    (r.resume c w read).phase ≠ .arrived := by
  cases read <;> exact Phase.noConfusion

/-- The request itself leaves its thread alone, once there is one. -/
theorem handled_dbRead {r r' : Request} {w : World} {m : Move} (h : Handled c r w m r') :
    r'.dbRead = r.dbRead ∨
    (r.phase = .arrived ∧ r'.dbRead = some ⟨w.clock, w.past.length, .queued⟩) := by
  cases h with
  | spawned hp => exact Or.inr ⟨hp, rfl⟩
  | woken => exact Or.inl (resume_dbRead _ _ _)
  | _ => exact Or.inl rfl

theorem handled_phase_ne {r r' : Request} {w : World} {m : Move} (h : Handled c r w m r') :
    r'.phase ≠ .arrived := by
  cases h with
  | woken => exact resume_phase_ne _ _ _
  | _ => exact Phase.noConfusion

theorem handled_working {r r' : Request} {w w₀ : World} {m : Move} (hl : Locks w₀ r)
    (h : Handled c r w m r') : r'.working = r.working := by
  unfold Request.working
  rcases handled_dbRead h with he | ⟨hp, he⟩
  · rw [he]
  · rw [he, hl.fresh hp]
    rfl

theorem working_of_dbRead {r : Request} {q : DbRead} (h : r.dbRead = some q) :
    r.working = q.thread.working := by
  unfold Request.working
  rw [h]
  rfl

/-- What a step does to the lock, and to whom it belongs. -/
inductive Turn (w : World) (r : Request) (w' : World) (r' : Request) : Prop
  | aside (hw : w'.locked = w.locked ∧ w'.probe = w.probe) (hr : r'.working = r.working)
  | takes (hfree : w.locked = false) (hw : w'.locked = true ∧ w'.probe = w.probe)
    (hr : r'.working = true)
  | frees (hr : r.working = true) (hw : w'.locked = false ∧ w'.probe = w.probe)
    (hr' : r'.working = false)

theorem step_turn {w w' : World} {o : Choice} {r r' : Request} (hl : Locks w r)
    (h : r.step c w o = some (w', r')) : Turn w r w' r' := by
  rcases step_cases h with ⟨m, -, rfl, hm⟩ | ⟨k, q, hash, t, -, hq, -, rfl, hk⟩
  · exact .aside ⟨rfl, rfl⟩ (handled_working hl hm)
  · have hr := working_of_dbRead hq
    cases hk with
    | abandoned hqueued =>
      refine .aside ⟨rfl, rfl⟩ ?_
      rw [hr, hqueued]
      rfl
    | begun _ hfree => exact .takes hfree ⟨rfl, rfl⟩ rfl
    | row hrow =>
      refine .aside ⟨rfl, rfl⟩ ?_
      rw [hr, hrow]
      rfl
    | ended hwork => exact .frees (hr.trans hwork) ⟨rfl, rfl⟩ rfl

theorem step_fresh {w w' : World} {o : Choice} {r r' : Request} (hl : Locks w r)
    (h : r.step c w o = some (w', r')) : r'.phase = .arrived → r'.dbRead = none := by
  rcases step_cases h with ⟨m, -, -, hm⟩ | ⟨k, q, hash, t, -, hq, -, rfl, -⟩
  · exact fun hp => absurd hp (handled_phase_ne hm)
  · exact fun hp => absurd (hq.symm.trans (hl.fresh hp)) (by simp)

theorem held_put {s : State} {i : ℕ} {w' : World} {r r' : Request} (hs : Held s)
    (ht : s.task? i = some r) (hw : w'.locked = s.shared.locked ∧ w'.probe = s.shared.probe)
    (hr : r'.working = r.working) : Held (s.put i (w', r')) := by
  refine ⟨fun hl => ?_, fun hp => hw.1.trans (hs.probe (hw.2.symm.trans hp))⟩
  rcases hs.owned (hw.1.symm.trans hl) with hp | ⟨j, u, hu, hwork⟩
  · exact Or.inl (hw.2.trans hp)
  · right
    by_cases hj : j = i
    · refine ⟨i, r', by rw [Tasks.task?_put, if_pos rfl], ?_⟩
      rw [hj, ht] at hu
      rw [hr, Option.some.inj hu, hwork]
    · exact ⟨j, u, by rw [Tasks.task?_put, if_neg hj, hu], hwork⟩

theorem initial_iff {r : Request} :
    (program c).initial r = true ↔ r.phase = .arrived ∧ r.dbRead = none := by
  simp [program]

theorem working_initial {r : Request} (h : (program c).initial r = true) : r.working = false := by
  unfold Request.working
  rw [(initial_iff.mp h).2]
  rfl

theorem keeps_single (ok : State → Act → Prop) :
    (program c).Keeps ok Held (fun _ => Locks) Apart where
  spawn {s i r} _ hi hnone hinit := by
    have hidle := working_initial hinit
    refine ⟨⟨fun hl => ?_, hi.whole.probe⟩, fun _ => (initial_iff.mp hinit).2,
      fun hwork => absurd (hidle.symm.trans hwork) (by simp)⟩
    refine (hi.whole.owned hl).imp_right ?_
    rintro ⟨j, u, hu, hwork⟩
    have hj : j ≠ i := by
      rintro rfl
      exact absurd (hnone.symm.trans hu) (by simp)
    exact ⟨j, u, by rw [Tasks.task?_put, if_neg hj, hu], hwork⟩
  spawnPair _ _ hinit _ := by
    have hidle := working_initial hinit
    exact ⟨fun h => absurd (hidle.symm.trans h) (by simp),
      fun _ h => absurd (hidle.symm.trans h) (by simp)⟩
  self {s i o r w' r'} _ hi ht h := by
    have hl := hi.task i r ht
    cases step_turn hl h with
    | aside hw hr =>
      exact ⟨held_put hi.whole ht hw hr, step_fresh hl h, fun hwork =>
        ⟨hw.1.trans (hl.locked (hr ▸ hwork)).1, hw.2.trans (hl.locked (hr ▸ hwork)).2⟩⟩
    | takes hfree hw hr =>
      have hprobe : s.shared.probe = false := Bool.eq_false_iff.mpr fun hp =>
        absurd ((hi.whole.probe hp).symm.trans hfree) (by simp)
      exact ⟨⟨fun _ => Or.inr ⟨i, r', by rw [Tasks.task?_put, if_pos rfl], hr⟩, fun _ => hw.1⟩,
        step_fresh hl h, fun _ => ⟨hw.1, hw.2.trans hprobe⟩⟩
    | frees hwork hw hr' =>
      have hprobe := (hl.locked hwork).2
      exact ⟨⟨fun hlock => absurd (hw.1.symm.trans hlock) (by simp),
        fun hp => absurd ((hw.2.trans hprobe).symm.trans hp) (by simp)⟩,
        step_fresh hl h, fun h' => absurd (hr'.symm.trans h') (by simp)⟩
  other {s i o r w' r' j u} _ hi ht h hj hu := by
    have hpair := hi.pair i j r u (Ne.symm hj) ht hu
    have hlu := hi.task j u hu
    cases step_turn (hi.task i r ht) h with
    | aside hw hr =>
      exact ⟨⟨hlu.fresh, fun hwork =>
          ⟨hw.1.trans (hlu.locked hwork).1, hw.2.trans (hlu.locked hwork).2⟩⟩,
        fun h' => hpair (hr ▸ h'), fun h' h'' => hpair (hr ▸ h'') h'⟩
    | takes hfree =>
      have hidle : u.working = true → False := fun h' =>
        absurd (hfree.symm.trans (hlu.locked h').1) (by simp)
      exact ⟨⟨hlu.fresh, fun h' => (hidle h').elim⟩, fun _ h' => hidle h', fun h' _ => hidle h'⟩
    | frees hwork _ hr' =>
      exact ⟨⟨hlu.fresh, fun h' => (hpair hwork h').elim⟩,
        fun h' => absurd (hr'.symm.trans h') (by simp),
        fun _ h' => absurd (hr'.symm.trans h') (by simp)⟩
  outside {s e w'} _ hi h := by
    have hw := hi.whole
    cases outside_cases h with
    | passed =>
      exact ⟨⟨hw.owned, hw.probe⟩,
        fun i r ht => ⟨(hi.task i r ht).fresh, (hi.task i r ht).locked⟩⟩
    | opened =>
      exact ⟨⟨hw.owned, hw.probe⟩,
        fun i r ht => ⟨(hi.task i r ht).fresh, (hi.task i r ht).locked⟩⟩
    | committed =>
      exact ⟨⟨hw.owned, hw.probe⟩,
        fun i r ht => ⟨(hi.task i r ht).fresh, (hi.task i r ht).locked⟩⟩
    | freed hprobe =>
      -- the probe has the lock, so no thread has it
      exact ⟨⟨fun hl => absurd hl (by simp), fun hp => absurd hp (by simp)⟩,
        fun i r ht => ⟨(hi.task i r ht).fresh, fun hwork =>
          absurd (hprobe.symm.trans ((hi.task i r ht).locked hwork).2) (by simp)⟩⟩
    | taken hfree =>
      exact ⟨⟨fun _ => Or.inl rfl, fun _ => rfl⟩,
        fun i r ht => ⟨(hi.task i r ht).fresh, fun hwork =>
          absurd (hfree.symm.trans ((hi.task i r ht).locked hwork).1) (by simp)⟩⟩
  restart _ _ := ⟨fun hl => absurd hl (by simp [program, World.boot]),
    fun hp => absurd hp (by simp [program, World.boot])⟩

theorem held_boot (clock : ℕ) (db : Db) (past : List Db) :
    Held (.boot (.boot clock db past)) :=
  ⟨fun hl => absurd hl (by simp [World.boot]), fun hp => absurd hp (by simp [World.boot])⟩

/-! ## What a request knows -/

/-- `obj` is put together from a row and from references of `hash` that were in `seen`. -/
def Served (seen : List Db) (hash : String) (obj : Object) : Prop :=
  ∃ row, (∃ d ∈ seen, d.row? hash = some row) ∧
    ∃ d ∈ seen, obj = row.toObject hash (d.references hash)

/-- What a thread has read was in `seen`. -/
def Told (seen : List Db) (route : Route) (hash : String) : Thread → Prop
  | .refs _ row => route = .narinfo ∧ ∃ d ∈ seen, d.row? hash = some row
  | .ended _ (.object obj _) => route = .narinfo ∧ Served seen hash obj
  | .ended _ .present => route = .nar ∧ ∃ d ∈ seen, (d.row? hash).isSome = true
  | .ended _ .missing => ∃ d ∈ seen, d.row? hash = none
  | _ => True

theorem Told.mono {seen seen' : List Db} {route : Route} {hash : String}
    (hsub : ∀ d ∈ seen, d ∈ seen') :
    ∀ {t : Thread}, Told seen route hash t → Told seen' route hash t
  | .queued, _ => trivial
  | .row _, _ => trivial
  | .refs _ _, ⟨hr, d, hd, hrow⟩ => ⟨hr, d, hsub d hd, hrow⟩
  | .ended _ (.object _ _), ⟨hr, row, ⟨d, hd, hrow⟩, d', hd', hobj⟩ =>
    ⟨hr, row, ⟨d, hsub d hd, hrow⟩, d', hsub d' hd', hobj⟩
  | .ended _ .present, ⟨hr, d, hd, hrow⟩ => ⟨hr, d, hsub d hd, hrow⟩
  | .ended _ .missing, ⟨d, hd, hrow⟩ => ⟨d, hsub d hd, hrow⟩
  | .ended _ .failed, _ => trivial

/-- A read under way or over: it began by its deadline, and read what was there. -/
structure DbRead.Sound (c : Config) (w : World) (route : Route) (hash : String) (q : DbRead) :
    Prop where
  start : q.start ≤ w.clock
  base : q.base ≤ w.past.length
  begun : ∀ t, q.thread.begun? = some t → t ≤ w.clock ∧ t ≤ q.start + c.dbReadBudget
  told : Told (w.seen q.base) route hash q.thread

theorem DbRead.Sound.mono {w w' : World} {route : Route} {hash : String} {q : DbRead}
    (h : q.Sound c w route hash) (ha : w.After w') : q.Sound c w' route hash :=
  ⟨h.start.trans ha.clock, h.base.trans ha.past,
    fun t ht => ⟨(h.begun t ht).1.trans ha.clock, (h.begun t ht).2⟩, h.told.mono (ha.seen _)⟩

theorem DbRead.Sound.work {w w' : World} {route : Route} {hash : String} {q : DbRead} {k : Work}
    {t : Thread} (h : q.Sound c w route hash) (hk : Worked c route hash q w k w' t) :
    DbRead.Sound c w' route hash { q with thread := t } := by
  refine DbRead.Sound.mono (w := w) ?_ (work_after hk)
  have hself := mem_seen_self h.base
  obtain ⟨hstart, hbase, hbegun, htold⟩ := h
  cases hk with
  | abandoned => exact ⟨hstart, hbase, fun _ ht => absurd ht (by simp [Thread.begun?]), trivial⟩
  | begun _ _ hdue =>
    refine ⟨hstart, hbase, fun t ht => ?_, trivial⟩
    obtain rfl := Option.some.inj ht
    exact ⟨Nat.le_refl _, hdue⟩
  | row hq hr hrow =>
    rw [hq] at hbegun
    exact ⟨hstart, hbase, hbegun, hr, _, hself, hrow⟩
  | ended hwork hret =>
    refine ⟨hstart, hbase, hbegun, ?_⟩
    generalize q.thread = thread at hret htold
    cases hret with
    | failed => trivial
    | missing hrow => exact ⟨_, hself, hrow⟩
    | present hrow hr => exact ⟨hr, _, hself, by rw [hrow]; rfl⟩
    | object =>
      obtain ⟨hr, d, hd, hrow⟩ := htold
      exact ⟨hr, _, ⟨d, hd, hrow⟩, _, hself, rfl⟩

/-- Why an outcome, for a request answered at `at'`. -/
inductive Comes (c : Config) (r : Request) (w : World) (at' : ℕ) : Outcome → Prop
  | junk (hh : r.hash = none) : Comes c r w at' .junk
  | unavailable {hash : String} (hh : r.hash = some hash)
    (ho : ∀ t, w.openedAt = some t → at' ≤ t) : Comes c r w at' .unavailable
  | narinfo {q : DbRead} {begun : Option ℕ} {obj : Object} {lastAccessedAt : Int}
    (hq : r.dbRead = some q) (hover : q.thread = .ended begun (.object obj lastAccessedAt)) :
    Comes c r w at' (.hit (.narinfo (render obj)))
  | redirect {q : DbRead} {begun : Option ℕ} {hash url : String} {n : ℕ} (hq : r.dbRead = some q)
    (hover : q.thread = .ended begun .present) (hh : r.hash = some hash)
    (hu : c.presignedGet (keyFor hash) n = some url) : Comes c r w at' (.hit (.redirect url))
  | miss {q : DbRead} {begun : Option ℕ} (hq : r.dbRead = some q)
    (hover : q.thread = .ended begun .missing) : Comes c r w at' .miss
  | timedOut {q : DbRead} (hq : r.dbRead = some q) (hle : q.start + c.dbReadBudget ≤ at') :
    Comes c r w at' (.degraded .dbTimeout)
  | degraded {q : DbRead} {why : Degraded} (hq : r.dbRead = some q) (hne : why ≠ .dbTimeout) :
    Comes c r w at' (.degraded why)

/-- The read of a request answered at `at'` had begun by then, or will not. -/
structure DbRead.Closed (c : Config) (q : DbRead) (at' : ℕ) : Prop where
  begun : ∀ t, q.thread.begun? = some t → t ≤ at'
  queued : q.thread = .queued → q.start + c.dbReadBudget ≤ at'

/-- What is so of a request that was answered. -/
structure Request.Settled (c : Config) (r : Request) (w : World) (at' : ℕ) (o : Outcome) :
    Prop where
  clock : at' ≤ w.clock
  closed : ∀ q, r.dbRead = some q → q.Closed c at'
  comes : Comes c r w at' o

/-- What is so of a request, by where it is. -/
structure Request.Sound (c : Config) (w : World) (r : Request) : Prop where
  fresh : r.phase = .arrived → r.dbRead = none
  spawned : r.phase = .spawned → ∃ q, r.dbRead = some q
  waiting : ∀ due, r.phase = .waiting due →
    ∃ q, r.dbRead = some q ∧ q.start + c.dbReadBudget ≤ due
  presigning : ∀ due, r.phase = .presigning due →
    ∃ q begun, r.dbRead = some q ∧ q.thread = .ended begun .present
  read : ∀ q, r.dbRead = some q → ∃ hash, r.hash = some hash ∧ q.Sound c w r.route hash
  answered : ∀ at' o, r.phase = .answered at' o → r.Settled c w at' o

theorem Comes.mono {r : Request} {w w' : World} {at' : ℕ} {o : Outcome} (h : Comes c r w at' o)
    (hat : at' ≤ w.clock) (ha : w.After w') : Comes c r w' at' o := by
  cases h with
  | junk hh => exact .junk hh
  | unavailable hh ho =>
    exact .unavailable hh fun t ht => (ha.opened t ht).elim (ho t) (fun hle => hat.trans hle)
  | narinfo hq hover => exact .narinfo hq hover
  | redirect hq hover hh hu => exact .redirect hq hover hh hu
  | miss hq hover => exact .miss hq hover
  | timedOut hq hle => exact .timedOut hq hle
  | degraded hq hne => exact .degraded hq hne

theorem Request.Sound.mono {w w' : World} {r : Request} (h : r.Sound c w) (ha : w.After w') :
    r.Sound c w' where
  fresh := h.fresh
  spawned := h.spawned
  waiting := h.waiting
  presigning := h.presigning
  read q hq := by
    obtain ⟨hash, hh, hs⟩ := h.read q hq
    exact ⟨hash, hh, hs.mono ha⟩
  answered at' o hp := by
    obtain ⟨hclock, hclosed, hcomes⟩ := h.answered at' o hp
    exact ⟨hclock.trans ha.clock, hclosed, hcomes.mono hclock ha⟩

/-- A read whose request is answered now has begun by now, or has not and is due. -/
theorem DbRead.Sound.closed {w : World} {route : Route} {hash : String} {q : DbRead}
    (h : q.Sound c w route hash) (hdue : q.thread = .queued → q.start + c.dbReadBudget ≤ w.clock) :
    q.Closed c w.clock :=
  ⟨fun t ht => (h.begun t ht).1, hdue⟩

/-- A request that is answered now, for a reason. -/
theorem Request.Sound.answer {w : World} {r : Request} (h : r.Sound c w) {o : Outcome}
    (hdue : ∀ q, r.dbRead = some q → q.thread = .queued → q.start + c.dbReadBudget ≤ w.clock)
    (hcomes : Comes c (r.answer w o) w w.clock o) : (r.answer w o).Sound c w where
  fresh hp := absurd hp (by simp [Request.answer])
  spawned hp := absurd hp (by simp [Request.answer])
  waiting _ hp := absurd hp (by simp [Request.answer])
  presigning _ hp := absurd hp (by simp [Request.answer])
  read := h.read
  answered at' o' hp := by
    obtain ⟨rfl, rfl⟩ := Phase.answered.inj hp
    refine ⟨Nat.le_refl _, fun q hq => ?_, hcomes⟩
    obtain ⟨hash, -, hs⟩ := h.read q hq
    exact hs.closed (hdue q hq)

theorem sound_handled {w : World} {r r' : Request} {m : Move} (h : r.Sound c w)
    (hm : Handled c r w m r') : r'.Sound c w := by
  -- there is no read, or it is over
  have hfresh : r.phase = .arrived → ∀ q, r.dbRead = some q → q.thread = .queued →
      q.start + c.dbReadBudget ≤ w.clock := fun hp q hq =>
    absurd (hq.symm.trans (h.fresh hp)) (by simp)
  have hover : ∀ {q begun read}, r.dbRead = some q → q.thread = .ended begun read →
      ∀ q', r.dbRead = some q' → q'.thread = .queued → q'.start + c.dbReadBudget ≤ w.clock := by
    intro q begun read hq hover q' hq' hqueued
    obtain rfl := Option.some.inj (hq.symm.trans hq')
    exact absurd (hover.symm.trans hqueued) (by simp)
  cases hm with
  | junk hp hh => exact h.answer (hfresh hp) (.junk hh)
  | unavailable hp hh ho =>
    exact h.answer (hfresh hp) (.unavailable hh fun t ht => absurd (ho.symm.trans ht) (by simp))
  | spawned hp hh =>
    refine ⟨fun hp' => absurd hp' (by simp), fun _ => ⟨_, rfl⟩, fun _ hp' => absurd hp' (by simp),
      fun _ hp' => absurd hp' (by simp), fun q hq => ⟨_, hh, ?_⟩,
      fun _ _ hp' => absurd hp' (by simp)⟩
    obtain rfl := Option.some.inj hq
    exact ⟨Nat.le_refl _, Nat.le_refl _, fun _ ht => absurd ht (by simp [Thread.begun?]), trivial⟩
  | armed hp =>
    obtain ⟨q, hq⟩ := h.spawned hp
    obtain ⟨_, _, hs⟩ := h.read q hq
    refine ⟨fun hp' => absurd hp' (by simp), fun hp' => absurd hp' (by simp), fun due hp' => ?_,
      fun _ hp' => absurd hp' (by simp), h.read, fun _ _ hp' => absurd hp' (by simp)⟩
    obtain rfl := Phase.waiting.inj hp'
    exact ⟨q, hq, Nat.add_le_add_right hs.start _⟩
  | @woken due q begun read hp hq hthread =>
    cases read with
    | object obj lastAccessedAt => exact h.answer (hover hq hthread) (.narinfo hq hthread)
    | present =>
      exact ⟨fun hp' => absurd hp' (by simp [Request.resume]),
        fun hp' => absurd hp' (by simp [Request.resume]),
        fun _ hp' => absurd hp' (by simp [Request.resume]), fun _ _ => ⟨q, begun, hq, hthread⟩,
        h.read,
        fun _ _ hp' => absurd hp' (by simp [Request.resume])⟩
    | missing => exact h.answer (hover hq hthread) (.miss hq hthread)
    | failed => exact h.answer (hover hq hthread) (.degraded hq (by decide))
  | expired hp hdue =>
    obtain ⟨q, hq, hle⟩ := h.waiting _ hp
    refine h.answer (fun q' hq' _ => ?_) (.timedOut hq (hle.trans hdue))
    obtain rfl := Option.some.inj (hq.symm.trans hq')
    exact hle.trans hdue
  | presignExpired hp =>
    obtain ⟨q, begun, hq, hthread⟩ := h.presigning _ hp
    exact h.answer (hover hq hthread) (.degraded hq (by decide))
  | redirected hp hh hu =>
    obtain ⟨q, begun, hq, hthread⟩ := h.presigning _ hp
    exact h.answer (hover hq hthread) (.redirect hq hthread hh hu)
  | unsigned hp =>
    obtain ⟨q, begun, hq, hthread⟩ := h.presigning _ hp
    exact h.answer (hover hq hthread) (.degraded hq (by decide))
  | dropped =>
    exact ⟨fun hp' => absurd hp' (by simp), fun hp' => absurd hp' (by simp),
      fun _ hp' => absurd hp' (by simp), fun _ hp' => absurd hp' (by simp), h.read,
      fun _ _ hp' => absurd hp' (by simp)⟩

theorem worked_not_over {route : Route} {hash : String} {q : DbRead} {w w' : World} {k : Work}
    {t : Thread} (h : Worked c route hash q w k w' t) (begun : Option ℕ) (read : Read) :
    q.thread ≠ .ended begun read := by
  intro ho
  cases h with
  | abandoned hq => exact absurd (hq.symm.trans ho) (by simp)
  | begun hq => exact absurd (hq.symm.trans ho) (by simp)
  | row hq => exact absurd (hq.symm.trans ho) (by simp)
  | ended hwork =>
    rw [ho] at hwork
    exact absurd hwork (by simp [Thread.working])

/-- A thread of an answered request begins nothing after the answer. -/
theorem DbRead.Closed.work {route : Route} {hash : String} {q : DbRead} {w w' : World} {k : Work}
    {t : Thread} {at' : ℕ} (h : q.Closed c at') (hk : Worked c route hash q w k w' t) :
    DbRead.Closed c { q with thread := t } at' := by
  cases hk with
  | abandoned =>
    exact ⟨fun _ ht => absurd ht (by simp [Thread.begun?]), fun ht => absurd ht (by simp)⟩
  | begun hq _ hdue =>
    refine ⟨fun t ht => ?_, fun ht => absurd ht (by simp)⟩
    obtain rfl := Option.some.inj ht
    exact hdue.trans (h.queued hq)
  | row hq =>
    refine ⟨fun t ht => h.begun t ?_, fun ht => absurd ht (by simp)⟩
    rw [hq]
    exact ht
  | ended => exact ⟨h.begun, fun ht => absurd ht (by simp)⟩

theorem sound_worked {w w' : World} {r : Request} {q : DbRead} {hash : String} {k : Work}
    {t : Thread} (h : r.Sound c w) (hq : r.dbRead = some q) (hh : r.hash = some hash)
    (hk : Worked c r.route hash q w k w' t) :
    Request.Sound c w' { r with dbRead := some { q with thread := t } } := by
  have hnot := worked_not_over hk
  have ha := work_after hk
  obtain ⟨hash', hh', hs⟩ := h.read q hq
  obtain rfl := Option.some.inj (hh.symm.trans hh')
  -- an outcome that rests on a read rests on one that is over
  have hstay : ∀ {q' begun read}, r.dbRead = some q' → q'.thread ≠ .ended begun read := by
    intro q' begun read hq'
    obtain rfl := Option.some.inj (hq.symm.trans hq')
    exact hnot begun read
  refine ⟨fun hp => absurd (hq.symm.trans (h.fresh hp)) (by simp), fun _ => ⟨_, rfl⟩,
    fun due hp => ?_, fun due hp => ?_, fun q' hq' => ?_, fun at' o hp => ?_⟩
  · obtain ⟨q', hq', hle⟩ := h.waiting due hp
    obtain rfl := Option.some.inj (hq.symm.trans hq')
    exact ⟨_, rfl, hle⟩
  · obtain ⟨q', begun, hq', hover⟩ := h.presigning due hp
    exact absurd hover (hstay hq')
  · obtain rfl := Option.some.inj hq'
    exact ⟨hash, hh, hs.work hk⟩
  · obtain ⟨hclock, hclosed, hcomes⟩ := h.answered at' o hp
    refine ⟨hclock.trans ha.clock, fun q' hq' => ?_, ?_⟩
    · obtain rfl := Option.some.inj hq'
      exact (hclosed q hq).work hk
    · cases hcomes.mono hclock ha with
      | junk hh => exact .junk hh
      | unavailable hh ho => exact .unavailable hh ho
      | narinfo hq' hover => exact absurd hover (hstay hq')
      | redirect hq' hover => exact absurd hover (hstay hq')
      | miss hq' hover => exact absurd hover (hstay hq')
      | timedOut hq' hle =>
        obtain rfl := Option.some.inj (hq.symm.trans hq')
        exact .timedOut rfl hle
      | degraded _ hne => exact .degraded rfl hne

theorem sound_step {w w' : World} {o : Choice} {r r' : Request} (h : r.Sound c w)
    (hs : r.step c w o = some (w', r')) : r'.Sound c w' := by
  rcases step_cases hs with ⟨m, -, rfl, hm⟩ | ⟨k, q, hash, t, -, hq, hh, rfl, hk⟩
  · exact sound_handled h hm
  · exact sound_worked h hq hh hk

theorem sound_initial {w : World} {r : Request} (h : (program c).initial r = true) :
    r.Sound c w := by
  obtain ⟨hp, hq⟩ := initial_iff.mp h
  refine ⟨fun _ => hq, fun hp' => ?_, fun _ hp' => ?_, fun _ hp' => ?_,
    fun q hq' => absurd (hq.symm.trans hq') (by simp), fun _ _ hp' => ?_⟩
  all_goals exact absurd (hp.symm.trans hp') (by simp)

theorem keeps_sound (ok : State → Act → Prop) :
    (program c).Keeps ok (fun _ => True) (fun _ w r => r.Sound c w) (fun _ _ => True) where
  spawn _ _ _ hinit := ⟨trivial, sound_initial hinit⟩
  spawnPair _ _ _ _ := ⟨trivial, trivial⟩
  self _ hi ht h := ⟨trivial, sound_step (hi.task _ _ ht) h⟩
  other _ hi _ h _ hu := ⟨(hi.task _ _ hu).mono (step_after h), trivial, trivial⟩
  outside _ hi h := ⟨trivial, fun i r ht => (hi.task i r ht).mono (outside_after h)⟩
  restart _ _ := trivial

theorem sound_reach {ok : State → Act → Prop} {clock : ℕ} {db : Db} {past : List Db} {s : State}
    (h : Reach (program c).step ok (.boot (.boot clock db past)) s) {i : ℕ} {r : Request}
    (ht : s.task? i = some r) : r.Sound c s.shared :=
  ((keeps_sound ok).reach h (.boot trivial)).task i r ht

/-- A thread that has the lock can give it back. -/
theorem work_frees {w : World} {r : Request} (h : r.Sound c w) (hwork : r.working = true) :
    ∃ r', r.step c w (.thread (.statement true)) = some ({ w with locked := false }, r') := by
  obtain ⟨q, hq, hq'⟩ := (Option.any_eq_true _ _).mp hwork
  obtain ⟨hash, hh, -⟩ := h.read q hq
  obtain ⟨start, base, thread⟩ := q
  cases thread with
  | row begun => exact ⟨_, by simp only [Request.step, hq, hh]; rfl⟩
  | refs begun row => exact ⟨_, by simp only [Request.step, hq, hh]; rfl⟩
  | queued => exact absurd hq' (by simp [Thread.working])
  | ended begun read => exact absurd hq' (by simp [Thread.working])

/-- **One read at a time, and none that nobody waits for.** In every run, with requests that time
out or are dropped, statements that hang or panic, and the probe in between: no two threads have the
connection, the lock is held exactly while the probe or one of them has it, and a thread whose
statement fails, however late, frees it. No read begins after its deadline, nor after its request
has been answered. -/
theorem reads_in_time {clock : ℕ} {db : Db} {past : List Db} {s : State}
    (h : Reach (program c).step (fun _ _ => True) (.boot (.boot clock db past)) s) :
    (∀ i j r u, s.task? i = some r → s.task? j = some u → r.working = true → u.working = true →
      i = j) ∧
    (s.shared.locked = true ↔
      s.shared.probe = true ∨ ∃ i r, s.task? i = some r ∧ r.working = true) ∧
    (∀ i r, s.task? i = some r → r.working = true → s.shared.probe = false ∧
      ∃ r', (program c).step s (.step i (.thread (.statement true))) =
        some (s.put i ({ s.shared with locked := false }, r'))) ∧
    ∀ i r q t, s.task? i = some r → r.dbRead = some q → q.thread.begun? = some t →
      t ≤ q.start + c.dbReadBudget ∧ ∀ at' o, r.phase = .answered at' o → t ≤ at' := by
  have hI := (keeps_single fun _ _ => True).reach h (.boot (held_boot clock db past))
  refine ⟨fun i j r u ht hu hr hu' => ?_, ⟨hI.whole.owned, ?_⟩, fun i r ht hr => ?_,
    fun i r q t ht hq hbegun => ?_⟩
  · by_contra hij
    exact hI.pair i j r u hij ht hu hr hu'
  · rintro (hp | ⟨i, r, ht, hr⟩)
    · exact hI.whole.probe hp
    · exact ((hI.task i r ht).locked hr).1
  · obtain ⟨r', hstep⟩ := work_frees (sound_reach h ht) hr
    refine ⟨((hI.task i r ht).locked hr).2, r', ?_⟩
    simp only [Program.step, ht, Option.bind_some, program, hstep, Option.map_some]
  · have hs := sound_reach h ht
    obtain ⟨hash, -, hread⟩ := hs.read q hq
    refine ⟨(hread.begun t hbegun).2, fun at' o hp => ?_⟩
    exact ((hs.answered at' o hp).closed q hq).begun t hbegun

namespace Sample

def hash : String := "0123456789abcdfghijklmnpqrsvwxyz"

def config : Config where
  dbReadBudget := 10
  presignBudget := 5
  presignedGet key n := if n = 0 then some key else none

/-- The database is there, and a narinfo's read hangs in its first statement. -/
def wedged : List Act :=
  [.outside .opened, .spawn 0 (.new .narinfo (narinfoFile hash) 0), .step 0 (.handler .go),
    .step 0 (.handler .go), .step 0 (.thread .lock)]

end Sample

/-- A read that hangs: its request and one queued behind it time out, and it can still free the
lock. -/
theorem reads_in_time_wedged : ∃ s,
    Reach (program Sample.config).step (fun _ _ => True) (.boot (.boot 0 .empty [])) s ∧
    (s.task? 0).map Request.phase = some (.answered 11 (.degraded .dbTimeout)) ∧
    (s.task? 1).map Request.phase = some (.answered 11 (.degraded .dbTimeout)) ∧
    ∃ r', (program Sample.config).step s (.step 0 (.thread (.statement true))) =
      some (s.put 0 ({ s.shared with locked := false }, r')) := by
  obtain ⟨s, hrun, h₀, h₁, hwork⟩ := exec_check (program Sample.config).step (fun _ _ => True)
    (Sample.wedged ++ [.spawn 1 (.new .nar (Sample.hash ++ narSuffix) 0), .step 1 (.handler .go),
      .step 1 (.handler .go), .outside (.pass 11), .step 0 (.handler .expire),
      .step 1 (.handler .expire)])
    (.boot (.boot 0 .empty []))
    (fun s => (s.task? 0).map Request.phase = some (.answered 11 (.degraded .dbTimeout)) ∧
      (s.task? 1).map Request.phase = some (.answered 11 (.degraded .dbTimeout)) ∧
      (s.task? 0).any Request.working = true)
    (by decide +kernel)
  obtain ⟨r, hr, hworking⟩ := (Option.any_eq_true _ _).mp hwork
  exact ⟨s, hrun, h₀, h₁, ((reads_in_time hrun).2.2.1 0 r hr hworking).2⟩

/-- **An answer was true while the request ran.** In every run, whatever is committed meanwhile:
only a file name of no store hash is junk; a narinfo is rendered from the row and the references of
its hash, each as some state since the read was spawned had them; a redirect goes to the presigned
URL of a hash that had a row; a miss had none; and the database is not given up before its
budget. -/
theorem answers_true {clock : ℕ} {db : Db} {past : List Db} {s : State}
    (h : Reach (program c).step (fun _ _ => True) (.boot (.boot clock db past)) s) {i : ℕ}
    {r : Request} {at' : ℕ} {o : Outcome} (ht : s.task? i = some r)
    (hp : r.phase = .answered at' o) :
    (o = .junk ↔ r.hash = none) ∧
    (∀ response, o = .hit response → ∃ q hash, r.dbRead = some q ∧ r.hash = some hash ∧
      ((r.route = .narinfo ∧ ∃ obj, response = .narinfo (render obj) ∧
          Served (s.shared.seen q.base) hash obj) ∨
        (r.route = .nar ∧ ∃ n url, response = .redirect url ∧
          c.presignedGet (keyFor hash) n = some url ∧
          ∃ d ∈ s.shared.seen q.base, (d.row? hash).isSome = true))) ∧
    (o = .miss → ∃ q hash, r.dbRead = some q ∧ r.hash = some hash ∧
      ∃ d ∈ s.shared.seen q.base, d.row? hash = none) ∧
    (o = .degraded .dbTimeout → ∃ q, r.dbRead = some q ∧ q.start + c.dbReadBudget ≤ at') := by
  have hs := sound_reach h ht
  have hcomes := (hs.answered at' o hp).comes
  have hash_of : ∀ q, r.dbRead = some q → r.hash ≠ none := fun q hq hn => by
    obtain ⟨hash, hh, -⟩ := hs.read q hq
    exact absurd (hh.symm.trans hn) (by simp)
  cases hcomes with
  | junk hh =>
    exact ⟨⟨fun _ => hh, fun _ => rfl⟩, fun _ ho => absurd ho (by simp),
      fun ho => absurd ho (by simp), fun ho => absurd ho (by simp)⟩
  | unavailable hh =>
    exact ⟨⟨fun ho => absurd ho (by simp), fun hn => absurd (hh.symm.trans hn) (by simp)⟩,
      fun _ ho => absurd ho (by simp), fun ho => absurd ho (by simp), fun ho => absurd ho (by simp)⟩
  | @narinfo q begun obj lastAccessedAt hq hover =>
    obtain ⟨hash, hh, hread⟩ := hs.read q hq
    have htold := hread.told
    rw [hover] at htold
    refine ⟨⟨fun ho => absurd ho (by simp), fun hn => absurd hn (hash_of q hq)⟩,
      fun response ho => ?_, fun ho => absurd ho (by simp), fun ho => absurd ho (by simp)⟩
    obtain rfl := Outcome.hit.inj ho
    exact ⟨q, hash, hq, hh, Or.inl ⟨htold.1, obj, rfl, htold.2⟩⟩
  | @redirect q begun hash url n hq hover hh hu =>
    obtain ⟨hash', hh', hread⟩ := hs.read q hq
    obtain rfl := Option.some.inj (hh.symm.trans hh')
    have htold := hread.told
    rw [hover] at htold
    refine ⟨⟨fun ho => absurd ho (by simp), fun hn => absurd hn (hash_of q hq)⟩,
      fun response ho => ?_, fun ho => absurd ho (by simp), fun ho => absurd ho (by simp)⟩
    obtain rfl := Outcome.hit.inj ho
    exact ⟨q, hash, hq, hh, Or.inr ⟨htold.1, n, url, rfl, hu, htold.2⟩⟩
  | @miss q begun hq hover =>
    obtain ⟨hash, hh, hread⟩ := hs.read q hq
    have htold := hread.told
    rw [hover] at htold
    exact ⟨⟨fun ho => absurd ho (by simp), fun hn => absurd hn (hash_of q hq)⟩,
      fun _ ho => absurd ho (by simp), fun _ => ⟨q, hash, hq, hh, htold⟩,
      fun ho => absurd ho (by simp)⟩
  | @timedOut q hq hle =>
    exact ⟨⟨fun ho => absurd ho (by simp), fun hn => absurd hn (hash_of q hq)⟩,
      fun _ ho => absurd ho (by simp), fun ho => absurd ho (by simp), fun _ => ⟨q, hq, hle⟩⟩
  | @degraded q why hq hne =>
    exact ⟨⟨fun ho => absurd ho (by simp), fun hn => absurd hn (hash_of q hq)⟩,
      fun _ ho => absurd ho (by simp), fun ho => absurd ho (by simp),
      fun ho => absurd (Outcome.degraded.inj ho) hne⟩

namespace Sample

/-- A database with an object. -/
def stored : Db :=
  (insertObject noFaults
    { storePathHash := hash
      storePath := "/nix/store/" ++ hash ++ "-app"
      name := "app"
      narHash := "sha256:0"
      narSize := 1
      fileHash := "sha256:0"
      fileSize := 1
      deriver := none
      ca := none
      references := []
      sigs := []
      pushedBy := none } 1 .empty).2

end Sample

/-- A redirect of a path that was there when it was read, and is gone by the time it is answered. -/
theorem answers_true_deleted : ∃ s r q,
    Reach (program Sample.config).step (fun _ _ => True) (.boot (.boot 0 Sample.stored [])) s ∧
    s.task? 0 = some r ∧ r.phase = .answered 0 (.hit (.redirect (keyFor Sample.hash))) ∧
    s.shared.db.row? Sample.hash = none ∧ r.dbRead = some q ∧
    ∃ d ∈ s.shared.seen q.base, (d.row? Sample.hash).isSome = true := by
  obtain ⟨s, hrun, hphase, hhash, hgone⟩ := exec_check (program Sample.config).step
    (fun _ _ => True)
    [.outside .opened, .spawn 0 (.new .nar (Sample.hash ++ narSuffix) 0), .step 0 (.handler .go),
      .step 0 (.handler .go), .step 0 (.thread .lock), .step 0 (.thread (.statement false)),
      .outside (.commit .empty), .step 0 (.handler .go), .step 0 (.handler (.presigned 0))]
    (.boot (.boot 0 Sample.stored []))
    (fun s => (s.task? 0).map Request.phase =
        some (.answered 0 (.hit (.redirect (keyFor Sample.hash)))) ∧
      (s.task? 0).bind Request.hash = some Sample.hash ∧ s.shared.db.row? Sample.hash = none)
    (by decide +kernel)
  obtain ⟨r, hr, hp⟩ := Option.map_eq_some_iff.mp hphase
  rw [hr, Option.bind_some] at hhash
  obtain ⟨q, hash, hq, hh, htrue⟩ := (answers_true hrun hr hp).2.1 _ rfl
  obtain rfl := Option.some.inj (hhash.symm.trans hh)
  rcases htrue with ⟨-, _, hresponse, -⟩ | ⟨-, _, _, -, -, hseen⟩
  · exact absurd hresponse (by simp)
  · exact ⟨s, r, q, hrun, hr, hp, hgone, hq, hseen⟩

/-! ## In time -/

/-- When the request itself can move on at the latest. -/
def Request.limit (r : Request) : Option ℕ :=
  match r.phase with
  | .arrived => some r.since
  | .spawned => r.dbRead.map DbRead.start
  | .waiting due => some due
  | .presigning due => some due
  | _ => none

/-- What an answer still takes from there, when every step comes at most `late` after it could. -/
def Phase.rest (c : Config) (late : ℕ) : Phase → ℕ
  | arrived => c.dbReadBudget + c.presignBudget + 4 * late
  | spawned => c.dbReadBudget + c.presignBudget + 3 * late
  | waiting _ => c.presignBudget + 2 * late
  | presigning _ => late
  | _ => 0

/-- What an answer takes. -/
def latency (c : Config) (late : ℕ) : ℕ := Phase.arrived.rest c late

/-- Requests arrive now, and the runtime runs a handler within `late` of when it can go on. -/
def Punctual (late : ℕ) (s : State) : Act → Prop
  | .spawn _ r => r.since = s.shared.clock
  | .outside (.pass n) => ∀ i r, s.task? i = some r → ∀ l, r.limit = some l →
      s.shared.clock + n ≤ l + late
  | _ => True

theorem pass_iff {late n : ℕ} {s : State} :
    Punctual late s (.outside (.pass n)) ↔ ∀ e ∈ s.table.entries,
      e.2.limit.all (fun l => decide (s.shared.clock + n ≤ l + late)) = true := by
  constructor
  · intro h e he
    exact (Option.all_eq_true _ _).mpr fun l hl =>
      decide_eq_true (h e.1 e.2 (Table.lookup_eq_some_iff.mpr he) l hl)
  · intro h i r ht l hl
    have hall := h ⟨i, r⟩ (Table.lookup_eq_some_iff.mp ht)
    rw [hl] at hall
    exact of_decide_eq_true hall

instance (late : ℕ) (s : State) : ∀ a : Act, Decidable (Punctual late s a)
  | .spawn _ r => inferInstanceAs (Decidable (r.since = s.shared.clock))
  | .outside (.pass _) => decidable_of_iff _ pass_iff.symm
  | .outside .opened => .isTrue trivial
  | .outside (.commit _) => .isTrue trivial
  | .outside .probe => .isTrue trivial
  | .step _ _ => .isTrue trivial
  | .crash _ => .isTrue trivial

/-- A request is where it should be by now. -/
structure Prompt (c : Config) (late : ℕ) (w : World) (r : Request) : Prop where
  limit : ∀ l, r.limit = some l →
    w.clock ≤ l + late ∧ l + r.phase.rest c late ≤ r.since + latency c late
  answered : ∀ at' o, r.phase = .answered at' o → at' ≤ r.since + latency c late

theorem Prompt.congr {late : ℕ} {w w' : World} {r : Request} (h : Prompt c late w r)
    (hw : w'.clock = w.clock) : Prompt c late w' r :=
  ⟨fun l hl => ⟨hw ▸ (h.limit l hl).1, (h.limit l hl).2⟩, h.answered⟩

/-- An answer now is in time. -/
theorem Prompt.answer {late : ℕ} {w : World} {r : Request} (h : Prompt c late w r) {l : ℕ}
    (hl : r.limit = some l) (hrest : late ≤ r.phase.rest c late) (o : Outcome) :
    Prompt c late w (r.answer w o) := by
  obtain ⟨hclock, htotal⟩ := h.limit l hl
  refine ⟨fun _ hl' => absurd hl' (by simp [Request.limit, Request.answer]), fun at' o' hp => ?_⟩
  obtain ⟨rfl, -⟩ := Phase.answered.inj hp
  change w.clock ≤ r.since + _
  omega

theorem prompt_handled {late : ℕ} {w : World} {r r' : Request} {m : Move} (hs : r.Sound c w)
    (h : Prompt c late w r) (hm : Handled c r w m r') : Prompt c late w r' := by
  have hlimit : ∀ {p l}, r.phase = p → r.limit = some l →
      w.clock ≤ l + late ∧ l + p.rest c late ≤ r.since + latency c late := by
    rintro p l rfl hl
    exact h.limit l hl
  have harrived : r.phase = .arrived → r.limit = some r.since := fun hp => by
    rw [Request.limit, hp]
  have hwaiting : ∀ {due}, r.phase = .waiting due → r.limit = some due := fun hp => by
    rw [Request.limit, hp]
  have hpresigning : ∀ {due}, r.phase = .presigning due → r.limit = some due := fun hp => by
    rw [Request.limit, hp]
  cases hm with
  | junk hp => exact h.answer (harrived hp) (by rw [hp, Phase.rest]; omega) _
  | unavailable hp => exact h.answer (harrived hp) (by rw [hp, Phase.rest]; omega) _
  | spawned hp =>
    obtain ⟨hclock, -⟩ := hlimit hp (harrived hp)
    refine ⟨fun l hl => ?_, fun _ _ hp' => absurd hp' (by simp)⟩
    obtain rfl := Option.some.inj hl
    simp only [Phase.rest, latency]
    omega
  | armed hp =>
    obtain ⟨q, hq⟩ := hs.spawned hp
    obtain ⟨hclock, htotal⟩ := hlimit hp (l := q.start) (by rw [Request.limit, hp, hq]; rfl)
    refine ⟨fun l hl => ?_, fun _ _ hp' => absurd hp' (by simp)⟩
    obtain rfl := Option.some.inj hl
    simp only [Phase.rest] at htotal ⊢
    omega
  | @woken due q begun read hp =>
    obtain ⟨hclock, htotal⟩ := hlimit hp (hwaiting hp)
    have hlate : late ≤ r.phase.rest c late := by
      rw [hp, Phase.rest]
      omega
    cases read with
    | object obj lastAccessedAt => exact h.answer (hwaiting hp) hlate _
    | present =>
      refine ⟨fun l hl => ?_, fun _ _ hp' => absurd hp' (by simp [Request.resume])⟩
      obtain rfl := Option.some.inj hl
      simp only [Phase.rest, Request.resume] at htotal ⊢
      omega
    | missing => exact h.answer (hwaiting hp) hlate _
    | failed => exact h.answer (hwaiting hp) hlate _
  | expired hp => exact h.answer (hwaiting hp) (by rw [hp, Phase.rest]; omega) _
  | presignExpired hp => exact h.answer (hpresigning hp) (by rw [hp, Phase.rest]) _
  | redirected hp => exact h.answer (hpresigning hp) (by rw [hp, Phase.rest]) _
  | unsigned hp => exact h.answer (hpresigning hp) (by rw [hp, Phase.rest]) _
  | dropped =>
    exact ⟨fun _ hl => absurd hl (by simp [Request.limit]), fun _ _ hp' => absurd hp' (by simp)⟩

theorem step_clock {w w' : World} {o : Choice} {r r' : Request}
    (h : r.step c w o = some (w', r')) : w'.clock = w.clock := by
  rcases step_cases h with ⟨m, -, rfl, -⟩ | ⟨k, q, hash, t, -, -, -, -, hk⟩
  · rfl
  · cases hk <;> rfl

theorem prompt_step {late : ℕ} {w w' : World} {o : Choice} {r r' : Request} (hs : r.Sound c w)
    (h : Prompt c late w r) (hstep : r.step c w o = some (w', r')) : Prompt c late w' r' := by
  refine Prompt.congr (w := w) ?_ (step_clock hstep)
  rcases step_cases hstep with ⟨m, -, -, hm⟩ | ⟨k, q, hash, t, -, hq, -, rfl, -⟩
  · exact prompt_handled hs h hm
  · -- the thread changes neither the phase nor when the read was started
    refine ⟨fun l hl => h.limit l (hl ▸ ?_), h.answered⟩
    unfold Request.limit
    rw [hq]
    rfl

theorem keeps_prompt (late : ℕ) :
    (program c).Keeps (Punctual late) (fun _ => True)
      (fun _ w r => r.Sound c w ∧ Prompt c late w r) (fun _ _ => True) where
  spawn {s i r} hok _ _ hinit := by
    refine ⟨trivial, sound_initial hinit, fun l hl => ?_, fun _ _ hp => ?_⟩
    · have hp := (initial_iff.mp hinit).1
      have hsince : r.since = s.shared.clock := hok
      rw [Request.limit, hp] at hl
      obtain rfl := Option.some.inj hl
      rw [hp, hsince]
      exact ⟨Nat.le_add_right _ _, Nat.le_refl _⟩
    · exact absurd ((initial_iff.mp hinit).1.symm.trans hp) (by simp)
  spawnPair _ _ _ _ := ⟨trivial, trivial⟩
  self _ hi ht h :=
    ⟨trivial, sound_step (hi.task _ _ ht).1 h, prompt_step (hi.task _ _ ht).1 (hi.task _ _ ht).2 h⟩
  other _ hi _ h _ hu :=
    ⟨⟨(hi.task _ _ hu).1.mono (step_after h), (hi.task _ _ hu).2.congr (step_clock h)⟩,
      trivial, trivial⟩
  outside {s e w'} hok hi h := by
    refine ⟨trivial, fun i r ht => ⟨(hi.task i r ht).1.mono (outside_after h), ?_⟩⟩
    have hprompt := (hi.task i r ht).2
    cases outside_cases h with
    | passed => exact ⟨fun l hl => ⟨hok i r ht l hl, (hprompt.limit l hl).2⟩, hprompt.answered⟩
    | _ => exact hprompt.congr rfl
  restart _ _ := trivial

/-- At its limit a request can move on by itself, whatever its thread and S3 do. -/
theorem moves_at_limit {w : World} {r : Request} {l : ℕ} (hl : r.limit = some l)
    (hdue : l ≤ w.clock) : ∃ m r', (m = .go ∨ m = .expire) ∧ r'.phase ≠ r.phase ∧
      r.handle c w m = some r' := by
  unfold Request.limit at hl
  split at hl
  · rename_i hp
    have hgo : ∃ r', r'.phase ≠ r.phase ∧ r.handle c w .go = some r' := by
      simp only [Request.handle, hp]
      split
      · exact ⟨_, Phase.noConfusion, rfl⟩
      · split
        · exact ⟨_, Phase.noConfusion, rfl⟩
        · exact ⟨_, Phase.noConfusion, rfl⟩
    obtain ⟨r', hphase, hr'⟩ := hgo
    exact ⟨.go, r', Or.inl rfl, hphase, hr'⟩
  · rename_i hp
    have hgo : r.handle c w .go = some { r with phase := .waiting (w.clock + c.dbReadBudget) } := by
      simp only [Request.handle, hp]
    exact ⟨.go, _, Or.inl rfl, by rw [hp]; exact Phase.noConfusion, hgo⟩
  · rename_i due hp
    obtain rfl := Option.some.inj hl
    have hexpire : r.handle c w .expire = some (r.answer w (.degraded .dbTimeout)) := by
      simp only [Request.handle, hp, if_pos hdue]
    exact ⟨.expire, _, Or.inr rfl, by rw [hp]; exact Phase.noConfusion, hexpire⟩
  · rename_i due hp
    obtain rfl := Option.some.inj hl
    have hexpire : r.handle c w .expire = some (r.answer w (.degraded .presignTimeout)) := by
      simp only [Request.handle, hp, if_pos hdue]
    exact ⟨.expire, _, Or.inr rfl, by rw [hp]; exact Phase.noConfusion, hexpire⟩
  · exact absurd hl (by simp)

/-- A request that has no limit is answered or dropped. -/
theorem limit_of_unanswered {w : World} {r : Request} (hs : r.Sound c w)
    (hne : ∀ at' o, r.phase ≠ .answered at' o) (hgone : r.phase ≠ .gone) :
    ∃ l, r.limit = some l := by
  unfold Request.limit
  cases hp : r.phase with
  | arrived => exact ⟨_, rfl⟩
  | spawned =>
    obtain ⟨q, hq⟩ := hs.spawned hp
    exact ⟨q.start, by rw [hq]; rfl⟩
  | waiting due => exact ⟨_, rfl⟩
  | presigning due => exact ⟨_, rfl⟩
  | answered at' o => exact absurd hp (hne at' o)
  | gone => exact absurd hp hgone

/-- **Bounded latency, harmless failure.** Where the runtime runs handlers within `late`, whatever
hangs meanwhile (statements, the queue for the connection, S3): a request is answered within its two
budgets and four times `late`, with 200, 307 or 404, or 503 only while the database was not open.
Time never has to stop for it: a request at its limit can move on by itself. -/
theorem answered_in_time {late clock : ℕ} {db : Db} {past : List Db} {s : State}
    (h : Reach (program c).step (Punctual late) (.boot (.boot clock db past)) s) {i : ℕ}
    {r : Request} (ht : s.task? i = some r) :
    (∀ at' o, r.phase = .answered at' o → at' ≤ r.since + latency c late ∧
      ((counted r.route.counter o).2.status ∈ [200, 307, 404] ∨
        (o = .unavailable ∧ ∀ t, s.shared.openedAt = some t → at' ≤ t))) ∧
    ((∀ at' o, r.phase ≠ .answered at' o) → r.phase ≠ .gone →
      s.shared.clock ≤ r.since + latency c late) ∧
    ∀ l, r.limit = some l → l ≤ s.shared.clock → ∃ m r', (m = .go ∨ m = .expire) ∧
      r'.phase ≠ r.phase ∧
      (program c).step s (.step i (.handler m)) = some (s.put i (s.shared, r')) := by
  obtain ⟨hs, hprompt⟩ := ((keeps_prompt late).reach h (.boot trivial)).task i r ht
  refine ⟨fun at' o hp => ⟨hprompt.answered at' o hp, ?_⟩, fun hne hgone => ?_, fun l hl hdue => ?_⟩
  · cases (hs.answered at' o hp).comes with
    | unavailable _ ho => exact Or.inr ⟨rfl, ho⟩
    | junk => exact Or.inl (by simp [counted, Response.status])
    | narinfo => exact Or.inl (by simp [counted, Response.status])
    | redirect => exact Or.inl (by simp [counted, Response.status])
    | miss => exact Or.inl (by simp [counted, Response.status])
    | timedOut => exact Or.inl (by simp [counted, degradedMiss, Response.status])
    | degraded => exact Or.inl (by simp [counted, degradedMiss, Response.status])
  · obtain ⟨l, hl⟩ := limit_of_unanswered hs hne hgone
    obtain ⟨hclock, htotal⟩ := hprompt.limit l hl
    have hlate : late ≤ r.phase.rest c late := by
      unfold Request.limit at hl
      cases hp : r.phase with
      | answered at' o => exact absurd hp (hne at' o)
      | gone => exact absurd hp hgone
      | _ => simp only [Phase.rest]; omega
    omega
  · obtain ⟨m, r', hm, hphase, hstep⟩ := moves_at_limit (c := c) hl hdue
    refine ⟨m, r', hm, hphase, ?_⟩
    simp only [Program.step, ht, Option.bind_some, program, Request.step, hstep, Option.map_some]

/-- A read that hangs for good: its request is answered all the same. -/
theorem answered_in_time_wedged : ∃ s r,
    Reach (program Sample.config).step (Punctual 1) (.boot (.boot 0 .empty [])) s ∧
    s.task? 0 = some r ∧ r.working = true ∧
    r.phase = .answered 11 (.degraded .dbTimeout) ∧ 11 ≤ r.since + latency Sample.config 1 := by
  obtain ⟨s, hrun, hphase, hwork⟩ := exec_check (program Sample.config).step (Punctual 1)
    (Sample.wedged ++ [.outside (.pass 11), .step 0 (.handler .expire)])
    (.boot (.boot 0 .empty []))
    (fun s => (s.task? 0).map Request.phase = some (.answered 11 (.degraded .dbTimeout)) ∧
      (s.task? 0).any Request.working = true)
    (by decide +kernel)
  obtain ⟨r, hr, hworking⟩ := (Option.any_eq_true _ _).mp hwork
  obtain ⟨r', hr', hp⟩ := Option.map_eq_some_iff.mp hphase
  obtain rfl := Option.some.inj (hr.symm.trans hr')
  exact ⟨s, r, hrun, hr, hworking, hp, ((answered_in_time hrun hr).1 11 _ hp).1⟩

end Garret.PullRoute
