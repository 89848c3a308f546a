import Garret.Upload.Slots
import Mathlib.Algebra.BigOperators.Ring.List

/-!
# Upload memory and the part slots

`Slots` over whole runs: any number of `put_streaming` calls with any bodies, hints, S3 outcomes
and drops, in any order of steps.

* `Inv`: permits are in the semaphore or with a call, and a call stands in line exactly while it
  waits. `inv_step` and `inv_reach` carry it along every run.
* `memory_within_budget`: while no body ends after a whole number of parts, upload memory stays
  within the budget. A body that does leaves a buffer with no reservation: `part.is_empty()` drops
  the permit before the part.
* `never_wedged`: some call can always go on.
-/

namespace Garret.Slots

open Garret.Lib

/-- All part buffers that are alive. -/
def State.live (s : State) : List (Buffer × Option ℕ) := s.uploads.flatMap Upload.live

/-- All permits that calls hold. -/
def State.permits (s : State) : ℕ := (s.uploads.map Upload.permits).sum

/-- What holds in every state. -/
structure Inv (l : Budget) (s : State) : Prop where
  ok : ∀ u ∈ s.uploads, u.Ok l
  conserved : s.sem.inside + s.permits = l.totalUnits
  tickets : ∀ i, s.sem.tickets i = (s.uploads[i]?.map (Upload.tickets l)).getD []

variable {l : Budget}

theorem inv_init : Inv l (init l) where
  ok := by simp [init]
  conserved := by simp [init, State.permits]
  tickets i := by simp [init]

theorem Upload.start_ok (firstPartHint : ℕ) : (Upload.start l firstPartHint).Ok l := by
  have := l.partSize_pos
  refine ⟨⟨⟨?_, Nat.min_le_right ..⟩, rfl, rfl⟩, by simp [Upload.start]⟩
  omega

/-- What an event of a call does to the rest: its upload is replaced, and the semaphore with it. -/
theorem step_upload {s s' : State} {i : ℕ} {e : Event} (hs : step l s (.upload i e) = some s') :
    ∃ u u' sem', s.uploads[i]? = some u ∧ u.step l i s.sem e = some (u', sem') ∧
      s' = ⟨s.uploads.set i u', sem'⟩ := by
  simp only [step] at hs
  split at hs
  · rename_i u hu
    obtain ⟨⟨u', sem'⟩, hstep, he⟩ := Option.map_eq_some_iff.mp hs
    exact ⟨u, u', sem', hu, hstep, he.symm⟩
  · exact absurd hs (by simp)

/-- One step keeps the invariant. -/
theorem inv_step (hmax : 0 < l.maxPartsInFlight) {s s' : State} {a : Act} (h : Inv l s)
    (hs : step l s a = some s') : Inv l s' := by
  cases a with
  | start firstPartHint =>
    obtain rfl := Option.some.inj hs
    refine ⟨fun u hu => ?_, ?_, fun i => ?_⟩
    · rcases List.mem_append.mp hu with hu | hu
      · exact h.ok u hu
      · rw [List.mem_singleton.mp hu]
        exact Upload.start_ok firstPartHint
    · have := h.conserved
      simpa [State.permits, Upload.start, Upload.permits, Phase.permits] using this
    · rw [h.tickets]
      simp only [List.getElem?_append]
      split
      · rfl
      · rename_i hlen
        rw [List.getElem?_eq_none (Nat.le_of_not_lt hlen)]
        -- the new call, if it is this one, does not wait
        cases hk : i - s.uploads.length with
        | zero => rfl
        | succ k => rfl
  | upload i e =>
    obtain ⟨u, u', sem', hu, hstep, rfl⟩ := step_upload hs
    have hmem := List.mem_of_getElem? hu
    have hi : s.sem.tickets i = u.tickets l := by rw [h.tickets, hu]; rfl
    have hstepped := Upload.step_stepped hmax (h.ok u hmem) hi hstep
    refine ⟨fun v hv => ?_, ?_, fun j => ?_⟩
    · rcases List.mem_or_eq_of_mem_set hv with hv | rfl
      · exact h.ok v hv
      · exact hstepped.ok
    · have hsum := sum_map_set Upload.permits u' hu
      have hcons := h.conserved
      have hperm := hstepped.permits
      simp only [State.permits] at hcons ⊢
      omega
    · by_cases hj : j = i
      · subst hj
        rw [hstepped.tickets]
        simp [(List.getElem?_eq_some_iff.mp hu).1]
      · rw [hstepped.others j hj, h.tickets, List.getElem?_set_ne (Ne.symm hj)]

/-- Every run keeps the invariant. -/
theorem inv_reach (hmax : 0 < l.maxPartsInFlight) {ok : State → Act → Prop} {s : State}
    (h : Reach (step l) ok (init l) s) : Inv l s :=
  h.invariant (fun _ _ _ hi _ hs => inv_step hmax hi hs) inv_init

/-- A call that is over holds no permit. -/
theorem Upload.Over.permits {u : Upload} (h : u.Over) : u.permits = 0 := by
  obtain ⟨hphase, htasks⟩ := h
  rcases hphase with hphase | hphase <;> simp [Upload.permits, hphase, htasks, Phase.permits]

/-! ## Progress -/

/-- A request in line is of a call that waits for it. -/
theorem Inv.waiter {s : State} (h : Inv l s) {w : Waiter ℕ} (hw : w ∈ s.sem.line) :
    ∃ u turn reserve, s.uploads[w.id]? = some u ∧ u.phase = .waiting turn reserve ∧
      w.needed = l.units reserve := by
  have hmem := Semaphore.mem_tickets hw
  rw [h.tickets] at hmem
  cases hu : s.uploads[w.id]? with
  | none => simp [hu] at hmem
  | some u =>
    simp only [hu, Option.map_some, Option.getD_some, Upload.tickets] at hmem
    cases hphase : u.phase with
    | waiting turn reserve =>
      rw [hphase] at hmem
      exact ⟨u, turn, reserve, rfl, hphase, List.mem_singleton.mp hmem⟩
    | _ => simp [hphase, Phase.tickets] at hmem

/-- The reader goes on wherever it reads. -/
theorem Upload.read_step {u : Upload} (i : ℕ) (sem : Semaphore ℕ)
    (h : ∀ it, ∀ carry, ∃ u', Upload.item l { u with carry := carry } it = some u') :
    ∃ e r, e ≠ .cancel ∧ u.step l i sem e = some r := by
  cases hc : u.carry with
  | some n =>
    obtain ⟨u', hu'⟩ := h (.chunk n) none
    exact ⟨.carry, (u', sem), by simp, by simp [step, hc, hu']⟩
  | none =>
    obtain ⟨u', hu'⟩ := h .eof u.carry
    exact ⟨.read .eof, (u', sem), by simp, by simp [step, hc, hu']⟩

/-- A call whose tasks are done goes on, is over, or stands in line. -/
theorem Upload.advance_done (hmax : 0 < l.maxPartsInFlight) {u : Upload} (hu : u.Ok l)
    (hover : ¬u.Over) (htasks : ∀ t ∈ u.tasks, ∃ ok, t = Task.done ok) (i : ℕ)
    (sem : Semaphore ℕ) :
    (∃ e r, e ≠ .cancel ∧ u.step l i sem e = some r) ∨
      ∃ turn reserve, u.phase = .waiting turn reserve := by
  have hphaseOk := hu.phase
  have hfirst : u.tasks ≠ [] → ∃ ok, u.tasks[0]? = some (.done ok) := by
    intro hne
    obtain ⟨t, ts, hts⟩ := List.exists_cons_of_ne_nil hne
    obtain ⟨ok, rfl⟩ := htasks t (by simp [hts])
    exact ⟨ok, by simp [hts]⟩
  cases hphase : u.phase with
  | acquire turn reserve =>
    refine Or.inl ⟨.acquire, ?_⟩
    cases hacq : sem.acquire i (l.units reserve) with
    | mk sem' there => cases there <;> simp [step, hphase, hacq]
  | waiting turn reserve => exact Or.inr ⟨turn, reserve, rfl⟩
  | reserved turn reserve permit => exact Or.inl ⟨.alloc, by simp [step, hphase]⟩
  | filling turn part permit =>
    refine Or.inl (read_step i sem fun it carry => ?_)
    cases it with
    | chunk n =>
      simp only [item, hphase]
      split <;> exact ⟨_, rfl⟩
    | eof => simp [item, hphase]
    | fail => simp [item, hphase]
  | probing first permit =>
    refine Or.inl (read_step i sem fun it carry => ?_)
    cases it with
    | chunk n =>
      simp only [item, hphase]
      split <;> exact ⟨_, rfl⟩
    | eof => simp [item, hphase]
    | fail => simp [item, hphase]
  | putting first permit => exact Or.inl ⟨.s3 true, by simp [step, s3, hphase]⟩
  | creating first permit => exact Or.inl ⟨.s3 true, by simp [step, s3, hphase]⟩
  | dropping permit after => exact Or.inl ⟨.proceed, by simp [step, proceed, hphase]⟩
  | emptied part permit => exact Or.inl ⟨.proceed, by simp [step, proceed, hphase]⟩
  | letGo part => exact Or.inl ⟨.proceed, by simp [step, proceed, hphase]⟩
  | room =>
    by_cases hroom : u.tasks.length < l.maxPartsInFlight
    · exact Or.inl ⟨.proceed, by simp [step, proceed, hphase, hroom]⟩
    · -- the limit is at least one, so there is a task to collect
      obtain ⟨ok, hok⟩ := hfirst fun hnil => hroom (by simpa [hnil] using hmax)
      exact Or.inl ⟨.join 0, by simp [step, join, hphase, hroom, hok]⟩
  | draining =>
    by_cases hnil : u.tasks = []
    · exact Or.inl ⟨.proceed, by simp [step, proceed, hphase, hnil]⟩
    · obtain ⟨ok, hok⟩ := hfirst hnil
      exact Or.inl ⟨.join 0, by simp [step, join, hphase, hok]⟩
  | completing => exact Or.inl ⟨.s3 true, by simp [step, s3, hphase]⟩
  | shutdown =>
    by_cases hnil : u.tasks = []
    · exact Or.inl ⟨.proceed, by simp [step, proceed, hphase, hnil]⟩
    · obtain ⟨ok, hok⟩ := hfirst hnil
      exact Or.inl ⟨.join 0, by simp [step, join, hphase, hok]⟩
  | aborting => exact Or.inl ⟨.s3 true, by simp [step, s3, hphase]⟩
  | returned =>
    rw [hphase] at hphaseOk
    exact absurd ⟨Or.inl hphase, List.length_eq_zero_iff.mp hphaseOk⟩ hover
  | dropped =>
    obtain ⟨ok, hok⟩ := hfirst fun hnil => hover ⟨Or.inr hphase, hnil⟩
    exact Or.inl ⟨.join 0, by simp [step, join, hphase, hok]⟩

/-- A call that is not over goes on, or stands in line and holds no permit. -/
theorem Upload.advance (hmax : 0 < l.maxPartsInFlight) {u : Upload} (hu : u.Ok l)
    (hover : ¬u.Over) (i : ℕ) (sem : Semaphore ℕ) :
    (∃ e r, e ≠ .cancel ∧ u.step l i sem e = some r) ∨
      (u.permits = 0 ∧ ∃ turn reserve, u.phase = .waiting turn reserve) := by
  by_cases htasks : ∀ t ∈ u.tasks, ∃ ok, t = Task.done ok
  · rcases advance_done hmax hu hover htasks i sem with hstep | ⟨turn, reserve, hphase⟩
    · exact Or.inl hstep
    · have hzero : (u.tasks.map Task.permits).sum = 0 := by
        refine List.sum_eq_zero fun n hn => ?_
        obtain ⟨t, ht, rfl⟩ := List.mem_map.mp hn
        obtain ⟨ok, rfl⟩ := htasks t ht
        rfl
      exact Or.inr ⟨by simp [permits, hphase, Phase.permits, hzero], turn, reserve, hphase⟩
  · -- a task that is not done goes on by itself
    push Not at htasks
    obtain ⟨t, ht, hdone⟩ := htasks
    obtain ⟨j, hj⟩ := List.getElem?_of_mem ht
    cases t with
    | uploading body permit => exact Or.inl ⟨.sent j true, by simp [step, hj]⟩
    | sent permit ok => exact Or.inl ⟨.finish j, by simp [step, hj]⟩
    | done ok => exact absurd rfl (hdone ok)

/-- **Uploads sharing the budget cannot wedge each other.** In every state a run leads to, as long
as a call or one of its tasks is not over, some call or task can go on. -/
theorem never_wedged (l : Budget) (hunits : l.partUnits ≤ l.totalUnits)
    (hmax : 1 ≤ l.maxPartsInFlight) {s : State} (h : Reach (step l) (fun _ _ => True) (init l) s)
    (hopen : ∃ u ∈ s.uploads, ¬u.Over) :
    ∃ i e s', e ≠ .cancel ∧ step l s (.upload i e) = some s' := by
  have hinv := inv_reach hmax h
  by_contra hnone
  -- a step of one call is a step of the system
  have hstuck : ∀ (i : ℕ) (u : Upload), s.uploads[i]? = some u → ∀ e, e ≠ .cancel →
      u.step l i s.sem e = none := by
    intro i u hu e he
    by_contra hsome
    obtain ⟨r, hr⟩ := Option.ne_none_iff_exists'.mp hsome
    exact hnone ⟨i, e, ⟨s.uploads.set i r.1, r.2⟩, he, by simp [step, hu, hr]⟩
  have hwait : ∀ (i : ℕ) (u : Upload), s.uploads[i]? = some u → ¬u.Over →
      u.permits = 0 ∧ ∃ turn reserve, u.phase = .waiting turn reserve := by
    intro i u hu hover
    rcases Upload.advance hmax (hinv.ok u (List.mem_of_getElem? hu)) hover i s.sem with
      ⟨e, r, he, hr⟩ | hwait
    · rw [hstuck i u hu e he] at hr
      exact absurd hr (by simp)
    · exact hwait
  -- so nobody holds a permit, and all of them are inside
  have hpermits : s.permits = 0 := by
    refine List.sum_eq_zero fun n hn => ?_
    obtain ⟨u, hu, rfl⟩ := List.mem_map.mp hn
    obtain ⟨i, hi⟩ := List.getElem?_of_mem hu
    by_cases hover : u.Over
    · exact hover.permits
    · exact (hwait i u hi hover).1
  have hinside : s.sem.inside = l.totalUnits := by
    have := hinv.conserved
    omega
  have hunmet : ∀ w ∈ s.sem.line, w.Unmet := by
    intro w hw
    by_contra hmet
    obtain ⟨r, hr⟩ := Semaphore.poll_isSome hw hmet
    obtain ⟨u, turn, reserve, hu, hphase, -⟩ := hinv.waiter hw
    have := hstuck w.id u hu .poll (by simp)
    simp [Upload.step, hphase, hr] at this
  have hline : s.sem.line ≠ [] := by
    obtain ⟨u, hu, hover⟩ := hopen
    obtain ⟨i, hi⟩ := List.getElem?_of_mem hu
    obtain ⟨-, turn, reserve, hphase⟩ := hwait i u hi hover
    refine Semaphore.exists_of_tickets (i := i) ?_
    rw [hinv.tickets, hi]
    simp [Upload.tickets, hphase, Phase.tickets]
  obtain ⟨w, hw, hlt⟩ := Semaphore.inside_lt_of_stuck hline hunmet
  obtain ⟨u, turn, reserve, -, -, hneeded⟩ := hinv.waiter hw
  have hle := l.units_le reserve
  omega

instance (u : Upload) : Decidable u.Over := inferInstanceAs (Decidable (_ ∧ _))

/-- Three calls on two slots: the third waits in line, and somebody can go on. -/
theorem never_wedged_three :
    let l : Budget := ⟨⟨8, 2, by decide⟩, 1, 8, 16⟩
    ∃ s, exec (step l) (fun _ _ => True)
        [.start 8, .start 8, .start 8, .upload 0 .acquire, .upload 1 .acquire, .upload 2 .acquire]
        (init l) = some s ∧
      ∃ i e s', e ≠ .cancel ∧ step l s (.upload i e) = some s' := by
  intro l
  obtain ⟨s, hs, hopen⟩ := exec_end (step l) (fun _ _ => True)
    [.start 8, .start 8, .start 8, .upload 0 .acquire, .upload 1 .acquire, .upload 2 .acquire]
    (init l) (fun s => ∃ u ∈ s.uploads, ¬u.Over) (by decide)
  exact ⟨s, hs, never_wedged l (by decide) (by decide) (exec_reach hs) hopen⟩

/-! ## The budget -/

/-- Every buffer of a call is charged to a reservation. -/
def Phase.Charged : Phase → Prop
  | .emptied _ _ | .letGo _ => False
  | _ => True

/-- A body that ends here does not end after a whole number of parts, one at least. -/
def EndsInPart (l : Budget) (s : State) : Act → Prop
  | .upload i (.read .eof) =>
    ∀ u ∈ s.uploads[i]?, ¬(0 < u.received ∧ l.partSize ∣ u.received)
  | _ => True

/-- What the budget promises of a state. -/
structure WithinBudget (l : Budget) (s : State) : Prop where
  /-- All part buffers together. -/
  bytes : (s.live.map fun e => e.1.cap).sum ≤ l.totalUnits * l.unit
  /-- Each has a reservation that covers it. -/
  covered : ∀ e ∈ s.live, ∃ permit, e.2 = some permit ∧ e.1.cap ≤ permit * l.unit
  /-- The reservations are permits the semaphore has not got. -/
  counted : s.sem.inside + s.permits = l.totalUnits
  /-- The part buffers of one call. -/
  parts : ∀ u ∈ s.uploads, u.live.length ≤ l.maxPartsInFlight
  filled : ∀ e ∈ s.live, e.1.len ≤ e.1.cap
  /-- A call that has returned has no task left; with all calls over, every permit is back. -/
  returned : ∀ u ∈ s.uploads, u.phase = .returned → u.tasks = []
  back : (∀ u ∈ s.uploads, u.Over) → s.sem.free = l.totalUnits

/-- Sums over parts, part by part. -/
theorem sum_flatMap_le {α β : Type} {f : α → List β} {g : β → ℕ} {k : α → ℕ} {xs : List α}
    (h : ∀ x ∈ xs, ((f x).map g).sum ≤ k x) :
    ((xs.flatMap f).map g).sum ≤ (xs.map k).sum := by
  induction xs with
  | nil => simp
  | cons x xs ih =>
    have hx := h x (List.mem_cons_self ..)
    have hxs := ih fun y hy => h y (List.mem_cons_of_mem _ hy)
    simp only [List.flatMap_cons, List.map_append, List.sum_append, List.map_cons, List.sum_cons]
    omega

namespace Upload

variable {u : Upload}

/-- The buffers of the tasks are paid for. -/
theorem Ok.task_paid (hu : u.Ok l) {e : Buffer × Option ℕ} (he : e ∈ u.tasks.flatMap Task.live) :
    ∃ permit, e.2 = some permit ∧ e.1.Paid l permit := by
  obtain ⟨t, ht, het⟩ := List.mem_flatMap.mp he
  have hok := hu.tasks t ht
  cases t with
  | uploading body permit =>
    rw [List.mem_singleton.mp het]
    exact ⟨permit, rfl, hok⟩
  | _ => exact absurd het (by simp [Task.live])

/-- The call's own buffer is paid for, or it is the empty one that lost its reservation. -/
theorem Ok.phase_paid (hu : u.Ok l) {e : Buffer × Option ℕ} (he : e ∈ u.phase.live) :
    (∃ permit, e.2 = some permit ∧ e.1.Paid l permit) ∨ (e.1.len = 0 ∧ u.phase = .letGo e.1) := by
  have hok := hu.phase
  cases hphase : u.phase with
  | filling turn part permit | probing part permit | putting part permit | creating part permit
  | emptied part permit =>
    rw [hphase] at he hok
    rw [List.mem_singleton.mp he]
    exact Or.inl ⟨permit, rfl, hok.1⟩
  | letGo part =>
    rw [hphase] at he hok
    rw [List.mem_singleton.mp he]
    exact Or.inr ⟨hok.1, rfl⟩
  | _ => exact absurd he (by simp [hphase, Phase.live])

/-- One call holds as many part buffers as it may have parts in flight. -/
theorem Ok.parts (hmax : 0 < l.maxPartsInFlight) (hu : u.Ok l) :
    u.live.length ≤ l.maxPartsInFlight := by
  have htasks : (u.tasks.flatMap Task.live).length ≤ u.tasks.length := by
    have hone : ∀ t ∈ u.tasks, (t.live.map fun _ => 1).sum ≤ 1 := fun t _ => by
      cases t <;> simp [Task.live]
    simpa using sum_flatMap_le hone
  have hok := hu.phase
  have hphase : u.phase.live.length + u.tasks.length ≤ l.maxPartsInFlight := by
    cases hp : u.phase with
    | acquire turn reserve | waiting turn reserve =>
      rw [hp] at hok
      have := Turn.Ok.tasks hmax hok
      simp only [Phase.live, List.length_nil]
      omega
    | reserved turn reserve permit =>
      rw [hp] at hok
      have := hok.1.tasks hmax
      simp only [Phase.live, List.length_nil]
      omega
    | filling turn part permit =>
      rw [hp] at hok
      obtain ⟨-, -, base, -, hturn⟩ := hok
      have := hturn.tasks hmax
      simp only [Phase.live, List.length_singleton]
      omega
    | _ =>
      rw [hp] at hok
      simp only [Phase.Ok] at hok
      simp only [Phase.live, List.length_singleton, List.length_nil]
      omega
  rw [live, List.length_append]
  omega

/-- The buffers of a charged call cost no more than its permits. -/
theorem Ok.bytes (hl : l.Covers) (hu : u.Ok l) (hc : u.phase.Charged) :
    (u.live.map fun e => e.1.cap).sum ≤ u.permits * l.unit := by
  have hpaid : ∀ {b : Buffer} {permit : ℕ}, b.Paid l permit → b.cap ≤ permit * l.unit :=
    fun hb => hb.permit ▸ hl _ hb.part
  have htasks : ((u.tasks.flatMap Task.live).map fun e => e.1.cap).sum ≤
      (u.tasks.map fun t => t.permits * l.unit).sum := by
    refine sum_flatMap_le fun t ht => ?_
    have hok := hu.tasks t ht
    cases t with
    | uploading body permit => simpa [Task.live, Task.permits] using hpaid hok
    | _ => simp [Task.live]
  have hphase : (u.phase.live.map fun e => e.1.cap).sum ≤ u.phase.permits * l.unit := by
    have hok := hu.phase
    cases hp : u.phase with
    | filling turn part permit | probing part permit | putting part permit
    | creating part permit =>
      rw [hp] at hok
      simpa [Phase.live, Phase.permits] using hpaid hok.1
    | emptied part permit | letGo part =>
      rw [hp] at hc
      exact hc.elim
    | _ => simp [Phase.live]
  rw [List.sum_map_mul_right] at htasks
  rw [live, List.map_append, List.sum_append, permits, Nat.add_mul]
  omega

end Upload

/-- What holds of every state, whether its buffers are charged or not. -/
theorem Inv.free {s : State} (h : Inv l s) (hover : ∀ u ∈ s.uploads, u.Over) :
    s.sem.free = l.totalUnits := by
  have hline : s.sem.line = [] := by
    by_contra hne
    obtain ⟨w, ws, hw⟩ := List.exists_cons_of_ne_nil hne
    obtain ⟨u, turn, reserve, hu, hphase, -⟩ := h.waiter (w := w) (by simp [hw])
    obtain ⟨hp, -⟩ := hover u (List.mem_of_getElem? hu)
    rw [hphase] at hp
    exact hp.elim (by simp) (by simp)
  have hpermits : s.permits = 0 := by
    refine List.sum_eq_zero fun n hn => ?_
    obtain ⟨u, hu, rfl⟩ := List.mem_map.mp hn
    exact (hover u hu).permits
  have := h.conserved
  simp only [Semaphore.inside, hline, Waiter.total_nil] at this
  omega

/-- **With every buffer charged, the budget is kept.** -/
theorem Inv.withinBudget (hl : l.Covers) (hmax : 0 < l.maxPartsInFlight) {s : State} (h : Inv l s)
    (hc : ∀ u ∈ s.uploads, u.phase.Charged) : WithinBudget l s := by
  have hpaid : ∀ e ∈ s.live, ∃ permit, e.2 = some permit ∧ e.1.Paid l permit := by
    intro e he
    obtain ⟨u, hu, heu⟩ := List.mem_flatMap.mp he
    rcases List.mem_append.mp heu with heu | heu
    · rcases (h.ok u hu).phase_paid heu with hpaid | ⟨-, hgone⟩
      · exact hpaid
      · have := hc u hu
        rw [hgone] at this
        exact this.elim
    · exact (h.ok u hu).task_paid heu
  refine ⟨?_, fun e he => ?_, h.conserved, fun u hu => (h.ok u hu).parts hmax, fun e he => ?_,
    fun u hu hret => ?_, h.free⟩
  · have hsum : (s.live.map fun e => e.1.cap).sum ≤
        (s.uploads.map fun u => u.permits * l.unit).sum :=
      sum_flatMap_le fun u hu => (h.ok u hu).bytes hl (hc u hu)
    rw [List.sum_map_mul_right] at hsum
    refine hsum.trans (Nat.mul_le_mul_right _ ?_)
    have hcons := h.conserved
    simp only [State.permits] at hcons
    omega
  · obtain ⟨permit, hp, hb⟩ := hpaid e he
    exact ⟨permit, hp, hb.permit ▸ hl _ hb.part⟩
  · obtain ⟨permit, -, hb⟩ := hpaid e he
    exact hb.filled
  · have hok := (h.ok u hu).phase
    rw [hret] at hok
    exact List.length_eq_zero_iff.mp hok

/-! ## Bodies that end within a part -/

instance (l : Budget) (s : State) (a : Act) : Decidable (EndsInPart l s a) := by
  unfold EndsInPart
  split <;> infer_instance

namespace Upload

theorem filled_charged {u : Upload} {turn : Turn} {part : Buffer} {permit : ℕ}
    (h : turn = .next → part.len ≠ 0) : (u.filled l turn part permit).phase.Charged := by
  cases turn with
  | first =>
    simp only [filled, shape]
    split
    · trivial
    · split <;> trivial
  | next =>
    simp only [filled, if_neg (h rfl)]
    split <;> trivial

theorem append_charged {u : Upload} {turn : Turn} {part : Buffer} {permit n : ℕ}
    (h : 0 < part.cap) : (u.append l turn part permit n).phase.Charged := by
  simp only [append]
  split
  · trivial
  · exact filled_charged fun _ => by simp only; omega

/-- A part comes out empty only where the body ends after whole parts. -/
theorem item_charged {u u' : Upload} {it : Item} (hu : u.Ok l)
    (hend : it = .eof → ¬(0 < u.received ∧ l.partSize ∣ u.received))
    (h : u.item l it = some u') : u'.phase.Charged := by
  have hok := hu.phase
  unfold item at h
  split at h
  · rename_i turn part permit n hphase
    rw [hphase] at hok
    simp only at h
    split at h
    · obtain rfl := Option.some.inj h
      exact append_charged (Nat.zero_lt_of_lt hok.2.1)
    · obtain rfl := Option.some.inj h
      exact append_charged (Nat.zero_lt_of_lt hok.2.1)
  · rename_i turn part permit hphase
    rw [hphase] at hok
    obtain rfl := Option.some.inj h
    obtain ⟨-, -, base, hr, hturn⟩ := hok
    refine filled_charged fun hnext h0 => hend rfl ?_
    subst hnext
    rw [hr, h0, Nat.add_zero]
    exact hturn.2.1
  · obtain rfl := Option.some.inj h
    trivial
  · rename_i first permit n hphase
    split at h
    · obtain rfl := Option.some.inj h
      rw [hphase]
      trivial
    · obtain rfl := Option.some.inj h
      trivial
  · obtain rfl := Option.some.inj h
    simp only [shape]
    split <;> trivial
  · obtain rfl := Option.some.inj h
    trivial
  · exact absurd h (by simp)

theorem s3_charged {u u' : Upload} {ok : Bool} (h : u.s3 ok = some u') : u'.phase.Charged := by
  unfold s3 at h
  split at h
  · obtain rfl := Option.some.inj h
    trivial
  · split at h <;> obtain rfl := Option.some.inj h <;> trivial
  · obtain rfl := Option.some.inj h
    cases ok <;> trivial
  · obtain rfl := Option.some.inj h
    trivial
  · exact absurd h (by simp)

theorem proceed_charged {u u' : Upload} {n : ℕ} (hc : u.phase.Charged)
    (h : u.proceed l = some (u', n)) : u'.phase.Charged := by
  unfold proceed at h
  split at h
  · rename_i permit after hphase
    obtain ⟨rfl, -⟩ := Prod.mk.inj (Option.some.inj h)
    cases after <;> trivial
  · rename_i part permit hphase
    rw [hphase] at hc
    exact hc.elim
  · obtain ⟨rfl, -⟩ := Prod.mk.inj (Option.some.inj h)
    trivial
  · split at h
    · obtain ⟨rfl, -⟩ := Prod.mk.inj (Option.some.inj h)
      trivial
    · exact absurd h (by simp)
  · split at h
    · obtain ⟨rfl, -⟩ := Prod.mk.inj (Option.some.inj h)
      trivial
    · exact absurd h (by simp)
  · split at h
    · obtain ⟨rfl, -⟩ := Prod.mk.inj (Option.some.inj h)
      trivial
    · exact absurd h (by simp)
  · exact absurd h (by simp)

theorem join_charged {u u' : Upload} {j : ℕ} (hc : u.phase.Charged)
    (h : u.join l j = some u') : u'.phase.Charged := by
  unfold join at h
  split at h
  · rename_i ok hj
    split at h
    · split at h
      · exact absurd h (by simp)
      · obtain rfl := Option.some.inj h
        cases ok <;> trivial
    · obtain rfl := Option.some.inj h
      cases ok <;> trivial
    · obtain rfl := Option.some.inj h
      exact hc
    · obtain rfl := Option.some.inj h
      exact hc
    · exact absurd h (by simp)
  · exact absurd h (by simp)

theorem cancel_charged {u u' : Upload} (h : u.cancel = some u') : u'.phase.Charged := by
  unfold cancel at h
  split at h
  all_goals
    first
    | obtain rfl := Option.some.inj h
      trivial
    | exact absurd h (by simp)

/-- One step leaves every buffer charged, unless the body ends after whole parts. -/
theorem step_charged {i : ℕ} {sem sem' : Semaphore ℕ} {u u' : Upload} {e : Event} (hu : u.Ok l)
    (hc : u.phase.Charged)
    (hend : e = .read .eof → ¬(0 < u.received ∧ l.partSize ∣ u.received))
    (h : u.step l i sem e = some (u', sem')) : u'.phase.Charged := by
  cases e with
  | acquire =>
    simp only [step] at h
    split at h
    · split at h <;> obtain ⟨rfl, -⟩ := Prod.mk.inj (Option.some.inj h) <;> trivial
    · exact absurd h (by simp)
  | poll =>
    simp only [step] at h
    split at h
    · obtain ⟨r, -, he⟩ := Option.map_eq_some_iff.mp h
      obtain ⟨rfl, -⟩ := Prod.mk.inj he
      trivial
    · exact absurd h (by simp)
  | alloc =>
    simp only [step] at h
    split at h
    · obtain ⟨rfl, -⟩ := Prod.mk.inj (Option.some.inj h)
      trivial
    · exact absurd h (by simp)
  | carry =>
    simp only [step] at h
    split at h
    · obtain ⟨u₁, hitem, he⟩ := Option.map_eq_some_iff.mp h
      obtain ⟨rfl, -⟩ := Prod.mk.inj he
      have hu' : Ok l { u with carry := none } := ⟨hu.phase, hu.tasks⟩
      exact item_charged hu' (by simp) hitem
    · exact absurd h (by simp)
  | read item =>
    simp only [step] at h
    split at h
    · obtain ⟨u₁, hitem, he⟩ := Option.map_eq_some_iff.mp h
      obtain ⟨rfl, -⟩ := Prod.mk.inj he
      exact item_charged hu (fun heof => hend (by rw [heof])) hitem
    · exact absurd h (by simp)
  | s3 ok =>
    obtain ⟨u₁, hs3, he⟩ := Option.map_eq_some_iff.mp h
    obtain ⟨rfl, -⟩ := Prod.mk.inj he
    exact s3_charged hs3
  | proceed =>
    obtain ⟨⟨u₁, n⟩, hproceed, he⟩ := Option.map_eq_some_iff.mp h
    obtain ⟨rfl, -⟩ := Prod.mk.inj he
    exact proceed_charged hc hproceed
  | join j =>
    obtain ⟨u₁, hjoin, he⟩ := Option.map_eq_some_iff.mp h
    obtain ⟨rfl, -⟩ := Prod.mk.inj he
    exact join_charged hc hjoin
  | sent j ok | finish j =>
    simp only [step] at h
    split at h
    · obtain ⟨rfl, -⟩ := Prod.mk.inj (Option.some.inj h)
      exact hc
    · exact absurd h (by simp)
  | abort j =>
    simp only [step] at h
    split at h
    · obtain ⟨rfl, -⟩ := Prod.mk.inj (Option.some.inj h)
      exact hc
    · obtain ⟨rfl, -⟩ := Prod.mk.inj (Option.some.inj h)
      exact hc
    · exact absurd h (by simp)
  | cancel =>
    obtain ⟨u₁, hcancel, he⟩ := Option.map_eq_some_iff.mp h
    obtain ⟨rfl, -⟩ := Prod.mk.inj he
    exact cancel_charged hcancel

/-- Where the body ends after whole parts, an empty part comes out. -/
theorem eof_emptied {i : ℕ} {sem sem' : Semaphore ℕ} {u u' : Upload} (hu : u.Ok l)
    (hend : 0 < u.received ∧ l.partSize ∣ u.received)
    (h : u.step l i sem (.read .eof) = some (u', sem')) :
    ∃ part permit, u'.phase = .emptied part permit := by
  have hok := hu.phase
  have hle := Nat.le_of_dvd hend.1 hend.2
  simp only [step] at h
  split at h
  · obtain ⟨u₁, hitem, he⟩ := Option.map_eq_some_iff.mp h
    obtain ⟨rfl, -⟩ := Prod.mk.inj he
    unfold item at hitem
    split at hitem
    · rename_i heof
      exact absurd heof (by simp)
    · rename_i turn part permit hphase _
      rw [hphase] at hok
      obtain ⟨hp, hlt, base, hr, hturn⟩ := hok
      have hpart := hp.part
      obtain rfl := Option.some.inj hitem
      cases turn with
      | first =>
        have := hturn.2.1
        omega
      | next =>
        -- what is in the part is less than a part, and a multiple of it
        have hdvd : l.partSize ∣ part.len := (Nat.dvd_add_right hturn.2.1.2).mp (hr ▸ hend.2)
        have h0 := Nat.eq_zero_of_dvd_of_lt hdvd (hlt.trans_le hpart)
        exact ⟨part, permit, by simp [filled, h0]⟩
    · rename_i heof
      exact absurd heof (by simp)
    · rename_i heof
      exact absurd heof (by simp)
    · rename_i first permit hphase _
      rw [hphase] at hok
      have := hok.2.1
      omega
    · rename_i heof
      exact absurd heof (by simp)
    · exact absurd hitem (by simp)
  · exact absurd h (by simp)

end Upload

/-- A run of bodies that end within a part leaves every buffer charged. -/
theorem charged_reach (hmax : 0 < l.maxPartsInFlight) {s : State}
    (h : Reach (step l) (EndsInPart l) (init l) s) :
    Inv l s ∧ ∀ u ∈ s.uploads, u.phase.Charged := by
  have hinit : Inv l (init l) ∧ ∀ u ∈ (init l).uploads, u.phase.Charged :=
    ⟨inv_init, by simp [init]⟩
  refine Reach.invariant (I := fun s => Inv l s ∧ ∀ u ∈ s.uploads, u.phase.Charged)
    (fun s a s' hi hend hs => ⟨inv_step hmax hi.1 hs, fun v hv => ?_⟩) h hinit
  cases a with
  | start firstPartHint =>
    obtain rfl := Option.some.inj hs
    rcases List.mem_append.mp hv with hv | hv
    · exact hi.2 v hv
    · rw [List.mem_singleton.mp hv]
      trivial
  | upload i e =>
    obtain ⟨u, u', sem', hu, hstep, rfl⟩ := step_upload hs
    have hmem := List.mem_of_getElem? hu
    rcases List.mem_or_eq_of_mem_set hv with hv | rfl
    · exact hi.2 v hv
    · refine Upload.step_charged (hi.1.ok u hmem) (hi.2 u hmem) (fun heof => ?_) hstep
      subst heof
      exact hend u hu

/-- A body that ends after whole parts leaves a part with no reservation. -/
theorem uncovered_of_not_endsInPart {s s₁ : State} {i : ℕ} (h : Inv l s)
    (hend : ¬EndsInPart l s (.upload i (.read .eof)))
    (hs : step l s (.upload i (.read .eof)) = some s₁) :
    ∃ s₂, step l s₁ (.upload i .proceed) = some s₂ ∧ ∃ e ∈ s₂.live, e.2 = none := by
  simp only [EndsInPart, not_forall, not_not] at hend
  obtain ⟨u, hu, hwhole⟩ := hend
  have hget : s.uploads[i]? = some u := hu
  simp only [step, hget] at hs
  obtain ⟨⟨u', sem'⟩, hstep, he⟩ := Option.map_eq_some_iff.mp hs
  subst he
  obtain ⟨part, permit, hphase⟩ :=
    Upload.eof_emptied (h.ok u (List.mem_of_getElem? hget)) hwhole hstep
  have hlt := (List.getElem?_eq_some_iff.mp hget).1
  have hlast : ((s.uploads.set i u')[i]?) = some u' := by simp [hlt]
  refine ⟨⟨(s.uploads.set i u').set i { u' with phase := .letGo part }, sem'.release permit⟩,
    by simp only [step, hlast, Upload.step, Upload.proceed, hphase, Option.map_some],
    (part, none), ?_, rfl⟩
  refine List.mem_flatMap.mpr ⟨{ u' with phase := .letGo part }, ?_, ?_⟩
  · exact List.mem_set (by simpa using hlt) _
  · simp [Upload.live, Phase.live]

section

variable (limits : UploadLimits) (cap : ℕ)

/-- **Upload memory stays within the budget.** For every configured part size, cap and limit on the
parts in flight: while no body ends after a whole number of parts, every state keeps the budget,
which is less than a unit above the cap, and no permit count leaves its type. Where a body does,
the next step of its call leaves a buffer that no reservation covers. -/
theorem memory_within_budget (hmin : minPartSize ≤ limits.partSize)
    (hmax : limits.partSize ≤ maxPartSize) (hcap : limits.partSize ≤ cap) (hcap' : cap ≤ usizeMax)
    (hparts : 1 ≤ limits.maxPartsInFlight) :
    let l := Budget.new limits cap
    (∀ s, Reach (step l) (EndsInPart l) (init l) s → WithinBudget l s) ∧
      (l.totalUnits * l.unit < cap + l.unit ∧ l.InRange) ∧
      ∀ s s₁ i, Reach (step l) (fun _ _ => True) (init l) s →
        ¬EndsInPart l s (.upload i (.read .eof)) →
        step l s (.upload i (.read .eof)) = some s₁ →
        ∃ s₂, step l s₁ (.upload i .proceed) = some s₂ ∧ ¬WithinBudget l s₂ := by
  intro l
  have hpos : 0 < l.maxPartsInFlight := hparts
  refine ⟨fun s h => ?_, ⟨budget_bytes_lt hcap, new_inRange hmin hmax hcap'⟩,
    fun s s₁ i h hend hs => ?_⟩
  · obtain ⟨hinv, hcharged⟩ := charged_reach hpos h
    exact hinv.withinBudget (unitsFor_covers limits cap) hpos hcharged
  · obtain ⟨s₂, hs₂, e, he, hnone⟩ := uncovered_of_not_endsInPart (inv_reach hpos h) hend hs
    refine ⟨s₂, hs₂, fun hb => ?_⟩
    obtain ⟨permit, hsome, -⟩ := hb.covered e he
    rw [hnone] at hsome
    exact absurd hsome (by simp)

end

/-- The smallest part size, two parts in flight, and room for one part. -/
def smallest : Budget := Budget.new ⟨minPartSize, 2, by decide⟩ minPartSize

/-- A body of one part; a second call comes while the empty second part is dropped. -/
def oneWholePart : List Act :=
  [.start minPartSize, .upload 0 .acquire, .upload 0 .alloc,
    .upload 0 (.read (.chunk minPartSize)), .upload 0 (.s3 true), .upload 0 .proceed,
    .upload 0 .acquire, .upload 0 (.sent 0 true), .upload 0 (.finish 0), .upload 0 .poll,
    .upload 0 .alloc, .upload 0 (.read .eof), .upload 0 .proceed,
    .start minPartSize, .upload 1 .acquire, .upload 1 .alloc]

/-- **Two part buffers are alive on a budget of one part.** -/
theorem two_parts_on_one :
    ∃ s, Reach (step smallest) (fun _ _ => True) (init smallest) s ∧
      (smallest.totalUnits * smallest.unit < (s.live.map fun e => e.1.cap).sum ∧
        ∃ e ∈ s.live, e.2 = none) :=
  exec_check (step smallest) (fun _ _ => True) oneWholePart (init smallest) _ (by decide +kernel)

/-- A body of one part and a byte; a second call's seven bytes go between its parts. -/
def endingInParts : List Act :=
  [.start minPartSize, .upload 0 .acquire, .upload 0 .alloc,
    .upload 0 (.read (.chunk minPartSize)), .start 7, .upload 1 .acquire, .upload 0 (.s3 true),
    .upload 0 .proceed, .upload 0 .acquire, .upload 0 (.sent 0 true), .upload 0 (.finish 0),
    .upload 1 .poll, .upload 1 .alloc, .upload 1 (.read (.chunk 7)), .upload 1 (.read .eof),
    .upload 1 (.s3 true), .upload 1 .proceed, .upload 0 .poll, .upload 0 .alloc,
    .upload 0 (.read (.chunk 1)), .upload 0 (.read .eof)]

/-- At the smallest part size, with room for one part: where the last part has its byte, there is
that buffer and the budget is kept. -/
theorem memory_within_budget_in_parts :
    ∃ s, Reach (step smallest) (EndsInPart smallest) (init smallest) s ∧
      s.live.map (fun e => (e.1.cap, e.1.len)) = [(minPartSize, 1)] ∧ s.uploads.length = 2 ∧
      WithinBudget smallest s := by
  obtain ⟨s, hs, hlive, hlen⟩ := exec_check (step smallest) (EndsInPart smallest) endingInParts
    (init smallest)
    (fun s => s.live.map (fun e => (e.1.cap, e.1.len)) = [(minPartSize, 1)] ∧ s.uploads.length = 2)
    (by decide +kernel)
  have hlaw := memory_within_budget ⟨minPartSize, 2, by decide⟩ minPartSize (Nat.le_refl _)
    (by decide) (Nat.le_refl _) (by decide) (by decide)
  exact ⟨s, hs, hlive, hlen, hlaw.1 s hs⟩

end Garret.Slots
