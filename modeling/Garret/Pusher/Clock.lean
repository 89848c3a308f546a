import Garret.Pusher.System

/-!
# Times

Tasks read the clock once and use the reading later: an upload stamps its row before the insert
waits for the connection, an eviction pass takes the time of its candidate query, a prune that of
its mark, fsck that of its start and of its classification. `Task.stamps` are the readings a task
still uses. Under a clock that never goes back (`Steady`) none of them is ahead of it
(`timed_reach`).
-/

namespace Garret

open Garret.Lib

/-- The readings of the clock a run of fsck still uses. -/
def Fsck.stamps : Fsck → List Int
  | .drain run => [run.startedAt]
  | .list run _ _ => [run.startedAt]
  | .rows run _ => [run.startedAt]
  | .listed run _ _ => [run.startedAt]
  | .classify run _ now _ _ _ => [run.startedAt, now]
  | .repair run _ _ => [run.startedAt]
  | _ => []

/-- The readings of the clock a task still uses. -/
def Task.stamps : Task → List Int
  | .upload (.insert _ _ at' _) => [at']
  | .gc g => g.stamps
  | .prune (.claims now _ _ _) => [now]
  | .prune (.order now _) => [now]
  | .prune (.batches now _ _) => [now]
  | .fsck f => f.stamps
  | _ => []

theorem Fsck.step_stamps {δ : Type} {env : Env δ} {me : ℕ} {w w' : World} {o : Oracle}
    {s s' : Fsck} (h : Fsck.Stepped env me w o s w' s') :
    ∀ c ∈ s'.stamps, c ∈ s.stamps ∨ c = w.clock := by
  cases h with
  | began hf hs =>
    rcases hs with rfl | rfl
    · exact fun c hc => Or.inr (List.mem_singleton.mp hc)
    · exact fun c hc => Or.inr (List.mem_singleton.mp hc)
  | timed =>
    intro c hc
    rcases List.mem_cons.mp hc with rfl | hc
    · exact Or.inl List.mem_cons_self
    · exact Or.inr (List.mem_singleton.mp hc)
  | repairing => exact fun c hc => Or.inl (List.mem_cons.mpr (Or.inl (List.mem_singleton.mp hc)))
  | left hf => exact fun c hc => absurd hc List.not_mem_nil
  | drained => exact fun c hc => Or.inl hc
  | paged hu => exact fun c hc => Or.inl hc
  | lastPage hu => exact fun c hc => Or.inl hc
  | rowsListed hr => exact fun c hc => Or.inl hc
  | classified => exact fun c hc => Or.inl hc
  | skipped => exact fun c hc => Or.inl hc
  | repaired hfree hrow hat => exact fun c hc => Or.inl hc

/-- The timestamp of the row an upload is about to insert. -/
def Task.insertsAt : Task → Option Int
  | .upload (.insert _ _ at' _) => some at'
  | _ => none

/-- The time a step that collects rows judges them by. -/
def Task.collectsAt : Task → Option Int
  | .gc (.evict _ at' _ _ _ _) => some at'
  | .prune (.batches now _ _) => some now
  | _ => none

theorem Task.collectsAt_stamp {t : Task} {now : Int} (h : t.collectsAt = some now) :
    now ∈ t.stamps := by
  unfold collectsAt at h
  split at h
  · obtain rfl := Option.some.inj h
    exact List.mem_singleton.mpr rfl
  · obtain rfl := Option.some.inj h
    exact List.mem_singleton.mpr rfl
  · exact absurd h (by simp)

/-- **A task takes its times from the clock.** -/
theorem Task.step_stamps {δ : Type} {env : Env δ} {me : ℕ} {w w' : World} {o : Oracle}
    {t t' : Task} (h : Task.Stepped env me w o t w' t') :
    ∀ c ∈ t'.stamps, c ∈ t.stamps ∨ c = w.clock := by
  cases h with
  | upload h =>
    cases h with
    | stamped => exact fun c hc => Or.inr (List.mem_singleton.mp hc)
    | _ => exact fun c hc => absurd hc List.not_mem_nil
  | dropped h =>
    rcases Upload.drop_cases h with ⟨-, rfl, hash, rfl⟩ | ⟨hash, -, rfl, rfl⟩ |
      ⟨hash, obj, at', attached, rfl, rfl, rfl⟩
    · exact fun c hc => absurd hc List.not_mem_nil
    · exact fun c hc => absurd hc List.not_mem_nil
    · exact fun c hc => Or.inl hc
  | gc h => exact Gc.step_stamps h
  | prune h =>
    cases h with
    | marked hfree hp => exact fun c hc => Or.inr (List.mem_singleton.mp hc)
    | claimed hf => exact fun c hc => Or.inl hc
    | ordering => exact fun c hc => Or.inl hc
    | ordered ho => exact fun c hc => Or.inl hc
    | pruned hfree => exact fun c hc => Or.inl hc
    | _ => exact fun c hc => absurd hc List.not_mem_nil
  | fsck h => exact Fsck.step_stamps h
  | _ => exact fun c hc => absurd hc List.not_mem_nil

/-- A step that leaves an upload at its insert either stamped it just now or found it there. -/
theorem Task.step_insert {δ : Type} {env : Env δ} {me : ℕ} {w w' : World} {o : Oracle} {t : Task} {hash : String}
    {obj : Object} {at' : Int} {attached : Bool}
    (h : Task.Stepped env me w o t w' (.upload (.insert hash obj at' attached))) :
    at' = w.clock ∨ ∃ before, t = .upload (.insert hash obj at' before) := by
  cases h with
  | upload h =>
    cases h with
    | stamped => exact Or.inl rfl
  | dropped h =>
    rcases Upload.drop_cases h with ⟨-, -, k, hbad⟩ | ⟨k, -, -, hbad⟩ |
      ⟨k, ob, c, before, rfl, -, heq⟩
    · exact absurd hbad (by simp)
    · exact absurd hbad (by simp)
    · cases heq
      exact Or.inr ⟨before, rfl⟩

theorem Task.initial_stamps {t : Task} (h : t.initial = true) : t.stamps = [] := by
  cases t with
  | upload u =>
    cases u with
    | start hash subject => rfl
    | _ => exact absurd h (by simp [Task.initial])
  | gc g =>
    cases g with
    | start => rfl
    | _ => exact absurd h (by simp [Task.initial])
  | prune p =>
    cases p with
    | start before dryRun => rfl
    | _ => exact absurd h (by simp [Task.initial])
  | fsck f =>
    cases f with
    | start verifySizes mode => rfl
    | _ => exact absurd h (by simp [Task.initial])
  | _ => rfl

namespace Sys

variable {δ : Type} {env : Env δ} {s s' : Sys} {a : Act}

/-- The clock does not go back. -/
def Steady (s : Sys) : Act → Prop
  | .tick now => s.world.clock ≤ now
  | _ => True

instance (s : Sys) (a : Act) : Decidable (Steady s a) := by
  cases a <;> unfold Steady <;> infer_instance

/-- No task has a time ahead of the clock. -/
def Timed (s : Sys) : Prop :=
  ∀ i t, s.task? i = some t → ∀ c ∈ t.stamps, c ≤ s.world.clock

theorem clock_mono (hi : Inv env s) (ha : Steady s a) (h : s.step env a = some s') :
    s.world.clock ≤ s'.world.clock := by
  obtain ⟨e, -, -, hc | rfl⟩ := step_effect hi h
  · exact le_of_eq hc.symm
  · exact ha

theorem timed_boot (db : Db) (bucket : Table String Bytes) (clock : Int) :
    Timed (boot db bucket clock) :=
  fun _ _ h => absurd h (by simp [boot, task?])

theorem timed_step (hi : Inv env s) (ht : Timed s) (ha : Steady s a)
    (h : s.step env a = some s') : Timed s' := by
  have hmono := clock_mono hi ha h
  have hstay : ∀ {j t}, s.task? j = some t → ∀ c ∈ t.stamps, c ≤ s'.world.clock :=
    fun hj c hc => le_trans (ht _ _ hj c hc) hmono
  cases step_cases h with
  | @spawned i t hnone hinit =>
    intro j u hu c hc
    rw [task?_put] at hu
    split at hu
    · obtain rfl := Option.some.inj hu
      rw [Task.initial_stamps hinit] at hc
      exact absurd hc List.not_mem_nil
    · exact hstay hu c hc
  | @ran a i o t t' w' ha' ht' hrun =>
    intro j u hu c hc
    rw [task?_put] at hu
    split at hu
    · obtain rfl := Option.some.inj hu
      rcases Task.step_stamps hrun c hc with hold | rfl
      · exact hstay ht' c hold
      · exact hmono
    · exact hstay hu c hc
  | crashed => exact timed_boot _ _ _
  | ticked => exact fun j t hj c hc => hstay hj c hc
  | outside => exact fun j t hj c hc => hstay hj c hc

/-- **Every time a task uses lies in the past**, in every state a started process reaches. -/
theorem timed_reach {ok : Sys → Act → Prop} {s₀ s : Sys} (h : Reach (step env) ok s₀ s)
    (hok : ∀ s a, ok s a → Steady s a) (h₀ : Inv env s₀) (ht : Timed s₀) : Timed s :=
  (h.invariant (I := fun s => Inv env s ∧ Timed s)
    (fun _ _ _ hi ha hs => ⟨inv_step hi.1 hs, timed_step hi.1 hi.2 (hok _ _ ha) hs⟩) ⟨h₀, ht⟩).2

/-- Every upload commits its row at most `wait` after it took the row's timestamp. -/
def Prompt (wait : Int) (s : Sys) (a : Act) : Prop :=
  match a.runs.bind s.task? with
  | some (.upload (.insert _ _ at' _)) => s.world.clock - at' ≤ wait
  | _ => True

theorem prompt_iff (wait : Int) (s : Sys) (a : Act) :
    (∀ at' ∈ (a.runs.bind s.task?).bind Task.insertsAt, s.world.clock - at' ≤ wait) ↔
      Prompt wait s a := by
  unfold Prompt
  cases a.runs.bind s.task? with
  | none => simp
  | some t =>
    cases t with
    | upload u => cases u <;> simp [Task.insertsAt]
    | _ => simp [Task.insertsAt]

instance (wait : Int) (s : Sys) (a : Act) : Decidable (Prompt wait s a) :=
  decidable_of_iff _ (prompt_iff wait s a)

/-- An insert carries a timestamp at most `wait` old. -/
theorem Inv.inserted_prompt {wait : Int} {obj : Object} {at' : Int} (hi : Inv env s)
    (hp : Prompt wait s a) (hc : Causes s a (.inserted obj at')) : s.world.clock - at' ≤ wait := by
  cases hc with
  | @task i t e ha ht hal =>
    obtain ⟨hash, attached, rfl, -⟩ := hi.inserted ht hal rfl
    have htask : a.runs.bind s.task? = some (.upload (.insert hash obj at' attached)) := by
      rw [ha]
      exact ht
    unfold Prompt at hp
    rw [htask] at hp
    exact hp

/-- **A row that is collected was last pushed before the grace.** -/
theorem Collected.stale {hash : String} {e : Effect} (h : Collected s a hash e) :
    ∃ i t now row, a.runs = some i ∧ s.task? i = some t ∧ t.collectsAt = some now ∧
      s.world.row? hash = some row ∧ row.pushedAt < now - pushGrace := by
  cases h with
  | @evicted i row usage at' candidates d res ha ht hrow hev =>
    exact ⟨i, _, at', row, ha, ht, rfl, hrow, evictableWhere_pushedAt hev⟩
  | @pruned i now doomed batch todo ha ht hp hin =>
    obtain ⟨b, hb, rfl⟩ := List.mem_map.mp hin
    obtain ⟨row, hrow, -, hlt⟩ := hp.row b (List.mem_append_left _ hb)
    exact ⟨i, _, now, row, ha, ht, rfl, hrow, hlt⟩

end Sys

end Garret
