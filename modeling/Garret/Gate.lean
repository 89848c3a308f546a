import Garret.InFlight
import Garret.Lib.Run
import Mathlib.Data.List.Perm.Basic

/-!
# Claims, guards and drains in any order

`Claim` and `QuiesceGuard` values live on any number of threads and are dropped in any order. A
`Gate` is the in-flight map with the values that are alive: the claims with what they were granted
for, and the guards with the `drain` calls that run on them. A guard is dropped only when no drain
borrows it.

The drop of an upload claim changes the map under the lock and wakes the waiters after it, so other
steps fall in between (`notices`). A drain registers with `Notify` before it looks at the count, so
the wake-up reaches it wherever it is (`Drain.notify`).

* `gate_sound`: the map, the two counters and the live values agree in every state, and what is
  refused or granted follows from the live values.
* `Inv.wakes`: a drain that sleeps without a wake-up has an upload to wait for, or a wake-up is on
  its way.
-/

namespace Garret

open Garret.Lib

/-- Where a drain stands. `notified` once `notify_waiters` has reached its registration. -/
inductive Drain where
  /-- At the head of the loop. -/
  | start
  /-- Registered, before the look at the count. -/
  | armed (notified : Bool)
  /-- In `notified.await`. -/
  | asleep (notified : Bool)
  deriving DecidableEq, Repr

/-- `notify_waiters`, for one drain. -/
def Drain.notify : Drain → Drain
  | start => start
  | armed _ => armed true
  | asleep _ => asleep true

/-- The map, the live claims, the live guards with their drains, and the upload claims whose drop
has yet to wake the waiters. -/
structure Gate where
  map : InFlight
  live : List (String × Kind)
  guards : List (List Drain)
  notices : ℕ

namespace Gate

/-- Nothing is alive. -/
def new : Gate := ⟨.new, [], [], 0⟩

/-- What any thread may do next. -/
inductive Act where
  | claim (hash : String)
  | claimDelete (hash : String)
  /-- The `i`-th live claim is dropped. -/
  | drop (i : ℕ)
  /-- A dropped upload claim wakes the waiters. -/
  | notify
  | quiesce
  /-- The `g`-th guard is dropped. -/
  | unquiesce (g : ℕ)
  /-- `drain` is called on the `g`-th guard. -/
  | drain (g : ℕ)
  /-- The `d`-th drain of the `g`-th guard goes on. -/
  | poll (g d : ℕ)
  /-- It times out, or is cancelled. -/
  | leave (g d : ℕ)
  deriving DecidableEq, Repr

/-- The drains of guard `g` become `ds`. -/
def setDrains (s : Gate) (g : ℕ) (ds : List Drain) : Gate := { s with guards := s.guards.set g ds }

/-- One step; `none` when it is not possible. -/
def step (s : Gate) : Act → Option Gate
  | .claim hash =>
    match s.map.claim hash with
    | .error _ => some s
    | .ok map => some { s with map := map, live := (hash, .upload) :: s.live }
  | .claimDelete hash =>
    match s.map.claimDelete hash with
    | .error _ => some s
    | .ok map => some { s with map := map, live := (hash, .delete) :: s.live }
  | .drop i =>
    s.live[i]?.map fun c =>
      { s with
        map := s.map.release c.1
        live := s.live.eraseIdx i
        notices := if s.map.kind c.1 = some .upload then s.notices + 1 else s.notices }
  | .notify =>
    if 0 < s.notices then
      some { s with guards := s.guards.map (List.map Drain.notify), notices := s.notices - 1 }
    else none
  | .quiesce => some { s with map := s.map.quiesce, guards := [] :: s.guards }
  | .unquiesce g =>
    match s.guards[g]? with
    | some [] => some { s with map := s.map.unquiesce, guards := s.guards.eraseIdx g }
    | _ => none
  | .drain g => s.guards[g]?.map fun ds => s.setDrains g (.start :: ds)
  | .poll g d =>
    s.guards[g]?.bind fun ds => ds[d]?.bind fun
      | .start => some (s.setDrains g (ds.set d (.armed false)))
      | .armed notified =>
        if s.map.uploads = 0 then some (s.setDrains g (ds.eraseIdx d))
        else some (s.setDrains g (ds.set d (.asleep notified)))
      | .asleep true => some (s.setDrains g (ds.set d .start))
      | .asleep false => none
  | .leave g d => s.guards[g]?.bind fun ds => ds[d]?.map fun _ => s.setDrains g (ds.eraseIdx d)

/-- The step is a drain on a live guard returning `true`. -/
def drained (s : Gate) : Act → Bool
  | .poll g d =>
    match s.guards[g]?.bind fun ds => ds[d]? with
    | some (.armed _) => s.map.uploads == 0
    | _ => false
  | _ => false

/-! ## The steps -/

/-- The steps, one constructor each. -/
inductive Stepped (s : Gate) : Gate → Prop
  /-- A claim is refused. -/
  | refused : Stepped s s
  | granted {hash : String} {k : Kind} {map : InFlight} (ht : s.map.take hash k = .ok map)
    (hopen : k = .upload → s.map.quiescers = 0) :
    Stepped s { s with map := map, live := (hash, k) :: s.live }
  | dropped {i : ℕ} {c : String × Kind} {notices : ℕ} (hc : s.live[i]? = some c)
    (hn : s.notices ≤ notices ∧ (s.map.kind c.1 = some .upload → 0 < notices)) :
    Stepped s { s with map := s.map.release c.1, live := s.live.eraseIdx i, notices := notices }
  | notified : Stepped s
      { s with guards := s.guards.map (List.map Drain.notify), notices := s.notices - 1 }
  | shut : Stepped s { s with map := s.map.quiesce, guards := [] :: s.guards }
  | opened {g : ℕ} (hg : s.guards[g]? = some []) :
    Stepped s { s with map := s.map.unquiesce, guards := s.guards.eraseIdx g }
  /-- A drain starts, goes on or ends; it falls asleep only while there is an upload. -/
  | drains {g : ℕ} {ds ds' : List Drain} (hg : s.guards[g]? = some ds)
    (hd : Drain.asleep false ∈ ds' → Drain.asleep false ∈ ds ∨ 0 < s.map.uploads) :
    Stepped s (s.setDrains g ds')

variable {s s' : Gate} {a : Act}

theorem step_cases (h : s.step a = some s') : Stepped s s' := by
  cases a with
  | claim hash =>
    simp only [step] at h
    split at h
    · obtain rfl := Option.some.inj h
      exact .refused
    · rename_i map hm
      obtain rfl := Option.some.inj h
      refine .granted (InFlight.claim_ok hm) fun _ => ?_
      unfold InFlight.claim at hm
      split at hm
      · exact absurd hm (by simp)
      · omega
  | claimDelete hash =>
    simp only [step] at h
    split at h
    · obtain rfl := Option.some.inj h
      exact .refused
    · rename_i map hm
      obtain rfl := Option.some.inj h
      exact .granted hm (by simp)
  | drop i =>
    obtain ⟨c, hc, rfl⟩ := Option.map_eq_some_iff.mp h
    refine .dropped hc ⟨?_, fun hk => ?_⟩
    · split <;> omega
    · rw [if_pos hk]
      omega
  | notify =>
    simp only [step] at h
    split at h
    · obtain rfl := Option.some.inj h
      exact .notified
    · exact absurd h (by simp)
  | quiesce =>
    obtain rfl := Option.some.inj h
    exact .shut
  | unquiesce g =>
    simp only [step] at h
    split at h
    · rename_i hg
      obtain rfl := Option.some.inj h
      exact .opened hg
    · exact absurd h (by simp)
  | drain g =>
    obtain ⟨ds, hg, rfl⟩ := Option.map_eq_some_iff.mp h
    refine .drains hg fun hin => ?_
    rcases List.mem_cons.mp hin with heq | hin
    · exact absurd heq (by simp)
    · exact Or.inl hin
  | poll g d =>
    obtain ⟨ds, hg, h⟩ := Option.bind_eq_some_iff.mp h
    obtain ⟨x, hx, h⟩ := Option.bind_eq_some_iff.mp h
    -- a drain in another phase is no sleeper
    have hset : ∀ {y : Drain}, y ≠ .asleep false → Drain.asleep false ∈ ds.set d y →
        Drain.asleep false ∈ ds := by
      intro y hy hin
      rcases List.mem_or_eq_of_mem_set hin with hin | heq
      · exact hin
      · exact absurd heq.symm hy
    cases x with
    | start =>
      obtain rfl := Option.some.inj h
      exact .drains hg fun hin => Or.inl (hset (by simp) hin)
    | armed notified =>
      simp only at h
      split at h
      · obtain rfl := Option.some.inj h
        exact .drains hg fun hin => Or.inl (List.mem_of_mem_eraseIdx hin)
      · rename_i hup
        obtain rfl := Option.some.inj h
        exact .drains hg fun _ => Or.inr (by omega)
    | asleep notified =>
      cases notified with
      | false => exact absurd h (by simp)
      | true =>
        obtain rfl := Option.some.inj h
        exact .drains hg fun hin => Or.inl (hset (by simp) hin)
  | leave g d =>
    obtain ⟨ds, hg, h⟩ := Option.bind_eq_some_iff.mp h
    obtain ⟨x, -, rfl⟩ := Option.map_eq_some_iff.mp h
    exact .drains hg fun hin => Or.inl (List.mem_of_mem_eraseIdx hin)

/-! ## The invariant -/

/-- The number of live upload claims. -/
def uploadClaims (s : Gate) : ℕ := s.live.countP fun c => c.2 = .upload

/-- The map and the counters agree with what is alive. -/
structure Inv (s : Gate) : Prop where
  owned : Owned s.map.kind fun _ : Unit => s.live
  uploads : s.map.uploads = s.uploadClaims
  quiescers : s.map.quiescers = s.guards.length
  wakes : ∀ ds ∈ s.guards, Drain.asleep false ∈ ds → 0 < s.map.uploads ∨ 0 < s.notices

theorem inv_new : Inv new :=
  ⟨Owned.empty, rfl, rfl, fun _ h => absurd h List.not_mem_nil⟩

/-- What is alive is in the map, and nothing else. -/
theorem Inv.kind_iff (hi : Inv s) {hash : String} {k : Kind} :
    s.map.kind hash = some k ↔ (hash, k) ∈ s.live := by
  constructor
  · intro h
    obtain ⟨_, hin⟩ := hi.owned.live hash k h
    exact hin
  · intro h
    exact (hi.owned.holder ()).held _ h

/-- The only owner moves. -/
theorem owned_move {c c' : String → Option Kind} {H H' : List (String × Kind)}
    (ho : Owned c fun _ : Unit => H) (hm : Move c c' H H') : Owned c' fun _ : Unit => H' := by
  have h := ho.move (i := ()) hm
  have heq : Function.update (fun _ : Unit => H) () H' = fun _ => H' := by
    funext u
    rfl
  rwa [heq] at h

theorem Inv.granted {hash : String} {k : Kind} {map : InFlight} (hi : Inv s)
    (ht : s.map.take hash k = .ok map) :
    Inv { s with map := map, live := (hash, k) :: s.live } := by
  have hm := InFlight.take_move ht (hi.owned.holder ()) (.refl _)
  have hmap : map.uploads = (if k = .upload then s.map.uploads + 1 else s.map.uploads) ∧
      map.quiescers = s.map.quiescers := by
    unfold InFlight.take at ht
    split at ht
    · exact absurd ht (by simp)
    · exact absurd ht (by simp)
    · obtain rfl := Except.ok.inj ht
      exact ⟨rfl, rfl⟩
  refine ⟨owned_move hi.owned hm, ?_, hmap.2.trans hi.quiescers, fun ds hds hin => ?_⟩
  · rw [hmap.1, hi.uploads]
    unfold uploadClaims
    rw [List.countP_cons]
    by_cases hk : k = .upload <;> simp [hk]
  · rcases hi.wakes ds hds hin with hup | hn
    · left
      change 0 < map.uploads
      rw [hmap.1]
      split <;> omega
    · exact Or.inr hn

theorem Inv.dropped {i : ℕ} {c : String × Kind} {notices : ℕ} (hi : Inv s)
    (hc : s.live[i]? = some c) (hle : s.notices ≤ notices)
    (hn : s.map.kind c.1 = some .upload → 0 < notices) :
    Inv { s with map := s.map.release c.1, live := s.live.eraseIdx i, notices := notices } := by
  obtain ⟨hash, k⟩ := c
  have hperm : s.live.Perm ((hash, k) :: s.live.eraseIdx i) := by
    obtain ⟨hlt, hget⟩ := List.getElem?_eq_some_iff.mp hc
    rw [← hget]
    exact (List.getElem_cons_eraseIdx_perm hlt).symm
  have hm := InFlight.release_move (hi.owned.holder ()) hperm
  have hkind : s.map.kind hash = some k := hi.kind_iff.mpr (List.mem_of_getElem? hc)
  have hcount : s.uploadClaims = (s.live.eraseIdx i).countP (fun c => c.2 = .upload) +
      if k = .upload then 1 else 0 := by
    unfold uploadClaims
    rw [hperm.countP_eq, List.countP_cons]
    simp
  refine ⟨owned_move hi.owned hm, ?_, hi.quiescers, fun ds hds hin => ?_⟩
  · change (if s.map.kind hash = some .upload then s.map.uploads - 1 else s.map.uploads) =
      (s.live.eraseIdx i).countP _
    rw [hkind, hi.uploads, hcount]
    by_cases hk : k = .upload
    · simp [hk]
    · simp [hk]
  · by_cases hk : k = .upload
    · subst hk
      exact Or.inr (hn hkind)
    · rcases hi.wakes ds hds hin with hup | hnot
      · left
        change 0 < if s.map.kind hash = some .upload then s.map.uploads - 1 else s.map.uploads
        rw [hkind, if_neg (by simpa using hk)]
        exact hup
      · exact Or.inr (Nat.lt_of_lt_of_le hnot hle)

/-- **Every step keeps the map, the counters and the live values in step.** -/
theorem inv_step (hi : Inv s) (h : s.step a = some s') : Inv s' := by
  cases step_cases h with
  | refused => exact hi
  | granted ht hopen => exact hi.granted ht
  | dropped hc hn => exact hi.dropped hc hn.1 hn.2
  | notified =>
    refine ⟨hi.owned, hi.uploads, ?_, fun ds hds hin => ?_⟩
    · rw [List.length_map]
      exact hi.quiescers
    · -- every sleeper has been woken
      obtain ⟨ds₀, -, rfl⟩ := List.mem_map.mp hds
      obtain ⟨x, -, hx⟩ := List.mem_map.mp hin
      cases x <;> exact absurd hx (by simp [Drain.notify])
  | shut =>
    refine ⟨hi.owned, hi.uploads, congrArg (· + 1) hi.quiescers, fun ds hds hin => ?_⟩
    rcases List.mem_cons.mp hds with rfl | hds
    · exact absurd hin List.not_mem_nil
    · exact hi.wakes ds hds hin
  | opened hg =>
    refine ⟨hi.owned, hi.uploads, ?_, fun ds hds hin =>
      hi.wakes ds (List.mem_of_mem_eraseIdx hds) hin⟩
    rw [List.length_eraseIdx_of_lt (List.getElem?_eq_some_iff.mp hg).1]
    exact congrArg (· - 1) hi.quiescers
  | @drains g ds ds' hg hd =>
    refine ⟨hi.owned, hi.uploads, ?_, fun x hx hin => ?_⟩
    · rw [setDrains, List.length_set]
      exact hi.quiescers
    · rcases List.mem_or_eq_of_mem_set hx with hx | rfl
      · exact hi.wakes x hx hin
      · rcases hd hin with hold | hup
        · exact hi.wakes ds (List.mem_of_getElem? hg) hold
        · exact Or.inl hup

/-! ## The gate -/

/-- While a guard lives no upload starts, so none is running once none was. -/
theorem quiet_step (hi : Inv s) (hg : s.guards ≠ []) (hq : s.map.uploads = 0)
    (h : s.step a = some s') : s'.map.uploads = 0 := by
  have hpos : 0 < s.map.quiescers := by
    rw [hi.quiescers]
    exact List.length_pos_of_ne_nil hg
  cases step_cases h with
  | @granted hash k map ht hopen =>
    cases k with
    | upload =>
      have := hopen rfl
      omega
    | delete =>
      unfold InFlight.take at ht
      split at ht
      · exact absurd ht (by simp)
      · exact absurd ht (by simp)
      · obtain rfl := Except.ok.inj ht
        exact hq
  | dropped hc hn =>
    change (if _ then s.map.uploads - 1 else s.map.uploads) = 0
    rw [hq]
    split <;> rfl
  | _ => exact hq

/-- A drain that returns `true` sees no upload, and its guard lives. -/
theorem drained_step (hd : s.drained a = true) (h : s.step a = some s') :
    s'.map.uploads = 0 ∧ s'.guards ≠ [] := by
  cases a with
  | poll g d =>
    simp only [drained] at hd
    split at hd
    · rename_i notified hx
      obtain ⟨ds, hg, hx⟩ := Option.bind_eq_some_iff.mp hx
      have hup : s.map.uploads = 0 := by simpa using hd
      simp only [step, hg, Option.bind_some, hx, if_pos hup, Option.some.injEq] at h
      subst h
      refine ⟨hup, fun hnil => ?_⟩
      have hlen : s.guards.length = 0 := by
        rw [← List.length_set (i := g) (a := ds.eraseIdx d)]
        exact congrArg List.length hnil
      have hlt := (List.getElem?_eq_some_iff.mp hg).1
      omega
    · exact absurd hd (by simp)
  | _ => exact absurd hd (by simp [drained])

/-- What a delete claim is refused for. -/
theorem claimDelete_refused {f : InFlight} {hash : String} {busy : Busy}
    (h : f.claimDelete hash = .error busy) :
    (f.kind hash = some .upload ∧ busy = .uploading) ∨
      (f.kind hash = some .delete ∧ busy = .deleting) := by
  unfold InFlight.claimDelete InFlight.take at h
  split at h
  · rename_i hk
    exact Or.inl ⟨hk, (Except.error.inj h).symm⟩
  · rename_i hk
    exact Or.inr ⟨hk, (Except.error.inj h).symm⟩
  · exact absurd h (by simp)

/-- **The in-flight map and the quiesce gate.** In every state that any interleaving of claims,
drops, guards and drains reaches: at most one live claim per hash, and the map's keys are the live
claims' hashes; `uploads` counts the live upload claims; neither counter underflows when a live value
is dropped; no upload claim is granted while a guard lives; once a drain on a live guard has returned
`true`, `uploads` stays 0 until the last guard drops; and a delete claim is refused only for a live
claim on its hash. -/
theorem gate_sound (h : Reach step (fun _ _ => True) new s) :
    (s.live.map Prod.fst).Nodup ∧
    (∀ hash, s.map.contains hash = true ↔ hash ∈ s.live.map Prod.fst) ∧
    s.map.uploads = s.live.countP (fun c => c.2 = .upload) ∧
    (∀ c ∈ s.live, s.map.kind c.1 = some .upload → 0 < s.map.uploads) ∧
    (s.guards ≠ [] → 0 < s.map.quiescers) ∧
    (∀ hash map, s.map.claim hash = .ok map → s.guards = []) ∧
    (∀ a s₁ s₂, s.drained a = true → s.step a = some s₁ →
      Reach step (fun s _ => s.guards ≠ []) s₁ s₂ → s₂.map.uploads = 0) ∧
    (∀ hash busy, s.map.claimDelete hash = .error busy →
      (busy = .uploading ∧ (hash, Kind.upload) ∈ s.live) ∨
        (busy = .deleting ∧ (hash, Kind.delete) ∈ s.live)) := by
  have hi : Inv s := h.invariant (fun _ _ _ hi _ hs => inv_step hi hs) inv_new
  refine ⟨(hi.owned.holder ()).nodup, fun hash => ?_, hi.uploads, fun c hc hk => ?_, fun hg => ?_,
    fun hash map hm => ?_, fun a s₁ s₂ hd hs hrun => ?_, fun hash busy hb => ?_⟩
  · rw [InFlight.contains, Option.isSome_iff_exists]
    constructor
    · rintro ⟨k, hk⟩
      exact List.mem_map.mpr ⟨(hash, k), hi.kind_iff.mp hk, rfl⟩
    · intro hin
      obtain ⟨c, hc, rfl⟩ := List.mem_map.mp hin
      exact ⟨c.2, hi.kind_iff.mpr hc⟩
  · rw [hi.uploads]
    exact List.countP_pos_iff.mpr ⟨_, hi.kind_iff.mp hk, by simp⟩
  · rw [hi.quiescers]
    exact List.length_pos_of_ne_nil hg
  · unfold InFlight.claim at hm
    split at hm
    · exact absurd hm (by simp)
    · rename_i hopen
      rw [hi.quiescers] at hopen
      exact List.length_eq_zero_iff.mp (by omega)
  · obtain ⟨hq, -⟩ := drained_step hd hs
    exact (hrun.invariant (I := fun s => Inv s ∧ s.map.uploads = 0)
      (fun _ _ _ hx hg hs => ⟨inv_step hx.1 hs, quiet_step hx.1 hg hx.2 hs⟩)
      ⟨inv_step hi hs, hq⟩).2
  · rcases claimDelete_refused hb with ⟨hk, rfl⟩ | ⟨hk, rfl⟩
    · exact Or.inl ⟨rfl, hi.kind_iff.mp hk⟩
    · exact Or.inr ⟨rfl, hi.kind_iff.mp hk⟩

/-- Two guards, a drain that sleeps until the last upload is dropped, and a delete meanwhile. -/
theorem gate_sound_drained : ∃ s a,
    Reach step (fun _ _ => True) new s ∧ s.drained a = true ∧ s.live = [("c", .delete)] ∧
    s.map.uploads = 0 := by
  obtain ⟨s, hs, hd, hlive⟩ := exec_check step (fun _ _ => True)
    [.claim "a", .quiesce, .drain 0, .poll 0 0, .claimDelete "c", .poll 0 0, .drop 1, .notify,
      .quiesce, .poll 1 0, .claim "b", .poll 1 0] new
    (fun s => s.drained (.poll 1 0) = true ∧ s.live = [("c", .delete)])
    (by decide +kernel)
  have hsound := gate_sound hs
  refine ⟨s, .poll 1 0, hs, hd, hlive, ?_⟩
  rw [hsound.2.2.1, hlive]
  rfl

end Gate

end Garret
