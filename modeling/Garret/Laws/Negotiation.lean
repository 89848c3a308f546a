import Garret.Pusher.Clock

/-!
# Negotiation protects what it reports present

`missing` refreshes `pushed_at` of every hash it reports present, unless it is fresher than the
debounce. From then on, under a clock that never goes back, the hash's row has a `pushed_at` no
older than the Negotiation less the debounce (`Fresh`), whoever inserts it: an upload past its
second check would contradict the row the Negotiation saw, so every later stamp is taken after it.
A collecting step re-checks `pushed_at` in its own transaction, so it cannot remove the row while
its time is within `PUSH_GRACE - PUSHED_AT_DEBOUNCE` of the Negotiation, whenever its candidates
were selected.
-/

namespace Garret.Sys

open Garret.Lib

variable {δ : Type} {env : Env δ} {s s' : Sys} {a : Act}

/-- The row of `hash` is no staler than a Negotiation at `t` leaves it, and stays so. -/
structure Fresh (hash : String) (t : Int) (s : Sys) : Prop where
  row : ∀ row, s.world.row? hash = some row → t - pushedAtDebounce ≤ row.pushedAt
  pending : ∀ i obj at' attached,
    s.task? i = some (.upload (.insert hash obj at' attached)) → t ≤ at'
  clock : t ≤ s.world.clock

/-- **A Negotiation that reports `hash` present leaves it fresh.** -/
theorem fresh_negotiate {hashes ms : List String} {io : Faults} {hash : String} (hi : Inv env s)
    (h : s.step env (.negotiate hashes io) = some s')
    (hm : (missing io hashes s.world.clock s.world.db).1 = .ok ms) (hin : hash ∈ hashes)
    (hout : hash ∉ ms) : Fresh hash s.world.clock s' := by
  have hi' := inv_step hi h
  simp only [step] at h
  split at h
  · obtain rfl := Option.some.inj h
    rcases missing_cases (Prod.mk.eta (p := missing io hashes s.world.clock s.world.db)).symm with
      ⟨ms', hr, -, -, hpres⟩ | ⟨⟨e, he⟩, -⟩
    · obtain rfl : ms = ms' := Except.ok.inj (hm.symm.trans hr)
      obtain ⟨row, hrow, hle⟩ := hpres hash hin hout
      have hrow' : (s.setDb (missing io hashes s.world.clock s.world.db).2).world.row? hash =
        some row := hrow
      refine ⟨fun r hr => ?_, fun i obj at' attached ht => ?_, le_refl _⟩
      · obtain rfl := Option.some.inj (hrow'.symm.trans hr)
        exact hle
      · -- an insert under way relies on there being no row
        have hnone := (hi'.sound i _ ht).absent hash (List.mem_singleton.mpr rfl)
        rw [hrow'] at hnone
        exact absurd hnone (by simp)
    · rw [hm] at he
      exact absurd he (by simp)
  · exact absurd h (by simp)

/-- **Every action keeps a fresh row fresh.** -/
theorem fresh_step {hash : String} {t : Int} (hi : Inv env s) (hf : Fresh hash t s)
    (ha : Steady s a) (h : s.step env a = some s') : Fresh hash t s' := by
  obtain ⟨e, hd, hc, -⟩ := step_effect hi h
  have hdeb : t - pushedAtDebounce ≤ t := by
    simp only [pushedAtDebounce]
    omega
  refine ⟨fun row hrow => hd.pushedAt_ge ?_ ?_ hf.row hrow, ?_,
    le_trans hf.clock (clock_mono hi ha h)⟩
  · rintro obj at' rfl rfl
    obtain ⟨i, attached, ht, -⟩ := hi.causes_inserted hc
    exact le_trans hdeb (hf.pending i obj at' attached ht)
  · rintro hashes ms now rfl
    cases hc with
    | task ha ht hal => exact absurd (Task.allows_negotiated hal) id
    | negotiated ha hm => exact le_trans hdeb hf.clock
  · cases step_cases h with
    | @spawned j u hnone hinit =>
      intro i obj at' attached ht
      rw [task?_put] at ht
      split at ht
      · obtain rfl := Option.some.inj ht
        exact absurd hinit (by simp [Task.initial])
      · exact hf.pending i obj at' attached ht
    | @ran a j o u u' w' ha' hu hrun =>
      intro i obj at' attached ht
      rw [task?_put] at ht
      split at ht
      · obtain rfl := Option.some.inj ht
        rcases Task.step_insert hrun with rfl | ⟨before, rfl⟩
        · exact hf.clock
        · exact hf.pending j obj at' before hu
      · exact hf.pending i obj at' attached ht
    | crashed => exact fun i obj at' attached ht => absurd ht (by simp [boot, task?])
    | ticked => exact hf.pending
    | outside => exact hf.pending

/-- **Negotiation protects what it reports present.** After `missing(hashes, t)` answered without
`hash`, no `evict_object` and no prune batch whose time is at most 82800 s past `t` removes the row
of `hash`, in any interleaving with a clock that does not go back. -/
theorem negotiated_not_collected (env : Env δ) (db : Db) (bucket : Table String Bytes) (clock : Int)
    {s s₁ s₂ s₃ : Sys} {hashes ms : List String} {io : Faults} {hash : String} {a : Act}
    (h₀ : Reach (step env) Steady (boot db bucket clock) s)
    (hneg : s.step env (.negotiate hashes io) = some s₁)
    (hm : (missing io hashes s.world.clock s.world.db).1 = .ok ms)
    (hin : hash ∈ hashes) (hout : hash ∉ ms)
    (hrun : Reach (step env) Steady s₁ s₂) (hs : s₂.step env a = some s₃)
    {i : ℕ} {t : Task} {now : Int} (hi : a.runs = some i) (ht : s₂.task? i = some t)
    (hnow : t.collectsAt = some now) (hle : now ≤ s.world.clock + 82800)
    {row : Row} (hrow : s₂.world.row? hash = some row) :
    ∃ row', s₃.world.row? hash = some row' := by
  have hinv := inv_reach h₀ (inv_boot _ _ _)
  obtain ⟨hinv₂, hfresh⟩ : Inv env s₂ ∧ Fresh hash s.world.clock s₂ :=
    hrun.invariant (I := fun x => Inv env x ∧ Fresh hash s.world.clock x)
      (fun _ _ _ hx hsteady hstep => ⟨inv_step hx.1 hstep, fresh_step hx.1 hx.2 hsteady hstep⟩)
      ⟨inv_step hinv hneg, fresh_negotiate hinv hneg hm hin hout⟩
  obtain ⟨e, hd, hc, -⟩ := step_effect hinv₂ hs
  rcases hd.row_cases hash with heq | ⟨hrem, -⟩ | ⟨obj, at', -, -, hnew⟩ | ⟨x, y, -, hy, -⟩
  · exact ⟨row, heq.trans hrow⟩
  · -- the collecting transaction saw `pushed_at` before `now - PUSH_GRACE`
    have hno : adminDeletes s₂ a = false := by
      have htask : a.runs.bind s₂.task? = some t := by rw [hi]; exact ht
      unfold adminDeletes
      rw [htask]
      cases t with
      | delete d => exact absurd hnow (by simp [Task.collectsAt])
      | fsck f => exact absurd hnow (by simp [Task.collectsAt])
      | _ => rfl
    obtain ⟨j, u, c, r, hj, hu, hcol, hr, hlt⟩ := (hinv₂.collected hd hc hno hrem).stale
    obtain rfl := Option.some.inj (hi.symm.trans hj)
    obtain rfl := Option.some.inj (ht.symm.trans hu)
    obtain rfl := Option.some.inj (hnow.symm.trans hcol)
    have := hfresh.row r hr
    simp only [pushedAtDebounce, pushGrace] at this hlt
    omega
  · exact ⟨_, hnew⟩
  · exact ⟨y, hy⟩

/-- An eviction pass selects and claims the path, then a Negotiation reports it present, and the
pass's `evict_object` leaves its row. -/
theorem negotiated_not_collected_snapshot : ∃ s s₁ s₃ row,
    Reach (step Sample.env) Steady (boot Sample.stored ∅ 100000) s ∧
    s.step Sample.env (.negotiate [Sample.hash] noFaults) = some s₁ ∧
    (s₁.task? 0).bind Task.collectsAt = some 100000 ∧
    s₁.step Sample.env (.step 0 .calm) = some s₃ ∧ s₃.world.row? Sample.hash = some row := by
  obtain ⟨s, hs, hclock, hm, hrest⟩ := exec_check (step Sample.env) Steady
    (.spawn 0 (.gc .start) :: List.replicate 4 (.step 0 .calm)) (boot Sample.stored ∅ 100000)
    (fun s => s.world.clock = 100000 ∧
      (missing noFaults [Sample.hash] s.world.clock s.world.db).1 = .ok [] ∧
      ((s.step Sample.env (.negotiate [Sample.hash] noFaults)).any fun s₁ =>
        decide ((s₁.task? 0).bind Task.collectsAt = some 100000) &&
        (s₁.world.row? Sample.hash).isSome &&
        (s₁.step Sample.env (.step 0 .calm)).isSome) = true)
    (by decide +kernel)
  obtain ⟨s₁, hs₁, hrest⟩ := (Option.any_eq_true _ _).mp hrest
  simp only [Bool.and_eq_true, decide_eq_true_eq, Option.isSome_iff_exists] at hrest
  obtain ⟨⟨hat, row, hrow⟩, s₃, hs₃⟩ := hrest
  obtain ⟨t, ht, hnow⟩ := Option.bind_eq_some_iff.mp hat
  obtain ⟨row', hrow'⟩ := negotiated_not_collected Sample.env Sample.stored ∅ 100000 hs hs₁ hm
    List.mem_cons_self List.not_mem_nil (Reach.refl s₁) hs₃ rfl ht hnow (by omega) hrow
  exact ⟨s, s₁, s₃, row', hs, hs₁, hat, hs₃, hrow'⟩

end Garret.Sys
