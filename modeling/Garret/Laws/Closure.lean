import Garret.Pusher.Clock

/-!
# GC and prune never break a closure

No commit of an eviction pass and no batch of a prune removes a row that another row still refers
to (`reference_kept`): an eviction looks for referrers inside its own transaction, and a prune's plan
deletes referrers first, also when it stops between two batches. Admin deletes and fsck repairs do
not look at references and are left out (`Unforced`).

So the closure of a row that was complete stays complete while a live pin holds the row
(`complete_step`): nothing collects the root, and nothing collects what is referred to from inside.
-/

namespace Garret.Sys

open Garret.Lib

variable {δ : Type} {env : Env δ} {s s' : Sys} {a : Act}

/-- **No commit leaves a reference without the row it had.** -/
theorem reference_kept (hi : Inv env s) (ha : Unforced s a) (h : s.step env a = some s')
    {x : ObjectRef} (hx : x ∈ s'.world.db.objectRefs) (hne : x.referrer ≠ x.referenceHash)
    {row : Row} (hrow : s.world.row? x.referenceHash = some row) :
    ∃ row', s'.world.row? x.referenceHash = some row' := by
  obtain ⟨e, hd, hc, -⟩ := step_effect hi h
  rcases hd.row_cases x.referenceHash with heq | ⟨hrem, -⟩ | ⟨obj, at', -, -, hnew⟩ | ⟨_, y, -, hy, -⟩
  · exact ⟨row, heq.trans hrow⟩
  · cases hi.collected hd hc ha hrem with
    | evicted har ht hr hev =>
      have hx' : x ∈ s.world.db.objectRefs := by
        rw [hd.db.2] at hx
        exact (Db.mem_refs_deleteRow.mp hx).1
      exact absurd (evictableWhere_referrer hev hx' rfl) hne
    | @pruned i now doomed batch todo har ht hp hin =>
      have hdb : s'.world.db = s.world.db.pruned batch := hd.db
      rw [hdb] at hx
      refine ⟨row, ?_⟩
      unfold World.row?
      rw [hdb, deletePrunedBatch_closed hp hx hne]
      exact hrow
  · exact ⟨_, hnew⟩
  · exact ⟨y, hy⟩

/-! ## The closure of a pinned row -/

/-- Every path reached from `root` through references has a row. -/
def Complete (db : Db) (root : String) : Prop :=
  ∀ hash ∈ closure db.edges [root], ∃ row, db.row? hash = some row

instance (db : Db) (root : String) : Decidable (Complete db root) :=
  decidable_of_iff (∀ hash ∈ closure db.edges [root], (db.row? hash).isSome = true)
    (forall₂_congr fun _ _ => Option.isSome_iff_exists)

/-- `b` is a reference of `a`. -/
def RefersTo (db : Db) (a b : String) : Prop :=
  ∃ x ∈ db.objectRefs, x.referrer = a ∧ x.referenceHash = b

theorem mem_closure_root {db : Db} {root hash : String} :
    hash ∈ closure db.edges [root] ↔ Relation.ReflTransGen (RefersTo db) root hash := by
  have hedge : (fun a b => (a, b) ∈ db.edges) = RefersTo db := by
    funext a b
    simp [Db.edges, RefersTo]
  rw [mem_closure, Reaches]
  simp only [List.mem_singleton, exists_eq_left, hedge]

/-- A path other than the root is entered from another one. -/
theorem entered {db : Db} {root hash : String}
    (h : Relation.ReflTransGen (RefersTo db) root hash) :
    hash = root ∨ ∃ x ∈ db.objectRefs, x.referrer ≠ hash ∧ x.referenceHash = hash := by
  induction h with
  | refl => exact Or.inl rfl
  | @tail b c _ hbc ih =>
    obtain ⟨x, hx, rfl, rfl⟩ := hbc
    by_cases he : x.referrer = x.referenceHash
    · rw [he] at ih
      exact ih
    · exact Or.inr ⟨x, hx, he, rfl⟩

/-- The pin `name` is `p`, and live. -/
def PinLive (name : String) (p : Pin) (s : Sys) : Prop :=
  s.world.db.pins.lookup name = some p ∧ p.live s.world.clock = true

instance (name : String) (p : Pin) (s : Sys) : Decidable (PinLive name p s) := by
  unfold PinLive
  infer_instance

/-- No path of the closure is in a prune's plan while its root has a live pin. -/
theorem not_planned {db : Db} {now : Int} {todo : List ObjectBrief} {name : String} {p : Pin}
    (hp : Prunes db now todo) (hpin : db.pins.lookup name = some p) (hlive : p.live now = true)
    {hash : String} (h : Relation.ReflTransGen (RefersTo db) p.storePathHash hash) :
    hash ∉ todo.map ObjectBrief.storePathHash := by
  induction h with
  | refl =>
    intro hin
    obtain ⟨b, hb, heq⟩ := List.mem_map.mp hin
    rw [hp.pin b hb name p hpin heq.symm] at hlive
    exact absurd hlive (by simp)
  | @tail b c _ hbc ih =>
    obtain ⟨x, hx, rfl, rfl⟩ := hbc
    intro hin
    obtain ⟨d, hd, heq⟩ := List.mem_map.mp hin
    by_cases he : x.referrer = x.referenceHash
    · exact ih (he ▸ hin)
    · -- the referrer goes first, so it is planned too
      obtain ⟨pre, post, hsplit⟩ := List.append_of_mem hd
      have hpre := hp.referrer pre d post hsplit x hx heq.symm (by rw [heq]; exact he)
      refine ih ?_
      rw [hsplit, List.map_append]
      exact List.mem_append_left _ hpre

/-- **One action keeps a pinned closure complete.** -/
theorem complete_step (hi : Inv env s) (htime : Timed s) (ha : Unforced s a)
    (h : s.step env a = some s') {name : String} {p : Pin} (hpin : PinLive name p s)
    (hcomp : Complete s.world.db p.storePathHash) : Complete s'.world.db p.storePathHash := by
  obtain ⟨e, hd, hc, -⟩ := step_effect hi h
  have hrows : ∀ hash, Relation.ReflTransGen (RefersTo s.world.db) p.storePathHash hash →
      ∃ row, s.world.row? hash = some row := fun hash hr => hcomp hash (mem_closure_root.mpr hr)
  -- what is reached afterwards was reached before: an insert adds references of a path without a row
  have hback : ∀ hash, Relation.ReflTransGen (RefersTo s'.world.db) p.storePathHash hash →
      Relation.ReflTransGen (RefersTo s.world.db) p.storePathHash hash := by
    intro hash hr
    induction hr with
    | refl => exact .refl
    | @tail b c _ hbc ih =>
      obtain ⟨x, hx, rfl, rfl⟩ := hbc
      rcases hd.refs_cases hx with hx | ⟨obj, at', rfl, hobj⟩
      · exact ih.tail ⟨x, hx, rfl, rfl⟩
      · obtain ⟨_, _, -, hnone⟩ := hi.causes_inserted hc
        obtain ⟨row, hrow⟩ := hrows x.referrer ih
        rw [hobj, hnone] at hrow
        exact absurd hrow (by simp)
  intro hash hin
  have hr := hback hash (mem_closure_root.mp hin)
  obtain ⟨row, hrow⟩ := hrows hash hr
  change ∃ row, s'.world.row? hash = some row
  rcases hd.row_cases hash with heq | ⟨hrem, -⟩ | ⟨obj, at', -, -, hnew⟩ | ⟨_, y, -, hy, -⟩
  · exact ⟨row, heq.trans hrow⟩
  · cases hi.collected hd hc ha hrem with
    | @evicted i row' usage at' candidates d res har ht hrow' hev =>
      have hle : at' ≤ s.world.clock := htime i _ ht at' (List.mem_singleton.mpr rfl)
      rcases entered hr with rfl | ⟨x, hx, hne, hxr⟩
      · have := evictableWhere_pin hev hpin.1 rfl
        rw [Pin.live_mono hpin.2 hle] at this
        exact absurd this (by simp)
      · exact absurd (evictableWhere_referrer hev hx hxr) hne
    | @pruned i now doomed batch todo har ht hp hin =>
      have hle : now ≤ s.world.clock := htime i _ ht now (List.mem_singleton.mpr rfl)
      refine absurd ?_ (not_planned hp hpin.1 (Pin.live_mono hpin.2 hle) hr)
      rw [List.map_append]
      exact List.mem_append_left _ hin
  · exact ⟨_, hnew⟩
  · exact ⟨y, hy⟩

/-- **GC and prune never break a closure.** From any database, and whatever else runs: no action
that is not an admin delete or an fsck repair leaves a row with a reference to another row that was
there and is gone. And, under a clock that does not go back, the complete closure of a pinned row is
complete after every run in which the pin stays live. -/
theorem closure_unbroken (env : Env δ) (db : Db) (bucket : Table String Bytes) (clock : Int) :
    (∀ s a s', Reach (step env) Unforced (boot db bucket clock) s → Unforced s a →
      s.step env a = some s' → ∀ x ∈ s'.world.db.objectRefs, x.referrer ≠ x.referenceHash →
      (∃ row, s.world.row? x.referenceHash = some row) →
      ∃ row, s'.world.row? x.referenceHash = some row) ∧
    ∀ s s' name p,
      Reach (step env) (fun s a => Unforced s a ∧ Steady s a) (boot db bucket clock) s →
      Complete s.world.db p.storePathHash →
      Reach (step env) (fun s a => Unforced s a ∧ Steady s a ∧ PinLive name p s) s s' →
      Complete s'.world.db p.storePathHash := by
  refine ⟨fun s a s' h ha hs x hx hne hrow => ?_, fun s s' name p h₀ hcomp h => ?_⟩
  · obtain ⟨row, hrow⟩ := hrow
    exact reference_kept (inv_reach h (inv_boot _ _ _)) ha hs hx hne hrow
  · have hi := inv_reach h₀ (inv_boot db bucket clock)
    have ht := timed_reach h₀ (fun _ _ h => h.2) (inv_boot _ _ _) (timed_boot _ _ _)
    refine (h.invariant
      (I := fun x => Inv env x ∧ Timed x ∧ Complete x.world.db p.storePathHash) ?_
      ⟨hi, ht, hcomp⟩).2.2
    rintro x b x' ⟨hix, htx, hcx⟩ ⟨hunf, hsteady, hpin⟩ hstep
    exact ⟨inv_step hix hstep, timed_step hix htx hsteady hstep,
      complete_step hix htx hunf hstep hpin hcx⟩

/-- A pass has claimed `app` for eviction when it is pinned; `app` and `lib` stay. -/
theorem closure_unbroken_pinned : ∃ s s',
    Reach (step Sample.env) (fun s a => Unforced s a ∧ Steady s a) (boot Sample.stored ∅ 1000000) s ∧
    Reach (step Sample.env) (fun s a => Unforced s a ∧ Steady s a ∧
      PinLive "release" ⟨Sample.hash, none, 1000000⟩ s) s s' ∧
    s'.holds 0 = [] ∧ Complete s'.world.db Sample.hash := by
  obtain ⟨s, hs, hcomp, hrun⟩ := exec_check (step Sample.env)
    (fun s a => Unforced s a ∧ Steady s a)
    (.spawn 0 (.gc .start) :: List.replicate 4 (.step 0 .calm) ++
      [.pin "release" Sample.hash none noFaults]) (boot Sample.stored ∅ 1000000)
    (fun s => Complete s.world.db Sample.hash ∧
      ((exec (step Sample.env) (fun s a => Unforced s a ∧ Steady s a ∧
        PinLive "release" ⟨Sample.hash, none, 1000000⟩ s) [.step 0 .calm] s).any fun s' =>
          decide (s'.holds 0 = [])) = true)
    (by decide +kernel)
  obtain ⟨s', hs', hheld⟩ := exec_check _ _ _ _ _ hrun
  exact ⟨s, s', hs, hs', hheld,
    (closure_unbroken Sample.env Sample.stored ∅ 1000000).2 s s' "release" _ hs hcomp hs'⟩

end Garret.Sys
