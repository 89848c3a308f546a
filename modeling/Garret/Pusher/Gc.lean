import Garret.Pusher.Effect

/-!
# GC and the orphan sweep

Model of `Gc::evict` and `Gc::sweep` (`crates/garret-pusher/src/gc.rs`) as tasks. The lock that
keeps eviction passes apart is left out: any number of passes may run at once.

`Gc.Stepped` and `Sweep.Stepped` list what one step does; `step_effect` and `step_absent` are what
the invariants need of it.
-/

namespace Garret

open Garret.Lib

/-! ## Eviction -/

/-- `BATCH`. -/
def gcBatch : ℕ := 500

/-- `PassResult`. -/
structure PassResult where
  evicted : ℕ
  bytesFreed : Int
  candidatesExhausted : Bool
  deriving DecidableEq, Repr

/-- Where an eviction pass stands, between two awaits. -/
inductive Gc where
  | start
  /-- The head of the `while` loop. -/
  | top (usage : Int) (res : PassResult)
  | query (usage at' : Int) (res : PassResult)
  /-- The head of the `for` loop. -/
  | pick (usage at' : Int) (candidates : List (String × Int)) (settled : Bool) (d : Deletion)
    (res : PassResult)
  /-- `hash` is claimed, before `evict_object`. -/
  | evict (usage at' : Int) (hash : String) (candidates : List (String × Int)) (d : Deletion)
    (res : PassResult)
  | finish (usage : Int) (settled : Bool) (f : Finish) (res : PassResult)
  | done (result : Except String PassResult)

namespace Gc

/-- The time of its candidate query, while a pass works through the candidates. -/
def stamps : Gc → List Int
  | query _ at' _ => [at']
  | pick _ at' _ _ _ _ => [at']
  | evict _ at' _ _ _ _ => [at']
  | _ => []

/-- The claims a pass holds. -/
def holds : Gc → List (String × Kind)
  | pick _ _ _ _ d _ => deleting d.claims
  | evict _ _ hash _ d _ => (hash, .delete) :: deleting d.claims
  | finish _ _ f _ => deleting f.claims
  | _ => []

/-- The deletion under way. -/
def deletion : Gc → Deletion
  | pick _ _ _ _ d _ => d
  | evict _ _ _ _ d _ => d
  | finish _ _ f _ => f.deletion
  | _ => ⟨[], []⟩

variable {δ : Type} (env : Env δ)

/-- One step of a pass. -/
def step (me : ℕ) (w : World) (o : Oracle) : Gc → Option (World × Gc)
  | start =>
    if w.free me then
      match reconcileTotalBytes o.io w.db with
      | (.ok usage, db) => some ({ w with db := db }, top usage ⟨0, 0, false⟩)
      | (.error _, db) => some ({ w with db := db }, done (.error "database"))
    else none
  | top usage res =>
    if env.low < usage then some (w, query usage w.clock res) else some (w, done (.ok res))
  | query usage at' res =>
    if w.free me then
      match evictable o.io gcBatch at' w.db with
      | .error _ => some (w, done (.error "database"))
      | .ok [] => some (w, done (.ok { res with candidatesExhausted := true }))
      | .ok candidates => some (w, pick usage at' candidates false ⟨[], []⟩ res)
    else none
  | pick usage at' candidates settled d res =>
    match candidates with
    | [] => some (w, finish usage settled (.start d) res)
    | (hash, _) :: candidates =>
      match w.inFlight.claimDelete hash with
      | .error _ => some (w, pick usage at' candidates settled d res)
      | .ok f => some ({ w with inFlight := f }, evict usage at' hash candidates d res)
  | evict usage at' hash candidates d res =>
    if w.free me then
      match evictObject o.io hash at' w.db with
      | (.error _, db) =>
        some ({ w with db := db }.release (hash :: d.claims), done (.error "database"))
      | (.ok none, db) =>
        some ({ w with db := db }.release [hash], pick usage at' candidates true d res)
      | (.ok (some freed), db) =>
        let usage := usage - freed
        let res := { res with evicted := res.evicted + 1, bytesFreed := res.bytesFreed + freed }
        let d := d.hold hash
        if usage ≤ env.low then some ({ w with db := db }, finish usage true (.start d) res)
        else some ({ w with db := db }, pick usage at' candidates true d res)
    else none
  | finish usage settled f res =>
    match f.step w o with
    | (w, .inl f) => some (w, finish usage settled f res)
    | (w, .inr (.error e)) => some (w, done (.error e))
    | (w, .inr (.ok ())) => some (w, if settled then top usage res else done (.ok res))
  | done _ => none

/-- The steps of a pass, one constructor each. -/
inductive Stepped (me : ℕ) (w : World) (o : Oracle) : Gc → World → Gc → Prop
  /-- Nothing shared changes, and the deletion stays. -/
  | still {g g' : Gc} (hh : g'.holds = g.holds) (hd : g'.deletion = g.deletion)
    (hc : ∀ c ∈ g'.stamps, c ∈ g.stamps ∨ c = w.clock) : Stepped me w o g w g'
  | reconciled {db : Db} {g' : Gc} (hfree : w.free me) (hdb : ∃ n, db = w.db.setTotal n)
    (hh : g'.holds = []) (hd : g'.deletion = ⟨[], []⟩) (hc : g'.stamps = []) :
    Stepped me w o start { w with db := db } g'
  | claimed {usage at' : Int} {hash : String} {size : Int} {candidates : List (String × Int)}
    {settled : Bool} {d : Deletion} {res : PassResult} {f : InFlight}
    (hf : w.inFlight.take hash .delete = .ok f) :
    Stepped me w o (pick usage at' ((hash, size) :: candidates) settled d res)
      { w with inFlight := f } (evict usage at' hash candidates d res)
  | failed {usage at' : Int} {hash : String} {candidates : List (String × Int)} {d : Deletion}
    {res : PassResult} {r : Except String PassResult} :
    Stepped me w o (evict usage at' hash candidates d res) (w.release (hash :: d.claims)) (done r)
  | spared {usage at' : Int} {hash : String} {candidates : List (String × Int)} {d : Deletion}
    {res : PassResult} :
    Stepped me w o (evict usage at' hash candidates d res) (w.release [hash])
      (pick usage at' candidates true d res)
  | evicted {usage at' : Int} {hash : String} {candidates : List (String × Int)} {d : Deletion}
    {res : PassResult} {row : Row} {g' : Gc} (hfree : w.free me) (hrow : w.row? hash = some row)
    (hev : evictableWhere w.db hash row at' = true) (hh : g'.holds = deleting (d.hold hash).claims)
    (hd : g'.deletion = d.hold hash) (hc : ∀ c ∈ g'.stamps, c = at') :
    Stepped me w o (evict usage at' hash candidates d res)
      { w with db := w.db.removed hash row.fileSize } g'
  | finishing {usage : Int} {settled : Bool} {f f' : Finish} {res : PassResult} {w' : World}
    (hf : f.step w o = (w', .inl f')) :
    Stepped me w o (finish usage settled f res) w' (finish usage settled f' res)
  | finished {usage : Int} {settled : Bool} {f : Finish} {res : PassResult} {w' : World}
    {r : Except String Unit} {g' : Gc} (hf : f.step w o = (w', .inr r)) (hh : g'.holds = [])
    (hd : g'.deletion = ⟨[], []⟩) (hc : g'.stamps = []) :
    Stepped me w o (finish usage settled f res) w' g'

variable {env} {me : ℕ} {w w' : World} {o : Oracle} {g g' : Gc}

theorem step_cases (h : g.step env me w o = some (w', g')) : Stepped me w o g w' g' := by
  cases g with
  | start =>
    simp only [step] at h
    split at h
    · rename_i hfree
      split at h
      · rename_i usage db hr
        obtain ⟨rfl, rfl⟩ := Prod.mk.inj (Option.some.inj h)
        refine .reconciled hfree ?_ rfl rfl rfl
        unfold reconcileTotalBytes at hr
        split at hr
        · exact ⟨_, (Prod.mk.inj hr).2.symm⟩
        · exact absurd (Prod.mk.inj hr).1 (by simp)
      · rename_i e db hr
        obtain ⟨rfl, rfl⟩ := Prod.mk.inj (Option.some.inj h)
        unfold reconcileTotalBytes at hr
        split at hr
        · exact absurd (Prod.mk.inj hr).1 (by simp)
        · obtain ⟨-, rfl⟩ := Prod.mk.inj hr
          exact .still rfl rfl (by simp [stamps])
    · exact absurd h (by simp)
  | top usage res =>
    simp only [step] at h
    split at h
    · obtain ⟨rfl, rfl⟩ := Prod.mk.inj (Option.some.inj h)
      exact .still rfl rfl (by simp [stamps])
    · obtain ⟨rfl, rfl⟩ := Prod.mk.inj (Option.some.inj h)
      exact .still rfl rfl (by simp [stamps])
  | query usage at' res =>
    simp only [step] at h
    split at h
    · split at h
      all_goals
        obtain ⟨rfl, rfl⟩ := Prod.mk.inj (Option.some.inj h)
        exact .still rfl rfl (by simp [stamps])
    · exact absurd h (by simp)
  | pick usage at' candidates settled d res =>
    simp only [step] at h
    split at h
    · obtain ⟨rfl, rfl⟩ := Prod.mk.inj (Option.some.inj h)
      exact .still rfl (Finish.start_deletion d) (by simp [stamps])
    · split at h
      · obtain ⟨rfl, rfl⟩ := Prod.mk.inj (Option.some.inj h)
        exact .still rfl rfl (by simp [stamps])
      · rename_i f hf
        obtain ⟨rfl, rfl⟩ := Prod.mk.inj (Option.some.inj h)
        exact .claimed hf
  | evict usage at' hash candidates d res =>
    simp only [step] at h
    split at h
    · rename_i hfree
      split at h
      · rename_i e db hev
        obtain ⟨rfl, rfl⟩ := Prod.mk.inj (Option.some.inj h)
        rcases evictObject_cases hev with ⟨_, -, -, hbad, -⟩ | ⟨hbad, -⟩ | ⟨-, rfl⟩
        · exact absurd hbad (by simp)
        · exact absurd hbad (by simp)
        · exact .failed
      · rename_i db hev
        obtain ⟨rfl, rfl⟩ := Prod.mk.inj (Option.some.inj h)
        rcases evictObject_cases hev with ⟨_, -, -, hbad, -⟩ | ⟨-, rfl⟩ | ⟨⟨e, hbad⟩, -⟩
        · exact absurd hbad (by simp)
        · exact .spared
        · exact absurd hbad (by simp)
      · rename_i freed db hev
        rcases evictObject_cases hev with ⟨row, hrow, hw, -, rfl⟩ | ⟨hbad, -⟩ | ⟨⟨e, hbad⟩, -⟩
        · split at h
          · obtain ⟨rfl, rfl⟩ := Prod.mk.inj (Option.some.inj h)
            exact .evicted hfree hrow hw rfl (Finish.start_deletion _) (by simp [stamps])
          · obtain ⟨rfl, rfl⟩ := Prod.mk.inj (Option.some.inj h)
            exact .evicted hfree hrow hw rfl rfl (by simp [stamps])
        · exact absurd hbad (by simp)
        · exact absurd hbad (by simp)
    · exact absurd h (by simp)
  | finish usage settled f res =>
    simp only [step] at h
    split at h
    · rename_i w₁ f' hf
      obtain ⟨rfl, rfl⟩ := Prod.mk.inj (Option.some.inj h)
      exact .finishing hf
    · rename_i w₁ e hf
      obtain ⟨rfl, rfl⟩ := Prod.mk.inj (Option.some.inj h)
      exact .finished hf rfl rfl rfl
    · rename_i w₁ hf
      obtain ⟨rfl, rfl⟩ := Prod.mk.inj (Option.some.inj h)
      refine .finished hf ?_ ?_ ?_
      · split <;> rfl
      · split <;> rfl
      · split <;> rfl
  | done r => exact absurd h (by simp [step])

/-- The effects a pass's next step may have in `w`. -/
def Allows (w : World) (g : Gc) : Effect → Prop
  | .quiet => True
  | .total => True
  | .removed hash row => ∃ usage at' candidates d res,
      g = evict usage at' hash candidates d res ∧ evictableWhere w.db hash row at' = true
  | .unlinked keys => ∀ k ∈ keys, k ∈ g.deletion.keys
  | _ => False

theorem step_effect (h : Stepped me w o g w' g') :
    ∃ e, Step me w w' g.holds g'.holds e ∧ g.Allows w e := by
  cases h with
  | still hh hd hc => exact ⟨.quiet, .stay (by rw [hh]), trivial⟩
  | @reconciled db g' hfree hdb hh hd hc =>
    have hdo : Effect.total.Does w { w with db := db } := ⟨hdb, rfl⟩
    exact ⟨.total, .commits hfree hdo (Or.inl rfl) (by rw [hh]; exact .refl _), trivial⟩
  | claimed hf => exact ⟨.quiet, .takes hf (.refl _), trivial⟩
  | @failed usage at' hash candidates d res r =>
    refine ⟨.quiet, (Step.stay (.refl _)).dropAll rfl fun x => ?_, trivial⟩
    simp only [holds, List.map_cons, List.mem_cons, mem_deleting]
  | spared => exact ⟨.quiet, (Step.stay (.refl _)).dropOne rfl (.refl _), trivial⟩
  | @evicted usage at' hash candidates d res row g' hfree hrow hev hh hd hc =>
    have hdo : (Effect.removed hash row).Does w
        { w with db := w.db.removed hash row.fileSize } := ⟨⟨hrow, rfl⟩, rfl⟩
    refine ⟨.removed hash row, .commits hfree hdo (Or.inl rfl) ?_,
      usage, at', candidates, d, res, rfl, hev⟩
    rw [hh]
    exact deleting_hold d hash
  | finishing hf =>
    obtain ⟨gone, hgone, -, hs, -⟩ := Finish.step_inl hf
    exact ⟨.unlinked gone, hs, hgone⟩
  | finished hf hh hd hc =>
    obtain ⟨gone, hgone, -, hs⟩ := Finish.step_inr hf
    rw [hh]
    exact ⟨.unlinked gone, hs, hgone⟩

/-- A pass queues only blobs whose row it has deleted. -/
theorem step_ready (h : Stepped me w o g w' g') (hd : g.deletion.Ready w) :
    g'.deletion.Ready w' := by
  cases h with
  | still hh he hc => rwa [he]
  | reconciled hfree hdb hh he hc =>
    rw [he]
    exact .nil _ _
  | claimed hf => exact hd.mono fun _ _ h => h
  | failed => exact .nil _ _
  | spared => exact hd.mono fun _ _ h => h
  | evicted hfree hrow hev hh he hc =>
    rw [he]
    exact hd.hold row?_removed_self fun _ => row?_removed_none
  | finishing hf => exact hd.next hf
  | finished hf hh he hc =>
    rw [he]
    exact .nil _ _

/-- A pass takes its times from the clock. -/
theorem step_stamps (h : Stepped me w o g w' g') :
    ∀ c ∈ g'.stamps, c ∈ g.stamps ∨ c = w.clock := by
  cases h with
  | still hh hd hc => exact hc
  | reconciled hfree hdb hh hd hc => simp [hc]
  | claimed hf => exact fun c hc => Or.inl hc
  | failed => simp [stamps]
  | spared => exact fun c hc => Or.inl hc
  | evicted hfree hrow hev hh hd hc => exact fun c h => Or.inl (List.mem_singleton.mpr (hc c h))
  | finishing hf => simp [stamps]
  | finished hf hh hd hc => simp [hc]

end Gc

/-! ## The orphan sweep -/

/-- Where an orphan sweep stands, between two awaits. -/
inductive Sweep where
  | start
  /-- Listing the bucket, after `token`. -/
  | list (known : List String) (token : Option String) (blobs : List Blob)
  /-- Before the stale multiparts are aborted and the orphans are claimed. -/
  | aborts (known : List String) (blobs : List Blob)
  /-- In the closure that claims the orphans, which keeps the connection. -/
  | pick (orphans : List String) (d : Deletion)
  /-- `hash` is claimed, before its final row check. -/
  | look (hash : String) (orphans : List String) (d : Deletion)
  | finish (f : Finish) (count : ℕ)
  | done (result : Except String ℕ)

namespace Sweep

/-- The claims a sweep holds. -/
def holds : Sweep → List (String × Kind)
  | pick _ d => deleting d.claims
  | look hash _ d => (hash, .delete) :: deleting d.claims
  | finish f _ => deleting f.claims
  | _ => []

/-- The deletion under way. -/
def deletion : Sweep → Deletion
  | pick _ d => d
  | look _ _ d => d
  | finish f _ => f.deletion
  | _ => ⟨[], []⟩

/-- The sweep keeps the connection. -/
def locked : Sweep → Bool
  | pick _ _ => true
  | look _ _ _ => true
  | _ => false

variable {δ : Type} (env : Env δ)

/-- One step of a sweep. -/
def step (me : ℕ) (w : World) (o : Oracle) : Sweep → Option (World × Sweep)
  | start =>
    if w.free me then
      match allHashes o.io w.db with
      | .error _ => some (w, done (.error "database"))
      | .ok known => some (w, list known none [])
    else none
  | list known token blobs =>
    if o.page.fails then some (w, done (.error "listing blobs"))
    else
      let blobs := blobs ++ listPage w token o.page
      match o.page.upTo with
      | none => some (w, aborts known blobs)
      | some upTo => some (w, list known (some upTo) blobs)
  | aborts known blobs =>
    if o.timedOut then some (w, done (.error "aborting stale multipart"))
    else if w.free me then
      some ({ w with conn := some me },
        pick (orphanHashes blobs known w.inFlight env.orphanGrace) ⟨[], []⟩)
    else none
  | pick orphans d =>
    if w.free me then
      match orphans with
      | [] => some ({ w with conn := none }, finish (.start d) d.keys.length)
      | hash :: orphans =>
        match w.inFlight.claimDelete hash with
        | .error _ => some (w, pick orphans d)
        | .ok f => some ({ w with inFlight := f }, look hash orphans d)
    else none
  | look hash orphans d =>
    if w.free me then
      match existsRow o.io 0 hash w.db with
      | .error _ =>
        some ({ w.release (hash :: d.claims) with conn := none }, done (.error "database"))
      | .ok true => some (w.release [hash], pick orphans d)
      | .ok false => some (w, pick orphans (d.hold hash))
    else none
  | finish f count =>
    match f.step w o with
    | (w, .inl f) => some (w, finish f count)
    | (w, .inr (.error e)) => some (w, done (.error e))
    | (w, .inr (.ok ())) => some (w, done (.ok count))
  | done _ => none

/-- The steps of a sweep, one constructor each. -/
inductive Stepped (me : ℕ) (w : World) (o : Oracle) : Sweep → World → Sweep → Prop
  /-- Nothing shared changes, and the deletion and the connection stay. -/
  | still {s s' : Sweep} (hh : s'.holds = s.holds) (hd : s'.deletion = s.deletion)
    (hl : s'.locked = s.locked) : Stepped me w o s w s'
  /-- The closure starts. -/
  | opened {s : Sweep} {orphans : List String} (hfree : w.free me) (hs : s.holds = []) :
    Stepped me w o s { w with conn := some me } (pick orphans ⟨[], []⟩)
  /-- The closure ends. -/
  | closed {d : Deletion} {count : ℕ} (hfree : w.free me) :
    Stepped me w o (pick [] d) { w with conn := none } (finish (.start d) count)
  | claimed {hash : String} {orphans : List String} {d : Deletion} {f : InFlight}
    (hf : w.inFlight.take hash .delete = .ok f) :
    Stepped me w o (pick (hash :: orphans) d) { w with inFlight := f } (look hash orphans d)
  | failed {hash : String} {orphans : List String} {d : Deletion} {r : Except String ℕ}
    (hfree : w.free me) :
    Stepped me w o (look hash orphans d) { w.release (hash :: d.claims) with conn := none } (done r)
  | spared {hash : String} {orphans : List String} {d : Deletion} :
    Stepped me w o (look hash orphans d) (w.release [hash]) (pick orphans d)
  | held {hash : String} {orphans : List String} {d : Deletion} (hrow : w.row? hash = none) :
    Stepped me w o (look hash orphans d) w (pick orphans (d.hold hash))
  | finishing {f f' : Finish} {count : ℕ} {w' : World} (hf : f.step w o = (w', .inl f')) :
    Stepped me w o (finish f count) w' (finish f' count)
  | finished {f : Finish} {count : ℕ} {w' : World} {r : Except String Unit} {r' : Except String ℕ}
    (hf : f.step w o = (w', .inr r)) : Stepped me w o (finish f count) w' (done r')

variable {env} {me : ℕ} {w w' : World} {o : Oracle} {s s' : Sweep}

theorem step_cases (h : s.step env me w o = some (w', s')) : Stepped me w o s w' s' := by
  cases s with
  | start =>
    simp only [step] at h
    split at h
    · split at h
      all_goals
        obtain ⟨rfl, rfl⟩ := Prod.mk.inj (Option.some.inj h)
        exact .still rfl rfl rfl
    · exact absurd h (by simp)
  | list known token blobs =>
    simp only [step] at h
    split at h
    · obtain ⟨rfl, rfl⟩ := Prod.mk.inj (Option.some.inj h)
      exact .still rfl rfl rfl
    · split at h
      all_goals
        obtain ⟨rfl, rfl⟩ := Prod.mk.inj (Option.some.inj h)
        exact .still rfl rfl rfl
  | aborts known blobs =>
    simp only [step] at h
    split at h
    · obtain ⟨rfl, rfl⟩ := Prod.mk.inj (Option.some.inj h)
      exact .still rfl rfl rfl
    · split at h
      · rename_i hfree
        obtain ⟨rfl, rfl⟩ := Prod.mk.inj (Option.some.inj h)
        exact .opened hfree rfl
      · exact absurd h (by simp)
  | pick orphans d =>
    simp only [step] at h
    split at h
    · rename_i hfree
      split at h
      · obtain ⟨rfl, rfl⟩ := Prod.mk.inj (Option.some.inj h)
        exact .closed hfree
      · split at h
        · obtain ⟨rfl, rfl⟩ := Prod.mk.inj (Option.some.inj h)
          exact .still rfl rfl rfl
        · rename_i f hf
          obtain ⟨rfl, rfl⟩ := Prod.mk.inj (Option.some.inj h)
          exact .claimed hf
    · exact absurd h (by simp)
  | look hash orphans d =>
    simp only [step] at h
    split at h
    · rename_i hfree
      split at h
      · obtain ⟨rfl, rfl⟩ := Prod.mk.inj (Option.some.inj h)
        exact .failed hfree
      · obtain ⟨rfl, rfl⟩ := Prod.mk.inj (Option.some.inj h)
        exact .spared
      · rename_i hex
        obtain ⟨rfl, rfl⟩ := Prod.mk.inj (Option.some.inj h)
        exact .held (existsRow_false hex)
    · exact absurd h (by simp)
  | finish f count =>
    simp only [step] at h
    split at h
    · rename_i w₁ f' hf
      obtain ⟨rfl, rfl⟩ := Prod.mk.inj (Option.some.inj h)
      exact .finishing hf
    · rename_i w₁ e hf
      obtain ⟨rfl, rfl⟩ := Prod.mk.inj (Option.some.inj h)
      exact .finished hf
    · rename_i w₁ hf
      obtain ⟨rfl, rfl⟩ := Prod.mk.inj (Option.some.inj h)
      exact .finished hf
  | done r => exact absurd h (by simp [step])

/-- The effects a sweep's next step may have. -/
def Allows (s : Sweep) : Effect → Prop
  | .quiet => True
  | .unlinked keys => ∀ k ∈ keys, k ∈ s.deletion.keys
  | _ => False

theorem step_effect (h : Stepped me w o s w' s') :
    ∃ e, Step me w w' s.holds s'.holds e ∧ s.Allows e := by
  cases h with
  | still hh hd hl => exact ⟨.quiet, .stay (by rw [hh]), trivial⟩
  | @opened s orphans hfree hs =>
    have hdo : Effect.quiet.Does w { w with conn := some me } := .quiet rfl rfl
    exact ⟨.quiet, .commits hfree hdo (Or.inr (Or.inr rfl)) (by rw [hs]; exact .refl _), trivial⟩
  | closed hfree =>
    have hdo : Effect.quiet.Does w { w with conn := none } := .quiet rfl rfl
    exact ⟨.quiet, .commits hfree hdo (Or.inr (Or.inl rfl)) (.refl _), trivial⟩
  | claimed hf => exact ⟨.quiet, .takes hf (.refl _), trivial⟩
  | @failed hash orphans d r hfree =>
    refine ⟨.quiet, ((Step.stay (.refl _)).dropAll rfl fun x => ?_).giveBack hfree, trivial⟩
    simp only [holds, List.map_cons, List.mem_cons, mem_deleting]
  | spared => exact ⟨.quiet, (Step.stay (.refl _)).dropOne rfl (.refl _), trivial⟩
  | @held hash orphans d hrow => exact ⟨.quiet, .stay (deleting_hold d hash), trivial⟩
  | finishing hf =>
    obtain ⟨gone, hgone, -, hs, -⟩ := Finish.step_inl hf
    exact ⟨.unlinked gone, hs, hgone⟩
  | finished hf =>
    obtain ⟨gone, hgone, -, hs⟩ := Finish.step_inr hf
    exact ⟨.unlinked gone, hs, hgone⟩

/-- A sweep queues only blobs of paths without a row. -/
theorem step_ready (h : Stepped me w o s w' s') (hd : s.deletion.Ready w) :
    s'.deletion.Ready w' := by
  cases h with
  | still hh he hl => rwa [he]
  | opened hfree hs => exact .nil _ _
  | @closed d count hfree =>
    rw [show (finish (.start d) count).deletion = d from Finish.start_deletion d]
    exact hd.mono fun _ _ h => h
  | claimed hf => exact hd.mono fun _ _ h => h
  | failed hfree => exact .nil _ _
  | spared => exact hd.mono fun _ _ h => h
  | held hrow => exact hd.hold hrow fun _ h => h
  | finishing hf => exact hd.next hf
  | finished hf => exact .nil _ _

/-- A sweep keeps the connection exactly while its closure runs. -/
theorem step_locked (h : Stepped me w o s w' s') (hl : s.locked = true → w.conn = some me)
    (hl' : s'.locked = true) : w'.conn = some me := by
  cases h with
  | still hh hd he => exact hl (he ▸ hl')
  | opened hfree hs => rfl
  | closed hfree => exact absurd hl' (by simp [locked])
  | claimed hf => exact hl rfl
  | failed hfree => exact absurd hl' (by simp [locked])
  | spared => exact hl rfl
  | held hrow => exact hl rfl
  | finishing hf => exact absurd hl' (by simp [locked])
  | finished hf => exact absurd hl' (by simp [locked])

end Sweep

end Garret
