import Garret.Db.Evict
import Garret.Lib.Potential
import Garret.Pusher.System

/-!
# An eviction pass, step by step

`Gc.Ran` lists every step of `Gc::evict` with all its data, where `Gc.Stepped` keeps what the
invariants of the whole Pusher need.

* `Gc.Within` bounds the steps a pass has left. Each pass of the `while` loop takes at most
  `perRound` steps and ends the loop, deletes a row, or owes a refused candidate to a commit of
  another task since the query (`Fresh` says when there was none).
* **`Sys.pass_steps_le`**: among any other tasks a pass takes at most `perRound` steps for each row,
  and twice as many for each commit of the others.
-/

namespace Garret

open Garret.Lib

/-- A row of `size` bytes is evicted. -/
def PassResult.add (res : PassResult) (size : Int) : PassResult :=
  { res with evicted := res.evicted + 1, bytesFreed := res.bytesFreed + size }

namespace Gc

variable {δ : Type} (env : Env δ)

/-- The steps of a pass, one constructor each, with what they do. -/
inductive Ran (me : ℕ) (w : World) (o : Oracle) : Gc → World → Gc → Prop
  | reconciled (hfree : w.free me) :
    Ran me w o start { w with db := w.db.setTotal w.db.sumFileSize }
      (top w.db.sumFileSize ⟨0, 0, false⟩)
  | enters {usage : Int} {res : PassResult} (hlow : env.low < usage) :
    Ran me w o (top usage res) w (query usage w.clock res)
  | leaves {usage : Int} {res : PassResult} (hlow : usage ≤ env.low) :
    Ran me w o (top usage res) w (done (.ok res))
  | exhausted {usage at' : Int} {res : PassResult} (hfree : w.free me)
    (hq : evictable o.io gcBatch at' w.db = .ok []) :
    Ran me w o (query usage at' res) w (done (.ok { res with candidatesExhausted := true }))
  | listed {usage at' : Int} {res : PassResult} {cs : List (String × Int)} (hfree : w.free me)
    (hne : cs ≠ []) (hq : evictable o.io gcBatch at' w.db = .ok cs) :
    Ran me w o (query usage at' res) w (pick usage at' cs false ⟨[], []⟩ res)
  | emptied {usage at' : Int} {settled : Bool} {d : Deletion} {res : PassResult} :
    Ran me w o (pick usage at' [] settled d res) w (finish usage settled (.start d) res)
  | busy {usage at' : Int} {hash : String} {size : Int} {cs : List (String × Int)} {settled : Bool}
    {d : Deletion} {res : PassResult} (hbusy : (w.inFlight.kind hash).isSome) :
    Ran me w o (pick usage at' ((hash, size) :: cs) settled d res) w
      (pick usage at' cs settled d res)
  | claimed {usage at' : Int} {hash : String} {size : Int} {cs : List (String × Int)}
    {settled : Bool} {d : Deletion} {res : PassResult} {f : InFlight}
    (hf : w.inFlight.take hash .delete = .ok f) :
    Ran me w o (pick usage at' ((hash, size) :: cs) settled d res) { w with inFlight := f }
      (evict usage at' hash cs d res)
  | spared {usage at' : Int} {hash : String} {cs : List (String × Int)} {d : Deletion}
    {res : PassResult} (hfree : w.free me)
    (hkeep : ∀ row, w.db.row? hash = some row → evictableWhere w.db hash row at' = false) :
    Ran me w o (evict usage at' hash cs d res) (w.release [hash]) (pick usage at' cs true d res)
  | evicted {usage at' : Int} {hash : String} {cs : List (String × Int)} {d : Deletion}
    {res : PassResult} {row : Row} (hfree : w.free me) (hrow : w.db.row? hash = some row)
    (hev : evictableWhere w.db hash row at' = true) (hlow : env.low < usage - row.fileSize) :
    Ran me w o (evict usage at' hash cs d res) { w with db := w.db.removed hash row.fileSize }
      (pick (usage - row.fileSize) at' cs true (d.hold hash) (res.add row.fileSize))
  | reached {usage at' : Int} {hash : String} {cs : List (String × Int)} {d : Deletion}
    {res : PassResult} {row : Row} (hfree : w.free me) (hrow : w.db.row? hash = some row)
    (hev : evictableWhere w.db hash row at' = true) (hlow : usage - row.fileSize ≤ env.low) :
    Ran me w o (evict usage at' hash cs d res) { w with db := w.db.removed hash row.fileSize }
      (finish (usage - row.fileSize) true (.start (d.hold hash)) (res.add row.fileSize))
  | deleting {usage : Int} {settled : Bool} {f f' : Finish} {res : PassResult} {w' : World}
    (hf : f.step w o = (w', .inl f')) :
    Ran me w o (finish usage settled f res) w' (finish usage settled f' res)
  | looped {usage : Int} {f : Finish} {res : PassResult} {w' : World}
    (hf : f.step w o = (w', .inr (.ok ()))) :
    Ran me w o (finish usage true f res) w' (top usage res)
  | stopped {usage : Int} {f : Finish} {res : PassResult} {w' : World}
    (hf : f.step w o = (w', .inr (.ok ()))) :
    Ran me w o (finish usage false f res) w' (done (.ok res))
  | undeleted {usage : Int} {settled : Bool} {f : Finish} {res : PassResult} {w' : World}
    {e : String} (hf : f.step w o = (w', .inr (.error e))) :
    Ran me w o (finish usage settled f res) w' (done (.error e))
  /-- A statement failed; the claims are dropped. -/
  | failed {g : Gc} {hashes : List String} (hg : ∀ r, g ≠ done r) (hio : ∃ k, o.io k = true) :
    Ran me w o g (w.release hashes) (done (.error "database"))

variable {env} {me : ℕ} {w w' : World} {o : Oracle} {g g' : Gc}

theorem claimDelete_error {f : InFlight} {hash : String} {b : Busy}
    (h : f.claimDelete hash = .error b) : (f.kind hash).isSome := by
  unfold InFlight.claimDelete InFlight.take at h
  cases hk : f.kind hash with
  | none => simp [hk] at h
  | some k => rfl

theorem step_ran (h : g.step env me w o = some (w', g')) : Ran env me w o g w' g' := by
  cases g with
  | start =>
    simp only [step] at h
    split at h
    · rename_i hfree
      split at h
      · rename_i usage db hr
        obtain ⟨rfl, rfl⟩ := Prod.mk.inj (Option.some.inj h)
        obtain ⟨rfl, rfl⟩ := reconcile_ok hr
        exact .reconciled hfree
      · rename_i e db hr
        obtain ⟨rfl, rfl⟩ := Prod.mk.inj (Option.some.inj h)
        obtain ⟨rfl, hio⟩ := reconcile_error hr
        exact @Ran.failed _ _ _ _ _ _ [] (by simp) hio
    · exact absurd h (by simp)
  | top usage res =>
    simp only [step] at h
    split at h
    · rename_i hlow
      obtain ⟨rfl, rfl⟩ := Prod.mk.inj (Option.some.inj h)
      exact .enters hlow
    · rename_i hlow
      obtain ⟨rfl, rfl⟩ := Prod.mk.inj (Option.some.inj h)
      exact .leaves (by omega)
  | query usage at' res =>
    simp only [step] at h
    split at h
    · rename_i hfree
      split at h
      · rename_i e hq
        obtain ⟨rfl, rfl⟩ := Prod.mk.inj (Option.some.inj h)
        exact @Ran.failed _ _ _ _ _ _ [] (by simp) (evictable_error hq)
      · rename_i hq
        obtain ⟨rfl, rfl⟩ := Prod.mk.inj (Option.some.inj h)
        exact .exhausted hfree hq
      · rename_i cs hne hq
        obtain ⟨rfl, rfl⟩ := Prod.mk.inj (Option.some.inj h)
        exact .listed hfree (fun he => hne he) hq
    · exact absurd h (by simp)
  | pick usage at' candidates settled d res =>
    simp only [step] at h
    split at h
    · obtain ⟨rfl, rfl⟩ := Prod.mk.inj (Option.some.inj h)
      exact .emptied
    · split at h
      · rename_i hbusy
        obtain ⟨rfl, rfl⟩ := Prod.mk.inj (Option.some.inj h)
        exact .busy (claimDelete_error hbusy)
      · rename_i f hf
        obtain ⟨rfl, rfl⟩ := Prod.mk.inj (Option.some.inj h)
        exact .claimed hf
  | evict usage at' hash candidates d res =>
    simp only [step] at h
    split at h
    · rename_i hfree
      split at h
      · rename_i e db hev
        obtain ⟨rfl, rfl⟩ := Prod.mk.inj (Option.some.inj h)
        have hio := evictObject_error hev
        rcases evictObject_cases hev with ⟨_, -, -, hbad, -⟩ | ⟨hbad, -⟩ | ⟨-, rfl⟩
        · exact absurd hbad (by simp)
        · exact absurd hbad (by simp)
        · exact .failed (by simp) hio
      · rename_i db hev
        obtain ⟨rfl, rfl⟩ := Prod.mk.inj (Option.some.inj h)
        have hkeep := fun row => @evictObject_none _ _ _ _ _ hev row
        rcases evictObject_cases hev with ⟨_, -, -, hbad, -⟩ | ⟨-, rfl⟩ | ⟨⟨e, hbad⟩, -⟩
        · exact absurd hbad (by simp)
        · exact .spared hfree hkeep
        · exact absurd hbad (by simp)
      · rename_i freed db hev
        rcases evictObject_cases hev with ⟨row, hrow, hw, hfreed, rfl⟩ | ⟨hbad, -⟩ | ⟨⟨e, hbad⟩, -⟩
        · obtain rfl := Option.some.inj (Except.ok.inj hfreed)
          split at h
          · rename_i hlow
            obtain ⟨rfl, rfl⟩ := Prod.mk.inj (Option.some.inj h)
            exact .reached hfree hrow hw hlow
          · rename_i hlow
            obtain ⟨rfl, rfl⟩ := Prod.mk.inj (Option.some.inj h)
            exact .evicted hfree hrow hw (by omega)
        · exact absurd hbad (by simp)
        · exact absurd hbad (by simp)
    · exact absurd h (by simp)
  | finish usage settled f res =>
    simp only [step] at h
    split at h
    · rename_i w₁ f' hf
      obtain ⟨rfl, rfl⟩ := Prod.mk.inj (Option.some.inj h)
      exact .deleting hf
    · rename_i w₁ e hf
      obtain ⟨rfl, rfl⟩ := Prod.mk.inj (Option.some.inj h)
      exact .undeleted hf
    · rename_i w₁ hf
      obtain ⟨rfl, rfl⟩ := Prod.mk.inj (Option.some.inj h)
      cases settled with
      | false => exact .stopped hf
      | true => exact .looped hf
  | done r => exact absurd h (by simp [step])

/-! ## How many steps are left -/

/-- The most steps one pass of the `while` loop takes. -/
def perRound : ℕ := 3 * gcBatch + 6

/-- The steps left at the head of the loop, with this many rows. -/
def atTop (rows : ℕ) : ℕ := 2 + rows * perRound

/-- The steps left, when the head of the loop has `n` left. -/
def left (n : ℕ) : Gc → ℕ
  | start => n + 1
  | top _ _ => n
  | query _ _ _ => n - 1
  | pick _ _ cs _ d _ => 3 * cs.length + d.keys.length + 3 + n
  | evict _ _ _ cs d _ => 3 * cs.length + d.keys.length + 5 + n
  | finish _ _ f _ => f.batches.length + 2 + n
  | done _ => 0

/-- No row has been deleted since the query, by the pass or by others: every candidate left is still
evictable, and none has been settled. -/
def Fresh (db : Db) : Gc → Prop
  | pick _ at' cs settled _ _ => settled = false ∧ ∀ c ∈ cs, IsCandidate db at' c
  | evict _ at' hash cs _ _ => ∃ size, ∀ c ∈ (hash, size) :: cs, IsCandidate db at' c
  | finish _ settled _ _ => settled = false
  | _ => False

/-- At most `b` steps are left while the others commit nothing. A fresh pass of the loop has its
next eviction before it, or the end of the loop. -/
def Within (p : World × Gc) (b : ℕ) : Prop :=
  ∃ n, p.2.left n ≤ b ∧
    (n = atTop p.1.db.count ∨ p.2.Fresh p.1.db ∧ n + perRound = atTop p.1.db.count)

theorem atTop_succ (rows : ℕ) : atTop (rows + 1) = atTop rows + perRound := by
  unfold atTop
  rw [Nat.succ_mul]
  omega

theorem atTop_mono {a b : ℕ} (h : a ≤ b) : atTop a ≤ atTop b := by
  have := Nat.mul_le_mul_right perRound h
  unfold atTop
  omega

theorem left_mono {n m d : ℕ} (h : m ≤ n + d) (g : Gc) : g.left m ≤ g.left n + d := by
  cases g <;> simp only [left] <;> omega

/-- A removal pays for a round. -/
theorem atTop_removed {db : Db} {hash : String} {row : Row} (h : db.row? hash = some row)
    (n : Int) : atTop db.count = atTop (db.removed hash n).count + perRound := by
  rw [← count_removed h n, atTop_succ]

theorem length_chunksAux {α : Type} (n : ℕ) : ∀ (fuel : ℕ) (l : List α),
    (chunksAux n fuel l).length ≤ fuel
  | 0, l => by simp [chunksAux]
  | fuel + 1, [] => by simp [chunksAux]
  | fuel + 1, x :: xs => by
    rw [chunksAux, List.length_cons]
    exact Nat.succ_le_succ (length_chunksAux n fuel _)

theorem length_batches (d : Deletion) : (Finish.start d).batches.length ≤ d.keys.length :=
  length_chunksAux deleteBatch d.keys.length d.keys

@[simp] theorem length_hold (d : Deletion) (hash : String) :
    (d.hold hash).keys.length = d.keys.length + 1 := by
  simp [Deletion.hold, Deletion.queueBlob]

/-- An eviction uses up a step, whether the pass goes on to the next candidate or deletes. -/
theorem left_evicted (usage at' : Int) (hash : String) (cs : List (String × Int)) (d : Deletion)
    (res : PassResult) (usage' : Int) (res' : PassResult) (n : ℕ) :
    (pick usage' at' cs true (d.hold hash) res').left n < (evict usage at' hash cs d res).left n ∧
    (finish usage' true (.start (d.hold hash)) res').left n <
      (evict usage at' hash cs d res).left n := by
  have hbatches := length_batches (d.hold hash)
  simp only [left, length_hold] at hbatches ⊢
  omega

/-- One request less is left, or none. -/
theorem finish_step {f : Finish} {next : Finish ⊕ Except String Unit}
    (h : f.step w o = (w', next)) : w'.db = w.db ∧
      ∀ f', next = .inl f' → f'.batches.length < f.batches.length := by
  unfold Finish.step at h
  split at h
  · obtain ⟨rfl, rfl⟩ := Prod.mk.inj h
    exact ⟨rfl, fun f' hf => absurd hf (by simp)⟩
  · rename_i batch batches hb
    simp only at h
    split at h
    · obtain ⟨rfl, rfl⟩ := Prod.mk.inj h
      refine ⟨rfl, fun f' hf => ?_⟩
      obtain rfl := Sum.inl.inj hf
      simp [hb]
    · obtain ⟨rfl, rfl⟩ := Prod.mk.inj h
      exact ⟨rfl, fun f' hf => absurd hf (by simp)⟩

theorem within_top (w : World) (g : Gc) : Within (w, g) (g.left (atTop w.db.count)) :=
  ⟨_, le_refl _, Or.inl rfl⟩

theorem within_fresh {w : World} {g : Gc} {n : ℕ} (hf : g.Fresh w.db)
    (hn : n + perRound = atTop w.db.count) : Within (w, g) (g.left n) :=
  ⟨n, le_refl _, Or.inr ⟨hf, hn⟩⟩

theorem within_done (w : World) (r : Except String PassResult) : Within (w, done r) 0 :=
  within_top w (done r)

theorem left_pos {n : ℕ} (hn : 2 ≤ n) (hg : ∀ r, g ≠ done r) : 0 < g.left n := by
  cases g with
  | done r => exact absurd rfl (hg r)
  | _ =>
    simp only [left]
    omega

theorem left_pos_of_fresh {db : Db} (h : g.Fresh db) (n : ℕ) : 0 < g.left n := by
  cases g with
  | pick usage at' cs settled d res =>
    simp only [left]
    omega
  | evict usage at' hash cs d res =>
    simp only [left]
    omega
  | finish usage settled f res =>
    simp only [left]
    omega
  | _ => exact absurd h id

/-- A step before the loop's query, or after a row has been deleted since. -/
theorem Ran.within_top (h : Ran env me w o g w' g') :
    ∃ b', b' < g.left (atTop w.db.count) ∧ Within (w', g') b' := by
  have htop : 2 ≤ atTop w.db.count := Nat.le_add_right 2 _
  cases h with
  | reconciled hfree =>
    refine ⟨_, ?_, Gc.within_top _ _⟩
    simp only [left, count_setTotal]
    omega
  | enters hlow =>
    refine ⟨_, ?_, Gc.within_top _ _⟩
    simp only [left]
    omega
  | leaves hlow => exact ⟨0, by simp only [left]; omega, within_done _ _⟩
  | exhausted hfree hq => exact ⟨0, by simp only [left]; omega, within_done _ _⟩
  | @listed usage at' res cs hfree hne hq =>
    -- the candidates have a row, which pays for going through them
    obtain ⟨hlen, hcand, -, -⟩ := evictable_ok hq
    obtain ⟨c, hc⟩ := List.exists_mem_of_ne_nil cs hne
    obtain ⟨row, hrow, -⟩ := hcand c hc
    have hn := atTop_removed hrow 0
    refine ⟨_, ?_, within_fresh ⟨rfl, hcand⟩ hn.symm⟩
    have hround : perRound = 3 * gcBatch + 6 := rfl
    simp only [left, List.length_nil]
    omega
  | @emptied usage at' settled d res =>
    have hbatches := length_batches d
    refine ⟨_, ?_, Gc.within_top _ _⟩
    simp only [left, List.length_nil]
    omega
  | busy hbusy =>
    refine ⟨_, ?_, Gc.within_top _ _⟩
    simp only [left, List.length_cons]
    omega
  | claimed hf =>
    refine ⟨_, ?_, Gc.within_top _ _⟩
    simp only [left, List.length_cons]
    omega
  | spared hfree hkeep =>
    refine ⟨_, ?_, Gc.within_top _ _⟩
    simp only [left, World.release_db]
    omega
  | @evicted usage at' hash cs d res row hfree hrow hev hlow =>
    have hpaid := atTop_removed hrow row.fileSize
    have hlt := (left_evicted usage at' hash cs d res (usage - row.fileSize)
      (res.add row.fileSize) (atTop w.db.count)).1
    have hle : atTop (w.db.removed hash row.fileSize).count ≤ atTop w.db.count + 0 := by omega
    exact ⟨_, lt_of_le_of_lt (left_mono hle _) hlt, Gc.within_top _ _⟩
  | @reached usage at' hash cs d res row hfree hrow hev hlow =>
    have hpaid := atTop_removed hrow row.fileSize
    have hlt := (left_evicted usage at' hash cs d res (usage - row.fileSize)
      (res.add row.fileSize) (atTop w.db.count)).2
    have hle : atTop (w.db.removed hash row.fileSize).count ≤ atTop w.db.count + 0 := by omega
    exact ⟨_, lt_of_le_of_lt (left_mono hle _) hlt, Gc.within_top _ _⟩
  | deleting hf =>
    obtain ⟨hdb, hlt⟩ := finish_step hf
    have hlt := hlt _ rfl
    refine ⟨_, ?_, Gc.within_top _ _⟩
    simp only [left, hdb]
    omega
  | looped hf =>
    obtain ⟨hdb, -⟩ := finish_step hf
    refine ⟨_, ?_, Gc.within_top _ _⟩
    simp only [left, hdb]
    omega
  | stopped hf => exact ⟨0, by simp only [left]; omega, within_done _ _⟩
  | undeleted hf => exact ⟨0, by simp only [left]; omega, within_done _ _⟩
  | failed hg hio => exact ⟨0, left_pos htop hg, within_done _ _⟩

/-- A step while the candidates are as the query returned them. -/
theorem Ran.within_fresh (h : Ran env me w o g w' g') (hf : g.Fresh w.db) {n : ℕ}
    (hn : n + perRound = atTop w.db.count) : ∃ b', b' < g.left n ∧ Within (w', g') b' := by
  cases h with
  | reconciled hfree => exact absurd hf id
  | enters hlow => exact absurd hf id
  | leaves hlow => exact absurd hf id
  | exhausted hfree hq => exact absurd hf id
  | listed hfree hne hq => exact absurd hf id
  | @emptied usage at' settled d res =>
    have hbatches := length_batches d
    refine ⟨_, ?_, Gc.within_fresh hf.1 hn⟩
    simp only [left, List.length_nil]
    omega
  | busy hbusy =>
    have hrest := fun c hc => hf.2 c (List.mem_cons_of_mem _ hc)
    refine ⟨_, ?_, Gc.within_fresh ⟨hf.1, hrest⟩ hn⟩
    simp only [left, List.length_cons]
    omega
  | claimed hclaim =>
    refine ⟨_, ?_, Gc.within_fresh ⟨_, hf.2⟩ hn⟩
    simp only [left, List.length_cons]
    omega
  | spared hfree hkeep =>
    -- the claimed candidate is still evictable, so it is not refused
    obtain ⟨size, hcand⟩ := hf
    obtain ⟨row, hrow, -, hev⟩ := hcand _ List.mem_cons_self
    rw [hkeep row hrow] at hev
    exact absurd hev (by simp)
  | @evicted usage at' hash cs d res row hfree hrow hev hlow =>
    have hpaid := atTop_removed hrow row.fileSize
    have hlt := (left_evicted usage at' hash cs d res (usage - row.fileSize)
      (res.add row.fileSize) n).1
    have hle : atTop (w.db.removed hash row.fileSize).count ≤ n + 0 := by omega
    exact ⟨_, lt_of_le_of_lt (left_mono hle _) hlt, Gc.within_top _ _⟩
  | @reached usage at' hash cs d res row hfree hrow hev hlow =>
    have hpaid := atTop_removed hrow row.fileSize
    have hlt := (left_evicted usage at' hash cs d res (usage - row.fileSize)
      (res.add row.fileSize) n).2
    have hle : atTop (w.db.removed hash row.fileSize).count ≤ n + 0 := by omega
    exact ⟨_, lt_of_le_of_lt (left_mono hle _) hlt, Gc.within_top _ _⟩
  | deleting hstep =>
    obtain ⟨hdb, hlt⟩ := finish_step hstep
    have hlt := hlt _ rfl
    refine ⟨_, ?_, Gc.within_fresh hf (by rw [hdb]; exact hn)⟩
    simp only [left]
    omega
  | looped hstep => exact absurd hf (by simp [Fresh])
  | stopped hstep => exact ⟨0, by simp only [left]; omega, within_done _ _⟩
  | undeleted hstep => exact ⟨0, by simp only [left]; omega, within_done _ _⟩
  | failed hg hio => exact ⟨0, Gc.left_pos_of_fresh hf n, within_done _ _⟩

/-- **Every step uses up one of the steps left.** -/
theorem Ran.within (h : Ran env me w o g w' g') {b : ℕ} (hw : Within (w, g) b) :
    ∃ b', b' < b ∧ Within (w', g') b' := by
  obtain ⟨n, hle, rfl | ⟨hf, hn⟩⟩ := hw
  · obtain ⟨b', hlt, hw⟩ := h.within_top
    exact ⟨b', lt_of_lt_of_le hlt hle, hw⟩
  · obtain ⟨b', hlt, hw⟩ := h.within_fresh hf hn
    exact ⟨b', lt_of_lt_of_le hlt hle, hw⟩

/-- What a step of another task may leave: at most one row more, and the pass where it was. -/
def Theirs (p q : World × Gc) : Prop := q.2 = p.2 ∧ q.1.db.count ≤ p.1.db.count + 1

/-- What a step of another task leaves when it commits nothing. -/
def Idle (p q : World × Gc) : Prop := q.2 = p.2 ∧ q.1.db = p.1.db

variable (env me) in
/-- A step of the pass. -/
def Own (p q : World × Gc) : Prop := ∃ o, p.2.step env me p.1 o = some q

/-- **A commit of another task costs a pass two rounds of its loop at most**: the one it spoils, and
the one for the row it may add. -/
theorem potential : Potential (Own env me) Idle Theirs (2 * perRound) Within where
  own := by
    rintro ⟨w, g⟩ ⟨w', g'⟩ b hw ⟨o, ho⟩
    exact (step_ran ho).within hw
  idle := by
    rintro ⟨w, g⟩ ⟨w', g'⟩ b ⟨n, hle, hn⟩ ⟨rfl, hdb⟩
    refine ⟨n, hle, ?_⟩
    simp only at hdb hn ⊢
    rwa [hdb]
  theirs := by
    rintro ⟨w, g⟩ ⟨w', g'⟩ b ⟨n, hle, hn⟩ ⟨rfl, hcount⟩
    simp only at hcount hn
    have hmono := atTop_mono hcount
    rw [atTop_succ] at hmono
    have hbound : atTop w'.db.count ≤ n + 2 * perRound := by
      rcases hn with rfl | ⟨-, hn⟩
      · omega
      · omega
    exact ⟨_, (left_mono hbound _).trans (Nat.add_le_add_right hle _), within_top w' _⟩

end Gc

namespace Sys

variable {δ : Type} (env : Env δ) (i : ℕ)

/-- Where the pass that task `i` is stands. -/
def pass (s : Sys) : World × Gc :=
  match s.task? i with
  | some (.gc g) => (s.world, g)
  | _ => (s.world, .start)

/-- A step of task `i`. -/
def Own (s t : Sys) : Prop := ∃ a, a.runs = some i ∧ s.step env a = some t

/-- A step of anything else, the process living on. -/
def Theirs (s t : Sys) : Prop := ∃ a, a.runs ≠ some i ∧ a ≠ .crash ∧ s.step env a = some t

/-- A step of anything else that leaves the database alone. -/
def Idle (s t : Sys) : Prop := Theirs env i s t ∧ t.world.db = s.world.db

variable {env i}

theorem pass_of_task {s : Sys} {g : Gc} (h : s.task? i = some (.gc g)) :
    s.pass i = (s.world, g) := by
  unfold pass
  rw [h]

/-- Another task's step leaves task `i` where it was. -/
theorem theirs_task {s t : Sys} (h : Theirs env i s t) {x : Task} (hx : s.task? i = some x) :
    t.task? i = some x := by
  obtain ⟨a, hruns, hcrash, hs⟩ := h
  cases step_cases hs with
  | @spawned j y hnone hinit =>
    have hne : i ≠ j := by
      rintro rfl
      rw [hnone] at hx
      exact absurd hx (by simp)
    rw [task?_put, if_neg hne]
    exact hx
  | @ran a j o y y' w' ha hy hrun =>
    have hne : i ≠ j := by
      rintro rfl
      exact hruns ha
    rw [task?_put, if_neg hne]
    exact hx
  | crashed => exact absurd rfl hcrash
  | ticked => exact hx
  | outside => exact hx

/-- Every step adds at most one row. -/
theorem step_count {s t : Sys} {a : Act} (hi : Inv env s) (h : s.step env a = some t) :
    t.world.db.count ≤ s.world.db.count + 1 := by
  obtain ⟨e, hdoes, -, -⟩ := step_effect hi h
  by_cases hins : ∃ obj at', e = .inserted obj at'
  · obtain ⟨obj, at', rfl⟩ := hins
    refine count_le obj.storePathHash fun k row hrow => ?_
    cases hold : s.world.row? k with
    | some old => exact Or.inr ⟨old, hold⟩
    | none =>
      obtain ⟨obj', at'', he, hk, -⟩ := hdoes.row_new hold hrow
      cases he
      exact Or.inl hk
  · refine count_le "" fun k row hrow => Or.inr ?_
    cases hold : s.world.row? k with
    | some old => exact ⟨old, hold⟩
    | none =>
      obtain ⟨obj', at'', he, -⟩ := hdoes.row_new hold hrow
      exact absurd ⟨obj', at'', he⟩ hins

/-- A step of the pass, as the system runs it. -/
theorem own_pass {s t : Sys} {g : Gc} (hg : s.task? i = some (.gc g)) (h : Own env i s t) :
    ∃ g', t.task? i = some (.gc g') ∧ Gc.Own env i (s.world, g) (t.world, g') := by
  obtain ⟨a, hruns, hs⟩ := h
  cases a with
  | step j o =>
    obtain rfl : j = i := Option.some.inj hruns
    simp only [step, hg, Option.bind_some] at hs
    obtain ⟨⟨w', x⟩, hstep, rfl⟩ := Option.map_eq_some_iff.mp hs
    obtain ⟨g', hg', rfl⟩ := Task.lift_cases hstep
    exact ⟨g', by rw [task?_put, if_pos rfl], o, hg'⟩
  | drop j =>
    obtain rfl : j = i := Option.some.inj hruns
    simp only [step, hg, Option.bind_some] at hs
    exact absurd hs (by simp [Task.drop])
  | _ => exact absurd hruns (by simp [Act.runs])

/-- **A pass among other tasks ends when they stop committing**: it takes at most `perRound` steps
for each row there is at first, and twice as many for each commit of the others. -/
theorem pass_steps_le {s t : Sys} {n c : ℕ} (hi : Inv env s) (hgc : s.task? i = some (.gc .start))
    (h : Mixed (Own env i) (Idle env i) (Theirs env i) n c s t) :
    n ≤ 3 + (s.world.db.count + 2 * c) * Gc.perRound := by
  let I : Sys → Prop := fun s => Inv env s ∧ ∃ g, s.task? i = some (.gc g)
  have hown : ∀ s t, I s → Own env i s t → I t ∧ Gc.Own env i (s.pass i) (t.pass i) := by
    rintro s t ⟨hi, g, hg⟩ hst
    obtain ⟨g', hg', hpass⟩ := own_pass hg hst
    obtain ⟨a, -, hs⟩ := hst
    rw [pass_of_task hg, pass_of_task hg']
    exact ⟨⟨inv_step hi hs, g', hg'⟩, hpass⟩
  have htheirs : ∀ s t, I s → Theirs env i s t → I t ∧ Gc.Theirs (s.pass i) (t.pass i) := by
    rintro s t ⟨hi, g, hg⟩ hst
    have hg' := theirs_task hst hg
    obtain ⟨a, -, -, hs⟩ := hst
    rw [pass_of_task hg, pass_of_task hg']
    exact ⟨⟨inv_step hi hs, g, hg'⟩, rfl, step_count hi hs⟩
  have hidle : ∀ s t, I s → Idle env i s t → I t ∧ Gc.Idle (s.pass i) (t.pass i) := by
    rintro s t hs ⟨hst, hdb⟩
    refine ⟨(htheirs s t hs hst).1, ?_⟩
    obtain ⟨-, g, hg⟩ := hs
    rw [pass_of_task hg, pass_of_task (theirs_task hst hg)]
    exact ⟨rfl, hdb⟩
  have hmap := (h.map (pass i) I hown hidle htheirs ⟨hi, _, hgc⟩).2
  rw [pass_of_task hgc] at hmap
  obtain ⟨b', hle, -⟩ := hmap.own_le Gc.potential (Gc.within_top _ _)
  simp only [Gc.left, Gc.atTop] at hle
  rw [Nat.add_mul, Nat.mul_right_comm 2 c]
  omega

end Sys

end Garret
