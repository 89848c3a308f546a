import Garret.Pusher.System

/-!
# Every row has its blob

In every state the Pusher reaches from an empty database and bucket, through any interleaving of
uploads, dropped handlers, eviction passes, admin deletes, prunes, orphan sweeps, fsck repairs and
crashes, a row names a blob that is there, with the digest and the length the row says.

The invariant `Backed` also speaks of uploads between the transfer and the insert: the blob of the
object they are going to insert is in place. A blob is overwritten or deleted only by the task that
holds its path while there is no row (`Inv.causes_put`, `Inv.causes_unlinked`), so neither a row nor
another upload loses its blob.
-/

namespace Garret.Sys

open Garret.Lib

variable {δ : Type} {env : Env δ} {s s' : Sys} {a : Act}

/-- The blob of `hash` has this digest and length. -/
def HasBlob (env : Env δ) (w : World) (hash fileHash : String) (fileSize : Int) : Prop :=
  ∃ blob, w.blob? hash = some blob ∧ Upload.Backs env blob fileHash fileSize

/-- Every row has its blob, and so does every object about to be inserted. -/
structure Backed (env : Env δ) (s : Sys) : Prop where
  row : ∀ hash row, s.world.row? hash = some row →
    HasBlob env s.world hash row.fileHash row.fileSize
  object : ∀ i t hash obj, s.task? i = some t → t.object? = some (hash, obj) →
    HasBlob env s.world hash obj.fileHash obj.fileSize

/-- No blob is lost from the bucket. -/
def Lossless (_ : Sys) (a : Act) : Prop := ∀ key, a ≠ .lose key

instance (s : Sys) (a : Act) : Decidable (Lossless s a) :=
  match a with
  | .lose key => isFalse fun h => h key rfl
  | .spawn _ _ => isTrue fun _ h => by cases h
  | .step _ _ => isTrue fun _ h => by cases h
  | .drop _ => isTrue fun _ h => by cases h
  | .crash => isTrue fun _ h => by cases h
  | .tick _ => isTrue fun _ h => by cases h
  | .negotiate _ _ => isTrue fun _ h => by cases h
  | .pin _ _ _ _ => isTrue fun _ h => by cases h
  | .unpin _ _ => isTrue fun _ h => by cases h
  | .bump _ _ _ _ => isTrue fun _ h => by cases h

/-- The blob of a path with a row stays. -/
theorem blob_of_row {e : Effect} (hi : Inv env s) (hd : e.Does s.world s'.world)
    (hc : Causes s a e) (hl : Lossless s a) {hash : String}
    (hrow : s.world.row? hash ≠ none) : s'.world.blob? hash = s.world.blob? hash := by
  rcases hd.blob_cases hash with heq | ⟨blob, rfl, -⟩ | ⟨keys, rfl, hk, -⟩
  · exact heq
  · exact absurd (hi.causes_put hc).1 hrow
  · rcases hi.causes_unlinked hc hk with ⟨key, ha⟩ | ⟨hnone, -⟩
    · exact absurd ha (hl key)
    · exact absurd hnone hrow

/-- The blob of a path another task holds stays. -/
theorem blob_of_held {e : Effect} (hi : Inv env s) (hd : e.Does s.world s'.world)
    (hc : Causes s a e) (hl : Lossless s a) {hash : String} {j : ℕ} {k : Kind}
    (hheld : (hash, k) ∈ s.holds j)
    (hother : a.runs ≠ some j) :
    s'.world.blob? hash = s.world.blob? hash := by
  have hfree : ∀ i k', a.runs = some i → (hash, k') ∉ s.holds i := by
    intro i k' ha hin
    have hji : j ≠ i := fun h => hother (h ▸ ha)
    exact hi.owned.disjoint j i hji _ hheld (List.mem_map.mpr ⟨_, hin, rfl⟩)
  rcases hd.blob_cases hash with heq | ⟨blob, rfl, -⟩ | ⟨keys, rfl, hk, -⟩
  · exact heq
  · obtain ⟨-, i, ha, hin⟩ := hi.causes_put hc
    exact absurd hin (hfree i _ ha)
  · rcases hi.causes_unlinked hc hk with ⟨key, ha⟩ | ⟨-, i, ha, hin⟩
    · exact absurd ha (hl key)
    · exact absurd hin (hfree i _ ha)

theorem HasBlob.congr {w w' : World} {hash fileHash : String} {n : Int}
    (h : HasBlob env w hash fileHash n) (hb : w'.blob? hash = w.blob? hash) :
    HasBlob env w' hash fileHash n := by
  obtain ⟨blob, hblob, hback⟩ := h
  exact ⟨blob, hb.trans hblob, hback⟩

/-- **Every action but a loss keeps the blobs behind rows.** -/
theorem row_backed (hi : Inv env s) (hb : Backed env s) (hl : Lossless s a)
    (h : s.step env a = some s') {hash : String} {row : Row}
    (hrow : s'.world.row? hash = some row) :
    HasBlob env s'.world hash row.fileHash row.fileSize := by
  obtain ⟨e, hd, hc, -⟩ := step_effect hi h
  rcases hd.row_cases hash with heq | ⟨-, hgone⟩ | ⟨obj, at', rfl, rfl, hnew⟩ | ⟨a, b, ha, hb', hkin, -⟩
  · rw [heq] at hrow
    exact (hb.row hash row hrow).congr (blob_of_row hi hd hc hl (by rw [hrow]; simp))
  · rw [hgone] at hrow
    exact absurd hrow (by simp)
  · -- the upload that commits stored its blob before, and an insert leaves the bucket alone
    obtain ⟨i, attached, ht, -⟩ := hi.causes_inserted hc
    obtain rfl := Option.some.inj (hrow.symm.trans hnew)
    refine (hb.object i _ _ obj ht rfl).congr ?_
    unfold World.blob?
    rw [hd.bucket]
    rfl
  · obtain rfl := Option.some.inj (hrow.symm.trans hb')
    have hback := (hb.row hash a ha).congr (blob_of_row hi hd hc hl (by rw [ha]; simp))
    unfold Row.Kin at hkin
    rw [hkin]
    exact hback

/-- **Every action but a loss keeps the blobs behind uploads.** -/
theorem object_backed (hi : Inv env s) (hb : Backed env s) (hl : Lossless s a)
    (h : s.step env a = some s') {j : ℕ} {t : Task} {hash : String} {obj : Object}
    (ht : s'.task? j = some t) (ho : t.object? = some (hash, obj)) :
    HasBlob env s'.world hash obj.fileHash obj.fileSize := by
  obtain ⟨e, hd, hc, -⟩ := step_effect hi h
  have hheld := Task.absent_held (Task.object_absent ho)
  -- a task that does not move keeps its object, and nobody else touches its blob
  have hstay : s.task? j = some t → a.runs ≠ some j →
      HasBlob env s'.world hash obj.fileHash obj.fileSize := fun htj hne =>
    (hb.object j t hash obj htj ho).congr
      (blob_of_held hi hd hc hl (by rw [holds_of_task htj]; exact hheld) hne)
  cases step_cases h with
  | @spawned i t₀ hnone hinit =>
    rw [task?_put] at ht
    split at ht
    · obtain rfl := Option.some.inj ht
      rw [(Task.initial_idle hinit).2.2.2.2.1] at ho
      exact absurd ho (by simp)
    · exact hstay ht (by simp [Act.runs])
  | @ran a i o t₀ t' w' ha ht₀ hrun =>
    rw [task?_put] at ht
    split at ht
    · obtain rfl := Option.some.inj ht
      rcases Task.step_object hrun ho with ⟨hold, hbk⟩ | ⟨-, -, hnew⟩
      · refine (hb.object i t₀ hash obj ht₀ hold).congr ?_
        unfold World.blob?
        rw [show (s.put i (w', t')).world.bucket = s.world.bucket from hbk]
      · exact hnew
    · rename_i hji
      refine hstay ht fun hj => hji ?_
      exact Option.some.inj (hj.symm.trans ha)
  | crashed => exact absurd ht (by simp [boot, task?])
  | ticked => exact hstay ht (by simp [Act.runs])
  | outside hr => exact hstay ht (by simp [hr])

theorem backed_boot (clock : Int) : Backed env (boot .empty ∅ clock) :=
  ⟨fun _ _ h => absurd h (by simp [boot, World.boot, World.row?]),
    fun _ _ _ _ h => absurd h (by simp [boot, task?])⟩

/-- **Every row has its blob.** In every state reached from an empty database and bucket, whatever
the tasks do, fail at or are dropped at, and however often the process dies, every row names a blob
that is in the bucket and whose sha256 and length are the row's `file_hash` and `file_size`. -/
theorem row_has_blob (env : Env δ) (clock : Int) {s : Sys}
    (h : Reach (step env) Lossless (boot .empty ∅ clock) s) {hash : String} {row : Row}
    (hrow : s.world.row? hash = some row) :
    ∃ blob, s.world.blob? hash = some blob ∧ row.fileHash = sha256Nix32 (env.sha256 blob) ∧
      row.fileSize = blob.length := by
  have hinv : Inv env s ∧ Backed env s :=
    h.invariant (I := fun s => Inv env s ∧ Backed env s)
      (fun s a s' hi hl hs => ⟨inv_step hi.1 hs, fun _ _ => row_backed hi.1 hi.2 hl hs,
        fun _ _ _ _ => object_backed hi.1 hi.2 hl hs⟩)
      ⟨inv_boot _ _ _, backed_boot clock⟩
  exact hinv.2.row hash row hrow

/-- An upload, a second one that is dropped half-way, and a crash. -/
theorem row_has_blob_crash : ∃ s row,
    Reach (step Sample.env) Lossless (boot .empty ∅ 7) s ∧
    s.world.row? Sample.hash = some row ∧ s.world.blob? Sample.hash = some Sample.frame ∧
    row.fileHash = sha256Nix32 (Sample.env.sha256 Sample.frame) ∧
    row.fileSize = Sample.frame.length := by
  have hrun : ((exec (step Sample.env) Lossless
      (Sample.push 0 "ci" ++ [.spawn 1 (.upload (.start Sample.hash "dev")), .step 1 .calm, .drop 1,
        .crash]) (boot .empty ∅ 7)).bind fun s =>
        (s.world.row? Sample.hash).filter fun _ =>
          decide (s.world.blob? Sample.hash = some Sample.frame)).isSome = true := by
    decide +kernel
  obtain ⟨row, hrow⟩ := Option.isSome_iff_exists.mp hrun
  obtain ⟨s, hs, hrow⟩ := Option.bind_eq_some_iff.mp hrow
  obtain ⟨hrow, hblob⟩ := Option.filter_eq_some_iff.mp hrow
  have hblob : s.world.blob? Sample.hash = some Sample.frame := of_decide_eq_true hblob
  obtain ⟨blob, hb, hhash, hsize⟩ := row_has_blob Sample.env 7 (exec_reach hs) hrow
  obtain rfl := Option.some.inj (hblob.symm.trans hb)
  exact ⟨s, row, exec_reach hs, hrow, hblob, hhash, hsize⟩

end Garret.Sys
