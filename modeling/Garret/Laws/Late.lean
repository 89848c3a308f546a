import Garret.Laws.RowBlob
import Garret.Pusher.Late

/-!
# What a late request hits

`Deletion::finish` gives its claims back whether or not the blobs are gone, and so do a failed
transfer and a dropped handler. A request that has not been applied by then is no longer covered by
a claim: the path can be uploaded again, and the request then hits the blob of the new row
(`late_delete_takes_blob`). The claim spans the row and blob deletes so that no upload comes in
between (`deletion.rs`), but it orders requests by when the client stops waiting for them.

* `Settled` is what is missing: a row is inserted only when nothing is left behind for its path,
  save a `PutObject` of the very bytes it records.
* `spares_rows`: where inserts meet it, no late request hurts a row; where one does not, some
  pending request hurts the row just inserted.
* `rows_keep_blobs`: with it, and no late request between the store of a transfer and its insert,
  every row has its blob as before.
-/

namespace Garret

namespace Late

open Garret.Lib Sys

variable {δ : Type} {env : Env δ} {s s' : Late}

/-- S3 applies `p` to the bucket, and every row keeps its blob, or gets one of the hash and the
length it records. -/
def Spares (env : Env δ) (w : World) (p : Pending) : Prop :=
  ∀ hash row blob, w.row? hash = some row → w.blob? hash = some blob →
    ∃ blob', (p.apply w).blob? hash = some blob' ∧
      (blob' = blob ∨ Upload.Backs env blob' row.fileHash row.fileSize)

/-- The request writes bytes of this hash and length. -/
def Renews (env : Env δ) (fileHash : String) (fileSize : Int) : Pending → Prop
  | .delete _ => False
  | .put _ blob => Upload.Backs env blob fileHash fileSize

instance (env : Env δ) (fileHash : String) (fileSize : Int) (p : Pending) :
    Decidable (Renews env fileHash fileSize p) := by
  cases p <;> unfold Renews <;> try unfold Upload.Backs
  all_goals infer_instance

/-- The object whose row the action commits: that of an upload at its insert, unless the database
fails. -/
def inserting? (s : Sys) : Act → Option Object
  | .step i o =>
    match s.task? i with
    | some (.upload (.insert _ obj at' _)) =>
      match (insertObject o.io obj at' s.world.db).1 with
      | .ok () => some obj
      | .error _ => none
    | _ => none
  | _ => none

/-- A row is inserted only when no request for its path is left behind, save one that writes bytes
of the hash and the length the row records. -/
def Settled (env : Env δ) (s : Late) : Event → Prop
  | .act a _ => ∀ obj, inserting? s.sys a = some obj → ∀ p ∈ s.late,
      p.isFor obj.storePathHash = true → Renews env obj.fileHash obj.fileSize p
  | .apply _ => True

instance (env : Env δ) (s : Late) (e : Event) : Decidable (Settled env s e) :=
  match e with
  | .act a _ =>
    inferInstanceAs (Decidable (∀ obj, obj ∈ inserting? s.sys a → ∀ p ∈ s.late,
      p.isFor obj.storePathHash = true → Renews env obj.fileHash obj.fileSize p))
  | .apply _ => isTrue trivial

/-! ## The invariant -/

/-- What is left behind for a path with a row writes bytes the row records. -/
def Clear (env : Env δ) (s : Late) : Prop :=
  ∀ hash row, s.sys.world.row? hash = some row → ∀ p ∈ s.late, p.isFor hash = true →
    Renews env row.fileHash row.fileSize p

theorem Clear.spares (h : Clear env s) {p : Pending} (hp : p ∈ s.late) :
    Spares env s.sys.world p := by
  intro hash row blob hrow hblob
  cases hon : p.isFor hash with
  | false => exact ⟨blob, (p.apply_blob?_of_not hon).trans hblob, Or.inl rfl⟩
  | true =>
    have hren := h hash row hrow p hp hon
    cases p with
    | delete key => exact absurd hren id
    | put k new => exact ⟨new, Pending.apply_put hon, Or.inr hren⟩

/-- The insert of an upload: the row is there, or nothing has changed. -/
theorem insert_step {sys sys' : Sys} {i : ℕ} {o : Oracle} {hash : String} {obj : Object}
    {at' : Int} {attached : Bool}
    (ht : sys.task? i = some (.upload (.insert hash obj at' attached)))
    (h : sys.step env (.step i o) = some sys') :
    ((insertObject o.io obj at' sys.world.db).1 = .ok () ∧
      sys'.world.row? obj.storePathHash = some (obj.toRow at')) ∨
    ((∃ e, (insertObject o.io obj at' sys.world.db).1 = .error e) ∧
      ∀ k, sys'.world.row? k = sys.world.row? k) := by
  simp only [Sys.step, ht, Option.bind_some] at h
  obtain ⟨⟨w', t'⟩, hs, rfl⟩ := Option.map_eq_some_iff.mp h
  obtain ⟨u', hu, -⟩ := Task.lift_cases hs
  simp only [Upload.step] at hu
  split at hu
  · split at hu
    · rename_i db hins
      obtain ⟨rfl, rfl⟩ := Prod.mk.inj (Option.some.inj hu)
      rcases insertObject_cases hins with ⟨-, hby⟩ | ⟨⟨e, he⟩, -⟩
      · refine Or.inl ⟨by rw [hins], ?_⟩
        show Db.row? db _ = _
        rw [hby.row?, if_pos rfl]
      · exact absurd he (by simp)
    · rename_i e db hins
      obtain ⟨rfl, rfl⟩ := Prod.mk.inj (Option.some.inj hu)
      rcases insertObject_cases hins with ⟨he, -⟩ | ⟨-, rfl⟩
      · exact absurd he (by simp)
      · exact Or.inr ⟨⟨e, by rw [hins]⟩, fun _ => rfl⟩
  · exact absurd hu (by simp)

/-- The row an action inserts is there after it. -/
theorem row_of_inserting {sys sys' : Sys} {a : Act} {obj : Object}
    (hi : inserting? sys a = some obj) (h : sys.step env a = some sys') :
    ∃ at', sys'.world.row? obj.storePathHash = some (obj.toRow at') := by
  cases a with
  | step i o =>
    simp only [inserting?] at hi
    split at hi
    · rename_i hash ob at' attached ht
      split at hi
      · rename_i hok
        obtain rfl := Option.some.inj hi
        rcases insert_step ht h with ⟨-, hrow⟩ | ⟨⟨e, he⟩, -⟩
        · exact ⟨at', hrow⟩
        · rw [hok] at he
          exact absurd he (by simp)
      · exact absurd hi (by simp)
    · exact absurd hi (by simp)
  | _ => exact absurd hi (by simp [inserting?])

/-- A new row is that of the object the action inserts. -/
theorem inserting_of_new {sys sys' : Sys} {a : Act} (hinv : sys.Inv env)
    (h : sys.step env a = some sys') {hash : String} {row : Row}
    (hnone : sys.world.row? hash = none) (hrow : sys'.world.row? hash = some row) :
    ∃ obj at', inserting? sys a = some obj ∧ hash = obj.storePathHash ∧ row = obj.toRow at' := by
  obtain ⟨e, hd, hc, -⟩ := step_effect hinv h
  obtain ⟨obj, at', rfl, hk, hnew⟩ := hd.row_new hnone hrow
  refine ⟨obj, at', ?_, hk, hnew⟩
  cases hc with
  | @task i t e ha ht hal =>
    obtain ⟨k, attached, rfl, -⟩ := hinv.inserted ht hal rfl
    cases a with
    | step j o =>
      obtain rfl := Option.some.inj ha
      rcases insert_step ht h with ⟨hok, -⟩ | ⟨-, hsame⟩
      · simp only [inserting?, ht, hok]
      · -- a failed insert leaves no row
        rw [hsame, hnone] at hrow
        exact absurd hrow (by simp)
    | drop j =>
      -- a dropped handler commits nothing
      obtain rfl := Option.some.inj ha
      simp only [Sys.step, ht, Option.bind_some] at h
      obtain rfl := Option.some.inj h
      exact absurd (hnone.symm.trans hrow) (by simp)
    | _ => exact absurd ha (by simp [Act.runs])

theorem clear_start (sys : Sys) : Clear env (start sys) :=
  fun _ _ _ _ hp => absurd hp List.not_mem_nil

/-- **Every event keeps the rows clear** of what is left behind, when inserts wait for it. -/
theorem clear_step {e : Event} (hi : s.sys.Inv env) (hc : Clear env s) (hok : Settled env s e)
    (h : s.step env e = some s') : Clear env s' := by
  intro hash row hrow p hp hon
  cases e with
  | act a cut =>
    obtain ⟨hsys, hlate⟩ := step_act h
    rw [hlate] at hp
    rcases List.mem_append.mp hp with hp | hp
    · obtain ⟨e, hd, hcause, -⟩ := step_effect hi hsys
      rcases hd.row_cases hash with heq | ⟨-, hgone⟩ | ⟨obj, at', rfl, rfl, -⟩ |
        ⟨x, y, hx, hy, hkin, -⟩
      · exact hc hash row (heq.symm.trans hrow) p hp hon
      · rw [hgone] at hrow
        exact absurd hrow (by simp)
      · obtain ⟨-, -, -, hnone⟩ := hi.causes_inserted hcause
        obtain ⟨ob, at'', hins, hk, rfl⟩ := inserting_of_new hi hsys hnone hrow
        exact hok ob hins p hp (hk ▸ hon)
      · obtain rfl := Option.some.inj (hy.symm.trans hrow)
        have hren := hc hash x hx p hp hon
        unfold Row.Kin at hkin
        rw [hkin]
        exact hren
    · -- what this action leaves behind names no row
      rw [(left_absent hi hsys hp hon).2] at hrow
      exact absurd hrow (by simp)
  | apply k =>
    obtain ⟨q, -, rfl⟩ := step_apply h
    rw [Pending.apply_row?] at hrow
    exact hc hash row hrow p (List.mem_of_mem_eraseIdx hp) hon

/-- Where nothing is left behind at first, every state is clear. -/
theorem clear_reach {db : Db} {bucket : Table String Bytes} {clock : Int}
    (h : Reach (step env) (Settled env) (start (boot db bucket clock)) s) :
    s.sys.Inv env ∧ Clear env s :=
  h.invariant (I := fun s => s.sys.Inv env ∧ Clear env s)
    (fun _ _ _ hi hok hs => ⟨inv_step hi.1 hs, clear_step hi.1 hi.2 hok hs⟩)
    ⟨inv_boot _ _ _, clear_start _⟩

/-- An insert that does not wait leaves its row to a pending request. -/
theorem settled_of_spares {a : Act} {cut : ℕ → Oracle} (h : s.step env (.act a cut) = some s')
    (hblob : ∀ obj, inserting? s.sys a = some obj →
      HasBlob env s'.sys.world obj.storePathHash obj.fileHash obj.fileSize)
    (hsp : ∀ p ∈ s'.late, Spares env s'.sys.world p) : Settled env s (.act a cut) := by
  intro obj hins p hp hon
  obtain ⟨hsys, hlate⟩ := step_act h
  obtain ⟨at', hrow⟩ := row_of_inserting hins hsys
  obtain ⟨blob, hb, hback⟩ := hblob obj hins
  have hin : p ∈ s'.late := by
    rw [hlate]
    exact List.mem_append_left _ hp
  obtain ⟨blob', hb', hkept⟩ := hsp p hin _ _ _ hrow hb
  cases p with
  | delete key =>
    rw [Pending.apply_delete hon] at hb'
    exact absurd hb' (by simp)
  | put k new =>
    rw [Pending.apply_put hon] at hb'
    obtain rfl := Option.some.inj hb'
    rcases hkept with rfl | hkept
    · exact hback
    · exact hkept

end Late

namespace Sample

/-- The example's server with parts of 16 bytes: its frame goes out in one `PutObject`. -/
def roomy : Env Bytes := { env with limits := ⟨16, 2, by decide⟩ }

/-- Nothing is cancelled. -/
def uncut : ℕ → Oracle := fun _ => .calm

/-- `acts` of the system, nothing cancelled. -/
def played (acts : List Act) : List Late.Event := acts.map fun a => .act a uncut

/-- An upload is dropped when its `PutObject` is on its way, and a second one goes through. -/
def retried : List Late.Event :=
  played (.spawn 0 (.upload (.start hash "ci")) :: List.replicate 4 (.step 0 .calm)) ++
    .act (.drop 0) (fun _ => { Oracle.calm with transfer := upload }) :: played (push 1 "ci")

/-- An upload, and an admin delete of its path whose `DeleteObjects` is not answered. -/
def abandoned : List Late.Event :=
  played (push 0 "ci" ++ .spawn 1 (.delete (.start [hash] false none)) ::
    List.replicate 6 (.step 1 { Oracle.calm with delete := ⟨false, [], []⟩ }))

end Sample

namespace Late

open Garret.Lib Sys

/-- **A late request spares every row, if inserts wait for it.** In every run in which a row is
inserted only when nothing is left behind for its path (or a `PutObject` of the bytes it records),
whatever fails, runs into its timeout or is dropped: a request S3 still applies takes no row's blob
and puts no bytes of another hash or length in its place. Where the next step inserts a row over its
blob without that, one of the requests left behind would hurt a row. -/
theorem spares_rows (env : Env δ) (db : Db) (bucket : Table String Bytes) (clock : Int) {s : Late}
    (h : Reach (step env) (Settled env) (start (boot db bucket clock)) s) :
    (∀ p ∈ s.late, Spares env s.sys.world p) ∧
    ∀ a cut s', s.step env (.act a cut) = some s' →
      (∀ obj, inserting? s.sys a = some obj →
        HasBlob env s'.sys.world obj.storePathHash obj.fileHash obj.fileSize) →
      ((∀ p ∈ s'.late, Spares env s'.sys.world p) ↔ Settled env s (.act a cut)) := by
  obtain ⟨hi, hc⟩ := clear_reach h
  refine ⟨fun p hp => hc.spares hp, fun a cut s' hs hblob => ⟨settled_of_spares hs hblob, ?_⟩⟩
  intro hok p hp
  exact (clear_step hi hc hok hs).spares hp

/-- An upload of the example is dropped before its `PutObject` is answered; another one commits. -/
theorem spares_rows_renewed : ∃ s row,
    Reach (step Sample.roomy) (Settled Sample.roomy) (start (boot .empty ∅ 7)) s ∧
    s.sys.world.row? Sample.hash = some row ∧ s.sys.world.blob? Sample.hash = some Sample.frame ∧
    Pending.put Sample.hash Sample.frame ∈ s.late ∧
    Spares Sample.roomy s.sys.world (.put Sample.hash Sample.frame) := by
  have hrun : ((exec (step Sample.roomy) (Settled Sample.roomy) Sample.retried
      (start (boot .empty ∅ 7))).bind fun s => (s.sys.world.row? Sample.hash).filter fun _ =>
        decide (s.sys.world.blob? Sample.hash = some Sample.frame ∧
          Pending.put Sample.hash Sample.frame ∈ s.late)).isSome = true := by
    decide +kernel
  obtain ⟨row, hrow⟩ := Option.isSome_iff_exists.mp hrun
  obtain ⟨s, hs, hrow⟩ := Option.bind_eq_some_iff.mp hrow
  obtain ⟨hrow, hend⟩ := Option.filter_eq_some_iff.mp hrow
  obtain ⟨hblob, hlate⟩ := of_decide_eq_true hend
  exact ⟨s, row, exec_reach hs, hrow, hblob, hlate,
    (spares_rows Sample.roomy .empty ∅ 7 (exec_reach hs)).1 _ hlate⟩

/-- **A late delete takes the blob of a newer row.** An admin delete's `DeleteObjects` fails and its
claim is given back; a second upload of the path goes through; then S3 applies the delete. -/
theorem late_delete_takes_blob : ∃ s₁ s₂ p row,
    Reach (step Sample.env) (fun _ _ => True) (start (boot .empty ∅ 7)) s₁ ∧
    p ∈ s₁.late ∧ p.isFor Sample.hash = true ∧ s₁.sys.world.row? Sample.hash = none ∧
    Reach (step Sample.env) (fun _ _ => True) s₁ s₂ ∧ p ∈ s₂.late ∧
    s₂.sys.world.row? Sample.hash = some row ∧
    s₂.sys.world.blob? Sample.hash = some Sample.frame ∧
    (p.apply s₂.sys.world).row? Sample.hash = some row ∧
    (p.apply s₂.sys.world).blob? Sample.hash = none ∧ ¬ Spares Sample.env s₂.sys.world p := by
  obtain ⟨s₁, h₁, hp₁, hnone, hrun⟩ := exec_check (step Sample.env) (fun _ _ => True)
    Sample.abandoned (start (boot .empty ∅ 7))
    (fun s₁ => Pending.delete (keyFor Sample.hash) ∈ s₁.late ∧
      s₁.sys.world.row? Sample.hash = none ∧
      (exec (step Sample.env) (fun _ _ => True) (Sample.played (Sample.push 2 "ci")) s₁).any
        (fun s₂ => decide (Pending.delete (keyFor Sample.hash) ∈ s₂.late ∧
          (s₂.sys.world.row? Sample.hash).isSome = true ∧
          s₂.sys.world.blob? Sample.hash = some Sample.frame)) = true)
    (by decide +kernel)
  obtain ⟨s₂, h₂, hp₂, hrow, hblob⟩ := exec_check _ _ _ _ _ hrun
  obtain ⟨row, hrow⟩ := Option.isSome_iff_exists.mp hrow
  have hon : (Pending.delete (keyFor Sample.hash)).isFor Sample.hash = true :=
    beq_self_eq_true (keyFor Sample.hash)
  have hgone := Pending.apply_delete (w := s₂.sys.world) hon
  refine ⟨s₁, s₂, _, row, h₁, hp₁, hon, hnone, h₂, hp₂, hrow, hblob,
    (Pending.apply_row? _ _ _).trans hrow, hgone, fun hsp => ?_⟩
  obtain ⟨blob', hb', -⟩ := hsp _ _ _ hrow hblob
  rw [hgone] at hb'
  exact absurd hb' (by simp)

/-! ## Every row has its blob -/

/-- No late request is applied to the path of an upload between its store and its insert, save one
that writes bytes of the hash and the length the row will record. -/
def Apart (env : Env δ) (s : Late) : Event → Prop
  | .apply k => ∀ p i t hash obj, s.late[k]? = some p → s.sys.task? i = some t →
      t.object? = some (hash, obj) → p.isFor hash = true → Renews env obj.fileHash obj.fileSize p
  | .act a _ => Lossless s.sys a

/-- A request that writes what is recorded, or is for another path, leaves a blob that fits. -/
theorem hasBlob_apply {w : World} {p : Pending} {hash fileHash : String} {n : Int}
    (h : HasBlob env w hash fileHash n)
    (hren : p.isFor hash = true → Renews env fileHash n p) :
    HasBlob env (p.apply w) hash fileHash n := by
  cases hon : p.isFor hash with
  | false => exact h.congr (p.apply_blob?_of_not hon)
  | true =>
    cases p with
    | delete key => exact absurd (hren hon) id
    | put k new => exact ⟨new, Pending.apply_put hon, hren hon⟩

/-- **Every event keeps the blobs behind rows and uploads**, when inserts wait for what is left
behind and it stays away from uploads under way. -/
theorem backed_step {e : Event} (hi : s.sys.Inv env) (hc : Clear env s) (hb : Backed env s.sys)
    (hap : Apart env s e) (h : s.step env e = some s') : Backed env s'.sys := by
  cases e with
  | act a cut =>
    obtain ⟨hsys, -⟩ := step_act h
    exact ⟨fun _ _ hrow => row_backed hi hb hap hsys hrow,
      fun _ _ _ _ ht ho => object_backed hi hb hap hsys ht ho⟩
  | apply k =>
    obtain ⟨p, hp, rfl⟩ := step_apply h
    have hin : p ∈ s.late := List.mem_of_getElem? hp
    refine ⟨fun hash row hrow => ?_, fun i t hash obj ht ho => ?_⟩
    · rw [Pending.apply_row?] at hrow
      exact hasBlob_apply (hb.row hash row hrow) (hc hash row hrow p hin)
    · exact hasBlob_apply (hb.object i t hash obj ht ho) (hap p i t hash obj hp ht ho)

/-- **Every row has its blob, late requests or not**, in every run from an empty database and bucket
whose inserts wait for what is left behind and whose late requests stay away from uploads under
way. -/
theorem rows_keep_blobs (env : Env δ) (clock : Int) {s : Late}
    (h : Reach (step env) (fun s e => Settled env s e ∧ Apart env s e)
      (start (boot .empty ∅ clock)) s) {hash : String} {row : Row}
    (hrow : s.sys.world.row? hash = some row) :
    HasBlob env s.sys.world hash row.fileHash row.fileSize := by
  have hinv : s.sys.Inv env ∧ Clear env s ∧ Backed env s.sys :=
    h.invariant (I := fun s => s.sys.Inv env ∧ Clear env s ∧ Backed env s.sys)
      (fun _ _ _ hi hok hs => ⟨inv_step hi.1 hs, clear_step hi.1 hi.2.1 hok.1 hs,
        backed_step hi.1 hi.2.1 hi.2.2 hok.2 hs⟩)
      ⟨inv_boot _ _ _, clear_start _, backed_boot clock⟩
  exact hinv.2.2.row hash row hrow

end Late

end Garret
