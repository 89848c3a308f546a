import Garret.Pusher.System

/-!
# Re-signing

`resign` reads a chunk of rows, signs what verifies, and writes the signatures back by hash in a
later closure. In between, a row it read can be deleted and pushed again with other contents; the
write-back then puts signatures over the old fingerprint on the new row (`stale_write_back`). `fsck`
guards the same gap with the listed `created_at`; here nothing does.

When every row still has, at the write-back, the fingerprint the chunk's read saw (`Unraced`),
stored signatures stay in step with what they sign, and a row without a verifying signature is never
touched (`signatures_in_step`). Deletes, evictions, prunes, bumps, other re-signs and re-pushes of
the same contents in the gap do no harm.
-/

namespace Garret

open Garret.Lib

variable {δ : Type}

/-- Every stored signature of every row verifies over that row's fingerprint. -/
def Db.Signed (env : Env δ) (db : Db) : Prop :=
  ∀ hash obj, db.object? hash = some obj → sigsVerify obj env.storeDir env.keys = true

/-- The re-sign a task is. -/
def Task.resigning? : Task → Option Resign
  | .resign r => some r
  | _ => none

/-- What a re-sign knows of an update it is going to write: every key has signed the object it read,
and a stored row with that object's fingerprint has a verifying signature. -/
structure Resign.Backed (env : Env δ) (db : Db) (u : Object × List String) : Prop where
  signed : sign u.1 env.storeDir env.keys = .ok u.2
  trusted : ∀ o, db.object? u.1.storePathHash = some o →
    fingerprint o env.storeDir = fingerprint u.1 env.storeDir →
    verify o env.storeDir env.keys = true

/-- What a chunk's read has just found is backed. -/
theorem Resign.Update.backed {env : Env δ} {db : Db} {u : Object × List String}
    (h : Resign.Update env db u) : Resign.Backed env db u := by
  refine ⟨h.signed, fun o ho _ => ?_⟩
  obtain rfl := Option.some.inj (h.stored.symm.trans ho)
  exact h.verified

namespace Sys

variable {env : Env δ} {s s' : Sys} {a : Act}

/-- No re-sign writes to a row whose fingerprint is not the one its chunk read saw. -/
def Unraced (env : Env δ) (s : Sys) (a : Act) : Prop :=
  match a.runs.bind s.task? with
  | some (.resign r) => ∀ u ∈ r.pending, ∀ o ∈ s.world.db.object? u.1.storePathHash,
      fingerprint o env.storeDir = fingerprint u.1 env.storeDir
  | _ => True

theorem unraced_iff (env : Env δ) (s : Sys) (a : Act) :
    (∀ r ∈ (a.runs.bind s.task?).bind Task.resigning?, ∀ u ∈ r.pending,
      ∀ o ∈ s.world.db.object? u.1.storePathHash,
        fingerprint o env.storeDir = fingerprint u.1 env.storeDir) ↔ Unraced env s a := by
  unfold Unraced
  cases a.runs.bind s.task? with
  | none => simp
  | some t => cases t <;> simp [Task.resigning?]

instance (env : Env δ) (s : Sys) (a : Act) : Decidable (Unraced env s a) :=
  decidable_of_iff _ (unraced_iff env s a)

/-- Every update waiting to be written is backed. -/
def Vouched (env : Env δ) (s : Sys) : Prop :=
  ∀ i r, s.task? i = some (.resign r) → ∀ u ∈ r.pending, Resign.Backed env s.world.db u

/-- Only a re-sign writes signatures: those it has pending. -/
theorem causes_resigned {updates : List (String × List String)}
    (h : Causes s a (.resigned updates)) :
    ∃ i r, a.runs = some i ∧ s.task? i = some (.resign r) ∧ updates = Resign.named r.pending := by
  cases h with
  | @task i t e ha ht hal =>
    cases t with
    | resign r => exact ⟨i, r, ha, ht, hal⟩
    | prune p => exact absurd hal id
    | _ => exact absurd hal id

/-- An update a re-sign may write: the row it is written to has the fingerprint that was signed. -/
theorem Unraced.same {i : ℕ} {r : Resign} (hg : Unraced env s a) (ha : a.runs = some i)
    (ht : s.task? i = some (.resign r)) {u : Object × List String} (hu : u ∈ r.pending) {o : Object}
    (ho : s.world.db.object? u.1.storePathHash = some o) :
    fingerprint o env.storeDir = fingerprint u.1 env.storeDir := by
  unfold Unraced at hg
  rw [show a.runs.bind s.task? = some (.resign r) by rw [ha]; exact ht] at hg
  exact hg u hu o ho

/-- **A stored object is the one stored before, or every key has just signed it.** -/
theorem object_step (hi : Inv env s) (hb : Vouched env s) (hg : Unraced env s a)
    (h : s.step env a = some s') {k : String} {o : Object}
    (ho : s'.world.db.object? k = some o) :
    s.world.db.object? k = some o ∨
      sigsVerify o env.storeDir env.keys = true ∧ verify o env.storeDir env.keys = true := by
  obtain ⟨e, hd, hc, -⟩ := step_effect hi h
  rcases hd.object_cases k with heq | hgone | ⟨obj, at', o', he, ho', hsame, hsigs⟩ |
    ⟨updates, he, x, hx, hxk, old, hold, hnew⟩
  · exact Or.inl (heq.symm.trans ho)
  · rw [hgone] at ho
    exact absurd ho (by simp)
  · -- an upload has signed what it inserts
    obtain rfl := Option.some.inj (ho'.symm.trans ho)
    obtain ⟨i, attached, ht, -⟩ := hi.causes_inserted (he ▸ hc)
    have hprep := (hi.sound i _ ht).prepared obj.storePathHash obj rfl
    exact Or.inr (sigsVerify_sign hprep.signed (fingerprint_congr hsame _) hsigs)
  · obtain rfl := Option.some.inj (hnew.symm.trans ho)
    obtain ⟨i, r, ha, ht, rfl⟩ := causes_resigned (he ▸ hc)
    obtain ⟨u, hu, rfl⟩ := List.mem_map.mp hx
    obtain rfl : u.1.storePathHash = k := hxk
    have hfp : fingerprint old env.storeDir = fingerprint u.1 env.storeDir :=
      hg.same ha ht hu hold
    exact Or.inr (sigsVerify_sign (hb i r ht u hu).signed hfp rfl)

theorem signed_step (hi : Inv env s) (hb : Vouched env s) (hg : Unraced env s a)
    (h : s.step env a = some s') (hs : s.world.db.Signed env) : s'.world.db.Signed env := by
  intro k o ho
  rcases object_step hi hb hg h ho with hold | ⟨hver, -⟩
  · exact hs k o hold
  · exact hver

/-- A backed update stays backed. -/
theorem Vouched.other (hi : Inv env s) (hb : Vouched env s) (hg : Unraced env s a)
    (h : s.step env a = some s') {u : Object × List String}
    (hu : Resign.Backed env s.world.db u) : Resign.Backed env s'.world.db u := by
  refine ⟨hu.signed, fun o ho hfp => ?_⟩
  rcases object_step hi hb hg h ho with hold | ⟨-, hver⟩
  · exact hu.trusted o hold hfp
  · exact hver

theorem vouched_step (hi : Inv env s) (hb : Vouched env s) (hg : Unraced env s a)
    (h : s.step env a = some s') : Vouched env s' := by
  intro i r hr u hu
  cases step_cases h with
  | @spawned j t hnone hinit =>
    rw [task?_put] at hr
    split at hr
    · obtain rfl := Option.some.inj hr
      cases r with
      | start => exact absurd hu List.not_mem_nil
      | _ => exact absurd hinit (by simp [Task.initial])
    · exact Vouched.other hi hb hg h (hb i r hr u hu)
  | @ran a j o t t' w' ha hj hrun =>
    rw [task?_put] at hr
    split at hr
    · obtain rfl := Option.some.inj hr
      cases hrun with
      | resign hrun =>
        cases hrun with
        | still hp =>
          rw [hp] at hu
          exact absurd hu List.not_mem_nil
        | chunked hup => exact (hup u hu).backed
        | written hfree => exact absurd hu List.not_mem_nil
    · exact Vouched.other hi hb hg h (hb i r hr u hu)
  | crashed => exact absurd hr (by simp [boot, task?])
  | ticked => exact Vouched.other hi hb hg h (hb i r hr u hu)
  | outside => exact Vouched.other hi hb hg h (hb i r hr u hu)

/-- **A re-sign leaves a row without a verifying signature alone.** -/
theorem resign_leaves (hb : Vouched env s) (hg : Unraced env s a) (h : s.step env a = some s')
    {i : ℕ} {r : Resign} (ha : a.runs = some i) (ht : s.task? i = some (.resign r)) {k : String}
    {obj : Object} (ho : s.world.db.object? k = some obj)
    (hbad : verify obj env.storeDir env.keys = false) :
    s'.world.row? k = s.world.row? k ∧ s'.world.db.references k = s.world.db.references k := by
  obtain ⟨o, t', w', hrun, rfl⟩ := step_runs h ha ht
  cases hrun with
  | resign hrun =>
    cases hrun with
    | still hp => exact ⟨rfl, rfl⟩
    | chunked hup => exact ⟨rfl, rfl⟩
    | @written rest m n updates hfree =>
      refine ⟨?_, references_congr (List.Perm.of_eq (Pull.refsOf_updates _ _))⟩
      refine (Effect.row?_updates (Resign.named updates) s.world.db).resolve_right ?_
      rintro ⟨x, hx, hxk, row, -, -⟩
      obtain ⟨u, hu, rfl⟩ := List.mem_map.mp hx
      obtain rfl : u.1.storePathHash = k := hxk
      -- the row has the fingerprint that was read, so it has a verifying signature
      have hver := (hb i _ ht u hu).trusted obj ho (hg.same ha ht hu ho)
      rw [hbad] at hver
      exact absurd hver (by simp)

/-- **Re-signing keeps signatures and metadata in step**, in every run in which no re-sign writes to
a row whose fingerprint has changed since its chunk was read. If all stored signatures verify at the
start, all stored signatures verify in every state; and whatever the start, a re-sign never changes
a row none of whose signatures verifies. -/
theorem signatures_in_step (env : Env δ) (db : Db) (bucket : Table String Bytes) (clock : Int)
    {s : Sys} (h : Reach (step env) (Unraced env) (boot db bucket clock) s) :
    (db.Signed env → s.world.db.Signed env) ∧
    ∀ a s' i r hash obj, Unraced env s a → s.step env a = some s' → a.runs = some i →
      s.task? i = some (.resign r) → s.world.db.object? hash = some obj →
      verify obj env.storeDir env.keys = false →
      s'.world.row? hash = s.world.row? hash ∧
        s'.world.db.references hash = s.world.db.references hash := by
  obtain ⟨hi, hb, hsig⟩ : Inv env s ∧ Vouched env s ∧ (db.Signed env → s.world.db.Signed env) := by
    refine h.invariant
      (I := fun s => Inv env s ∧ Vouched env s ∧ (db.Signed env → s.world.db.Signed env)) ?_
      ⟨inv_boot _ _ _, fun _ _ h => absurd h (by simp [boot, task?]), id⟩
    rintro t a t' ⟨hi, hb, hsig⟩ hg hs
    exact ⟨inv_step hi hs, vouched_step hi hb hg hs, fun h₀ => signed_step hi hb hg hs (hsig h₀)⟩
  refine ⟨hsig, fun a s' i r hash obj hg hs ha ht ho hbad => ?_⟩
  exact resign_leaves hb hg hs ha ht ho hbad

end Sys

namespace Sample

/-- A second key, added for a rotation. -/
def newKey : SigningKeyFile where
  name := "echo-2"
  signature := id
  accepts := fun s fp => s == fp
  name_colon := by decide
  accepts_signature := echoKey.accepts_signature

/-- The example's server after the key was added: `Pull.app` is signed by the old key only. -/
def rotated : Env Bytes := { env with keys := [echoKey, newKey] }

/-- One object with verifying signatures is in order. -/
theorem rotated_signed_of_inserted {obj : Object} {db : Db} (hi : InsertedBy obj 0 Db.empty db)
    (hv : sigsVerify obj rotated.storeDir rotated.keys = true) : db.Signed rotated := by
  intro hash o ho
  obtain ⟨row, hrow, -⟩ := Option.map_eq_some_iff.mp ho
  rw [hi.row?] at hrow
  split at hrow
  · rename_i hk
    subst hk
    obtain ⟨hsame, hsigs⟩ := hi.object? ho
    rwa [sigsVerify, fingerprint_congr hsame, hsigs]
  · exact absurd hrow (by simp)

theorem rotated_signed : Pull.appDb.Signed rotated :=
  rotated_signed_of_inserted Pull.app_stored (by decide +kernel)

/-- What "ci" pushed before the rotation. -/
def app : Object :=
  { object hash "app" [] with
    sigs := [echoKey.sign (fingerprint (object hash "app" []) rotated.storeDir)] }

/-- The database with it. -/
def appDb : Db := (insertObject noFaults app 0 Db.empty).2

theorem app_inserted : InsertedBy app 0 Db.empty appDb := by
  rcases insertObject_cases (rfl : insertObject noFaults app 0 Db.empty = (.ok (), appDb)) with
    ⟨-, hi⟩ | ⟨⟨e, he⟩, -⟩
  · exact hi
  · exact absurd he (by simp)

end Sample

namespace Sys

/-- A re-sign after the rotation reads `app`; an admin deletes it and "dev" pushes it again as it
was; the write-back leaves the new row with the signatures of both keys, and both verify. -/
theorem signatures_in_step_repushed : ∃ s obj,
    Reach (step Sample.rotated) (Unraced Sample.rotated) (boot Sample.appDb ∅ 1000) s ∧
    s.world.db.object? Sample.hash = some obj ∧ obj.sigs.length = 2 ∧
    obj.pushedBy = some "dev" ∧
    sigsVerify obj Sample.rotated.storeDir Sample.rotated.keys = true := by
  obtain ⟨s, hs, hobj⟩ := exec_check (step Sample.rotated) (Unraced Sample.rotated)
    ([.spawn 0 (.resign .start), .step 0 .calm, Act.step 0 .calm] ++
      Act.spawn 1 (.delete (.start [Sample.hash] false none)) ::
        List.replicate 7 (Act.step 1 .calm) ++
      Sample.push 2 "dev" ++ [Act.step 0 .calm]) (boot Sample.appDb ∅ 1000)
    (fun s => ((s.world.db.object? Sample.hash).any fun obj =>
      decide (obj.sigs.length = 2 ∧ obj.pushedBy = some "dev")) = true)
    (by decide +kernel)
  obtain ⟨obj, ho, hcond⟩ := (Option.any_eq_true _ _).mp hobj
  obtain ⟨hlen, hdev⟩ := of_decide_eq_true hcond
  have hlaw := signatures_in_step Sample.rotated Sample.appDb ∅ 1000 hs
  exact ⟨s, obj, hs, ho, hlen, hdev,
    hlaw.1 (Sample.rotated_signed_of_inserted Sample.app_inserted (by decide +kernel))
      Sample.hash obj ho⟩

/-- **Stale signatures are written.** A re-sign reads `app`; an admin deletes it and "dev" pushes it
again with other contents; the write-back puts signatures of the old contents on the new row. -/
theorem stale_write_back : Pull.appDb.Signed Sample.rotated ∧ ∃ s obj,
    Reach (step Sample.rotated) (fun _ _ => True) (boot Pull.appDb ∅ 1000) s ∧
    s.world.db.object? Sample.hash = some obj ∧
    sigsVerify obj Sample.rotated.storeDir Sample.rotated.keys = false := by
  refine ⟨Sample.rotated_signed, ?_⟩
  obtain ⟨s, hs, hobj⟩ := exec_check (step Sample.rotated) (fun _ _ => True)
    ([.spawn 0 (.resign .start), .step 0 .calm, Act.step 0 .calm] ++
      Act.spawn 1 (.delete (.start [Sample.hash] false none)) ::
        List.replicate 7 (Act.step 1 .calm) ++
      Sample.push 2 "dev" ++ [Act.step 0 .calm])
    (boot Pull.appDb ∅ 1000)
    (fun s => ((s.world.db.object? Sample.hash).any fun obj =>
      !sigsVerify obj Sample.rotated.storeDir Sample.rotated.keys) = true)
    (by decide +kernel)
  obtain ⟨obj, ho, hbad⟩ := (Option.any_eq_true _ _).mp hobj
  exact ⟨s, obj, hs, ho, by simpa using hbad⟩

end Sys

end Garret
