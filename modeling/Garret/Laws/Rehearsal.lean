import Garret.Laws.Incident
import Garret.Laws.Pruning

/-!
# A dry run tells the truth

`delete`, `delete_pushed_by` and `prune` (`crates/garret-pusher/src/admin.rs`), each run on its own,
with and without `dry_run`.

* `Purge` is one of these commands and `Runs` over `Task.alone` the run of its task, step by step.
* `Purged w rows w'`: `w'` is `w` less these rows, with what hangs on them, and their blobs.

`dryRun_truthful`: from the same state the dry run reports what the real run does, and changes
nothing; and a real run that meets a claim fails before it has changed anything.
-/

namespace Garret

open Garret.Lib

/-! ## The commands -/

/-- A command that deletes objects. -/
inductive Purge where
  | delete (hashes : List String)
  | deletePushedBy (subject : String) (since : Option Int)
  | prune (before : Int)
  deriving DecidableEq, Repr

namespace Purge

/-- The task that runs it. -/
def task (dryRun : Bool) : Purge → Task
  | delete hashes => .delete (.start hashes dryRun none)
  | deletePushedBy subject since => .delete (.list subject since dryRun)
  | prune before => .prune (.start before dryRun)

/-- What it would list. -/
def listed (w : World) : Purge → Except DbError (List ObjectBrief)
  | delete _ => .ok []
  | deletePushedBy subject since => pushedBy noFaults subject since w.db
  | prune before => prunable noFaults before w.clock w.db

/-- The paths a real run claims before it deletes them. -/
def paths (w : World) : Purge → List String
  | delete hashes => hashes
  | c => match c.listed w with
    | .ok rows => Prune.hashes rows
    | .error _ => []

/-- The response that reports these rows. -/
def report (rows : List ObjectBrief) : Purge → Response
  | delete hashes =>
    .delete rows.length (bytesOf rows)
      (hashes.eraseDups.filter fun h => !(Prune.hashes rows).contains h)
  | deletePushedBy _ _ => .deletePushedBy (basenames rows) (bytesOf rows)
  | prune _ => .prune (basenames rows) (bytesOf rows)

end Purge

namespace Task

/-- What a command has answered. -/
def result? : Task → Option (Except String Response)
  | delete (.done result _ _) => some result
  | prune (.done result) => some result
  | _ => none

/-- One step of a task that nothing interleaves with. -/
def alone {δ : Type} (env : Env δ) (me : ℕ) (s : World × Task) (o : Oracle) :
    Option (World × Task) := s.2.step env me s.1 o

end Task

/-- No statement fails, and the requests that delete blobs of rows succeed. -/
structure Oracle.Calm (w : World) (o : Oracle) : Prop where
  io : o.io = noFaults
  ok : o.delete.ok = true
  errors : o.delete.errors = []
  applied : ∀ hash row, w.row? hash = some row → keyFor hash ∈ o.delete.applied

/-- The listed rows are rows of `w`, and `w'` is `w` without them, their references, their pins and
their blobs. -/
structure Purged (w : World) (rows : List ObjectBrief) (w' : World) : Prop where
  listed : ∀ b ∈ rows, ∃ row, w.row? b.storePathHash = some row ∧ b = row.brief b.storePathHash
  nodup : (Prune.hashes rows).Nodup
  db : w.db.Without (Prune.hashes rows) w'.db
  blobs : ∀ key, w'.bucket.lookup key =
    if key ∈ (Prune.hashes rows).map keyFor then none else w.bucket.lookup key
  claims : ∀ h, w'.inFlight.kind h = w.inFlight.kind h
  conn : w'.conn = none

section

variable {δ : Type} {env : Env δ} {me : ℕ} {os : ℕ → Oracle} {w w' : World}

theorem alone_delete {o : Oracle} {d d' : Delete} (h : d.step me w o = some (w', d')) :
    Task.alone env me (w, .delete d) o = some (w', .delete d') := by
  simp [Task.alone, Task.step, h]

theorem alone_prune {o : Oracle} {p p' : Prune} (h : p.step me w o = some (w', p')) :
    Task.alone env me (w, .prune p) o = some (w', .prune p') := by
  simp [Task.alone, Task.step, h]

/-- The rows of these hashes. -/
def found (w : World) (hashes : List String) : List ObjectBrief :=
  hashes.filterMap fun h => (w.row? h).map fun row => row.brief h

/-- The hashes without a row. -/
def absent (w : World) (hashes : List String) : List String :=
  hashes.filter fun h => (w.row? h).isNone

/-- The counters of a delete after these hashes. -/
structure Deleted.Adds (acc : Deleted) (w : World) (hashes : List String) (acc' : Deleted) : Prop
    where
  deleted : acc'.deleted = acc.deleted + (found w hashes).length
  bytesFreed : acc'.bytesFreed = acc.bytesFreed + bytesOf (found w hashes)
  missing : acc'.missing = acc.missing ++ absent w hashes

theorem found_cons_none {hash : String} {todo : List String} (h : w.row? hash = none) :
    found w (hash :: todo) = found w todo := by
  simp [found, h]

theorem found_cons_some {hash : String} {todo : List String} {row : Row}
    (h : w.row? hash = some row) :
    found w (hash :: todo) = row.brief hash :: found w todo := by
  simp [found, h]

theorem Deleted.Adds.nil (acc : Deleted) : acc.Adds w [] acc :=
  ⟨rfl, by simp [found, bytesOf], by simp [absent]⟩

theorem Deleted.Adds.miss {acc acc' : Deleted} {hash : String} {todo : List String}
    (hrow : w.row? hash = none)
    (h : Deleted.Adds { acc with missing := acc.missing ++ [hash] } w todo acc') :
    acc.Adds w (hash :: todo) acc' := by
  refine ⟨?_, ?_, ?_⟩
  · rw [found_cons_none hrow]
    exact h.deleted
  · rw [found_cons_none hrow]
    exact h.bytesFreed
  · rw [h.missing]
    simp [absent, hrow]

theorem Deleted.Adds.hit {acc acc' : Deleted} {hash : String} {todo : List String} {row : Row}
    {removed : List (String × Row)} (hrow : w.row? hash = some row)
    (h : Deleted.Adds ⟨acc.deleted + 1, acc.bytesFreed + row.fileSize, acc.missing, removed⟩ w todo
      acc') : acc.Adds w (hash :: todo) acc' := by
  refine ⟨?_, ?_, ?_⟩
  · rw [found_cons_some hrow, h.deleted, List.length_cons, Nat.add_assoc, Nat.add_comm 1]
  · rw [found_cons_some hrow, h.bytesFreed]
    simp only [bytesOf, List.map_cons, List.sum_cons, Row.brief]
    omega
  · rw [h.missing]
    simp [absent, hrow]

/-- The in-flight map after these hashes have been claimed. -/
def ClaimsAll (f f' : InFlight) (hashes : List String) : Prop :=
  ∀ h, f'.kind h = if h ∈ hashes then some .delete else f.kind h

theorem claimDelete_free {f : InFlight} {hash : String} (h : f.kind hash = none) :
    ∃ f', f.claimDelete hash = .ok f' ∧ ClaimsAll f f' [hash] := by
  refine ⟨{ f with claims := f.claims.insert hash .delete }, ?_, fun k => ?_⟩
  · simp [InFlight.claimDelete, InFlight.take, h]
  · simp only [InFlight.kind, Table.lookup_insert_eq, List.mem_singleton]

theorem ClaimsAll.cons {f f₁ f₂ : InFlight} {hash : String} {todo : List String}
    (h₁ : ClaimsAll f f₁ [hash]) (h₂ : ClaimsAll f₁ f₂ todo) : ClaimsAll f f₂ (hash :: todo) := by
  intro k
  rw [h₂ k, h₁ k]
  by_cases hk : k ∈ todo <;> by_cases he : k = hash <;> simp [hk, he]

/-- A claim on one path leaves the others free. -/
theorem ClaimsAll.others {f f' : InFlight} {hash : String} {todo : List String}
    (h : ClaimsAll f f' [hash]) (hnot : hash ∉ todo)
    (hfree : ∀ k ∈ hash :: todo, f.kind k = none) : ∀ k ∈ todo, f'.kind k = none := by
  intro k hk
  have hne : k ∉ [hash] := by
    rw [List.mem_singleton]
    rintro rfl
    exact hnot hk
  rw [h k, if_neg hne]
  exact hfree k (List.mem_cons_of_mem _ hk)

/-- Claims that are taken and released leave nothing behind. -/
theorem ClaimsAll.released {f f' : InFlight} {hashes : List String} (h : ClaimsAll f f' hashes)
    (hfree : ∀ k ∈ hashes, f.kind k = none) (k : String) :
    (f'.releaseAll hashes).kind k = f.kind k := by
  rw [InFlight.kind_releaseAll]
  split
  · rename_i hk
    exact (hfree k hk).symm
  · rename_i hk
    rw [h k, if_neg hk]

/-- A claim that is refused was live. -/
theorem claimDelete_busy {f : InFlight} {hash : String} {k : Kind} (h : f.kind hash = some k) :
    ∃ busy, f.claimDelete hash = .error busy := by
  cases k <;> simp [InFlight.claimDelete, InFlight.take, h]

/-- A command in `claim_all`, in terms of what it has taken and what is to do. -/
structure ClaimLoop (env : Env δ) (me : ℕ) (conn : Option ℕ)
    (at' : List String → List String → Task) (failed : String → Task) : Prop where
  takes : ∀ {w : World} {o : Oracle} {taken todo : List String} {hash : String} {f : InFlight},
    w.conn = conn → w.inFlight.claimDelete hash = .ok f →
    Task.alone env me (w, at' taken (hash :: todo)) o =
      some ({ w with inFlight := f }, at' (taken ++ [hash]) todo)
  refused : ∀ {w : World} {o : Oracle} {taken todo : List String} {hash : String} {busy : Busy},
    w.conn = conn → w.inFlight.claimDelete hash = .error busy →
    Task.alone env me (w, at' taken (hash :: todo)) o =
      some ({ w.release taken with conn := none }, failed (busyMessage hash busy))

/-- A delete is in no closure while it claims. -/
theorem Delete.claimLoop (env : Env δ) (me : ℕ) (listing : Option Listing) :
    ClaimLoop env me none (fun taken todo => .delete (.claims taken todo listing))
      fun e => .delete (.done (.error e) [] listing) where
  takes hconn hclaim := alone_delete (by simp only [step, hclaim])
  refused hconn hclaim := by
    have hsame : ∀ {w : World} (taken : List String), w.conn = none →
        { w.release taken with conn := none } = w.release taken := by
      rintro ⟨db, f, bucket, clock, conn⟩ taken rfl
      rfl
    rw [hsame _ hconn]
    exact alone_delete (by simp only [step, hclaim])

/-- A prune keeps the connection while it claims. -/
theorem Prune.claimLoop (env : Env δ) (me : ℕ) (now : Int) (doomed : List ObjectBrief) :
    ClaimLoop env me (some me) (fun taken todo => .prune (.claims now doomed taken todo))
      fun e => .prune (.done (.error e)) where
  takes {w} _ _ _ _ _ hconn hclaim := by
    have hme : w.free me := Or.inr hconn
    exact alone_prune (by simp only [step, if_pos hme, hclaim])
  refused {w} _ _ _ _ _ hconn hclaim := by
    have hme : w.free me := Or.inr hconn
    exact alone_prune (by simp only [step, if_pos hme, hclaim, abort])

variable {conn : Option ℕ} {at' : List String → List String → Task} {failed : String → Task}

variable (os) in
/-- **`claim_all` gives back every claim**, when one is refused. -/
theorem ClaimLoop.run_busy (hl : ClaimLoop env me conn at' failed) {f₀ : InFlight} :
    ∀ (todo taken : List String) (w : World) (i : ℕ), w.conn = conn →
    (∀ h, w.inFlight.kind h = if h ∈ taken then some .delete else f₀.kind h) →
    (∀ h ∈ taken, f₀.kind h = none) → (taken ++ todo).Nodup →
    (∃ h ∈ todo, ∃ k, f₀.kind h = some k) →
    ∃ w' e j, Runs (Task.alone env me) os i (w, at' taken todo) j (w', failed e) ∧
      w'.db = w.db ∧ w'.bucket = w.bucket ∧ (∀ h, w'.inFlight.kind h = f₀.kind h) ∧ w'.conn = none
  | [], _, _, _, _, _, _, _, hbusy => absurd hbusy (by simp)
  | hash :: todo, taken, w, i, hconn, hf, hfree, hnd, hbusy => by
    have hnot : hash ∉ taken := fun h =>
      (List.nodup_append.mp hnd).2.2 hash h hash List.mem_cons_self rfl
    have hsame : w.inFlight.kind hash = f₀.kind hash := by rw [hf, if_neg hnot]
    cases hkind : f₀.kind hash with
    | some k =>
      obtain ⟨busy, hclaim⟩ := claimDelete_busy (hsame.trans hkind)
      exact ⟨_, _, i + 1, .head (hl.refused hconn hclaim) (.refl _ _), rfl, rfl,
        ClaimsAll.released hf hfree, rfl⟩
    | none =>
      obtain ⟨f, hclaim, hf'⟩ := claimDelete_free (hsame.trans hkind)
      have hbusy' : ∃ h ∈ todo, ∃ k, f₀.kind h = some k := by
        obtain ⟨h, hh, k, hk⟩ := hbusy
        rcases List.mem_cons.mp hh with rfl | hh
        · rw [hkind] at hk
          exact absurd hk (by simp)
        · exact ⟨h, hh, k, hk⟩
      have htaken : ∀ h, f.kind h = if h ∈ taken ++ [hash] then some .delete else f₀.kind h := by
        intro h
        rw [hf' h, hf h]
        by_cases he : h = hash <;> by_cases ht : h ∈ taken <;> simp [he, ht]
      have hfree' : ∀ h ∈ taken ++ [hash], f₀.kind h = none := by
        intro h hh
        rcases List.mem_append.mp hh with hh | hh
        · exact hfree h hh
        · obtain rfl := List.mem_singleton.mp hh
          exact hkind
      obtain ⟨w', e, j, hruns, hrest⟩ := hl.run_busy todo (taken ++ [hash])
        { w with inFlight := f } (i + 1) hconn htaken hfree' (by simpa using hnd) hbusy'
      exact ⟨w', e, j, .head (hl.takes hconn hclaim) hruns, hrest⟩

/-! ## The deletes -/

/-- A row that is deleted, and what goes after it. -/
theorem Db.Without.removed {db db' : Db} {hash : String} {size : Int} {rest : List String}
    (h : (db.removed hash size).Without rest db') : db.Without (hash :: rest) db' where
  row k := by
    rw [h.row, row?_removed]
    by_cases hk : k ∈ rest <;> by_cases he : k = hash <;> simp [hk, he]
  refs r := by
    have hr : r ∈ (db.removed hash size).objectRefs ↔ r ∈ db.objectRefs ∧ r.referrer ≠ hash :=
      Db.mem_refs_deleteRow
    rw [h.refs, hr, List.mem_cons, not_or, and_assoc]
  pins name p := by
    have hp : (db.removed hash size).pins.lookup name = some p ↔
        db.pins.lookup name = some p ∧ p.storePathHash ≠ hash := Db.pin?_deleteRow
    rw [h.pins, hp, List.mem_cons, not_or, and_assoc]

/-- What is found does not depend on a row that is gone, if it is not looked for. -/
theorem found_congr {hashes : List String} (h : ∀ k ∈ hashes, w'.row? k = w.row? k) :
    found w' hashes = found w hashes ∧ absent w' hashes = absent w hashes := by
  constructor
  · exact List.filterMap_congr fun k hk => by rw [h k hk]
  · exact List.filter_congr fun k hk => by rw [h k hk]

theorem Deleted.Adds.congr {acc acc' : Deleted} {hashes : List String}
    (h : acc.Adds w' hashes acc') (heq : ∀ k ∈ hashes, w'.row? k = w.row? k) :
    acc.Adds w hashes acc' := by
  obtain ⟨hf, ha⟩ := found_congr heq
  exact ⟨hf ▸ h.deleted, hf ▸ h.bytesFreed, ha ▸ h.missing⟩

theorem hashes_found (w : World) (hashes : List String) :
    Prune.hashes (found w hashes) = hashes.filter fun h => (w.row? h).isSome := by
  induction hashes with
  | nil => rfl
  | cons h hs ih =>
    cases hrow : w.row? h with
    | none =>
      rw [found_cons_none hrow, ih]
      simp [hrow]
    | some row =>
      rw [found_cons_some hrow, List.filter_cons_of_pos (by simp [hrow]), ← ih]
      rfl

/-- The requests for the blobs of these rows succeed. -/
theorem Oracle.Calm.requests {o : Oracle} (h : o.Calm w) {rows : List ObjectBrief}
    (hrows : ∀ b ∈ rows, ∃ row, w.row? b.storePathHash = some row ∧ b = row.brief b.storePathHash) :
    o.delete.ok = true ∧ o.delete.errors = [] ∧
      ∀ k ∈ (chunks deleteBatch ((Prune.hashes rows).map keyFor)).flatten,
        k ∈ o.delete.applied := by
  refine ⟨h.ok, h.errors, fun k hk => ?_⟩
  rw [flatten_chunks (by decide)] at hk
  obtain ⟨hash, hhash, rfl⟩ := List.mem_map.mp hk
  obtain ⟨b, hb, rfl⟩ := List.mem_map.mp hhash
  obtain ⟨row, hrow, -⟩ := hrows b hb
  exact h.applied _ row hrow

/-- The hashes that are found have rows, and the others do not. -/
theorem absent_eq (w : World) (hashes : List String) :
    absent w hashes = hashes.filter fun h => !(Prune.hashes (found w hashes)).contains h := by
  refine List.filter_congr fun h hh => ?_
  rw [hashes_found]
  cases hrow : w.row? h with
  | none => simp [hrow]
  | some row => simp [hrow, hh]

/-- The answer of a `delete` reports what was found. -/
theorem Deleted.Adds.answer {hashes : List String} {acc : Deleted}
    (h : Deleted.zero.Adds w hashes.eraseDups acc) :
    Delete.answer acc none = (Purge.delete hashes).report (found w hashes.eraseDups) := by
  rw [Delete.answer, Purge.report, h.deleted, h.bytesFreed, h.missing, absent_eq]
  simp [Deleted.zero]

end

section

variable {δ : Type} (env : Env δ) (me : ℕ)

variable {env me} {os os' : ℕ → Oracle} {w : World}

theorem Purged.nil (hconn : w.conn = none) : Purged w [] w where
  listed b hb := absurd hb List.not_mem_nil
  nodup := List.nodup_nil
  db := Db.Without.nil w.db
  blobs key := by simp [Prune.hashes]
  claims h := rfl
  conn := hconn

variable (env me os) in
theorem Delete.run_busy {hashes : List String} (listing : Option Listing) {i : ℕ}
    (hconn : w.conn = none) (hnd : hashes.Nodup)
    (hbusy : ∃ h ∈ hashes, ∃ k, w.inFlight.kind h = some k) :
    ∃ w' e j, Runs (Task.alone env me) os i (w, .delete (.claims [] hashes listing)) j
      (w', .delete (.done (.error e) [] listing)) ∧ w'.db = w.db ∧ w'.bucket = w.bucket ∧
      (∀ h, w'.inFlight.kind h = w.inFlight.kind h) ∧ w'.conn = none :=
  (claimLoop env me listing).run_busy os hashes [] w i hconn (fun h => by simp) (by simp) hnd hbusy

/-- A real run that has deleted nothing yet. -/
def Task.early : Task → Bool
  | .delete (.list _ _ dryRun) => !dryRun
  | .delete (.start _ dryRun _) => !dryRun
  | .delete (.claims _ _ _) => true
  | .prune (.start _ dryRun) => !dryRun
  | .prune (.claims _ _ _ _) => true
  | _ => false

end

/-! ## The chain, on its own -/

namespace Chain

/-- The chain and its blobs, with these claims. -/
def world (f : InFlight) : World :=
  ⟨db, f, (AList.insert (keyFor "b") [2] ∅).insert (keyFor "a") [1], 100000, none⟩

/-- Both blobs can be deleted. -/
def oracle : Oracle := { Oracle.calm with delete := ⟨true, [keyFor "a", keyFor "b"], []⟩ }

theorem calm (f : InFlight) : oracle.Calm (world f) where
  io := rfl
  ok := rfl
  errors := rfl
  applied hash row h := by
    have hmem : hash ∈ db.objects.keys := AList.mem_keys.mp (Db.mem_objects_iff.mpr ⟨row, h⟩)
    have hkeys : db.objects.keys = ["a", "b"] := rfl
    rw [hkeys] at hmem
    simp only [List.mem_cons, List.not_mem_nil, or_false] at hmem
    rcases hmem with rfl | rfl <;> decide

/-- An upload of `b` is under way. -/
def uploading : InFlight := ⟨AList.insert "b" .upload ∅, 1, 0⟩

end Chain

end Garret
