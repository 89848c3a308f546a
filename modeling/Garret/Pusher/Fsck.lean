import Garret.Pusher.Effect

/-!
# fsck

Model of `crates/garret-pusher/src/fsck.rs` as a task: the bucket is listed page by page, then the
rows, then each row is classified, then each finding is repaired in a closure of its own. It takes
no claim. A quiesced repair shuts the gate for the whole run.

When the run started is kept beside its options (`FsckRun.startedAt`), for the proofs only.
-/

namespace Garret

open Garret.Lib

/-- `Repair`. -/
inductive Repair where
  | no
  | live
  | quiesced
  deriving DecidableEq, Repr

/-- What a run was asked, when it started and whether its drain succeeded. -/
structure FsckRun where
  verifySizes : Bool
  repair : Repair
  startedAt : Int
  drained : Option Bool
  deriving DecidableEq, Repr

/-- How a row disagrees with S3. -/
inductive Drift where
  /-- No blob. -/
  | dangling
  /-- A blob of another size (`verify_sizes` only). -/
  | sizeMismatch (db s3 : Int)
  deriving DecidableEq, Repr

/-- A row to repair, with the `created_at` it was listed with. -/
structure Finding where
  hash : String
  name : String
  listedAt : Int
  drift : Drift
  deriving DecidableEq, Repr

/-- `FsckReport`. -/
structure FsckReport where
  dangling : List (String × String)
  sizeMismatches : List (String × String × Int × Int)
  orphans : List String
  repaired : ℕ
  quiesceDrained : Option Bool
  deriving DecidableEq, Repr

/-- `s3_sizes`: the size a listing gives for `hash`, the last one when it gives several. -/
def s3Size (blobs : List Blob) (hash : String) : Option Int :=
  ((blobs.filter fun b => b.hash == hash).getLast?).map Blob.size

/-- One row of `classify_rows`. -/
def classifyRow (row : ObjectBrief) (blobs : List Blob) (f : InFlight) (grace now : Int)
    (verifySizes : Bool) : Option Finding :=
  if f.contains row.storePathHash || decide (now - row.createdAt < grace) then none
  else
    let finding := Finding.mk row.storePathHash row.name row.createdAt
    match s3Size blobs row.storePathHash with
    | none => some (finding .dangling)
    | some s3 =>
      if verifySizes && s3 != row.fileSize then some (finding (.sizeMismatch row.fileSize s3))
      else none

/-- `to_wire`: the dangling rows of the report. -/
def wireDangling (findings : List Finding) : List (String × String) :=
  findings.filterMap fun f =>
    match f.drift with
    | .dangling => some (f.hash, f.name)
    | .sizeMismatch _ _ => none

/-- `to_wire`: the mismatched rows of the report. -/
def wireMismatches (findings : List Finding) : List (String × String × Int × Int) :=
  findings.filterMap fun f =>
    match f.drift with
    | .dangling => none
    | .sizeMismatch db s3 => some (f.hash, f.name, db, s3)

/-- Where a run stands, between two awaits. -/
inductive Fsck where
  | start (verifySizes : Bool) (mode : Repair)
  /-- The gate is shut, before the drain ends. -/
  | drain (run : FsckRun)
  /-- In `list_blobs`, after `token`. -/
  | list (run : FsckRun) (token : Option String) (blobs : List Blob)
  | rows (run : FsckRun) (blobs : List Blob)
  /-- The rows are listed, before `classify_rows` reads the clock. -/
  | listed (run : FsckRun) (blobs : List Blob) (briefs : List ObjectBrief)
  /-- In `classify_rows`. -/
  | classify (run : FsckRun) (blobs : List Blob) (now : Int) (briefs todo : List ObjectBrief)
    (findings : List Finding)
  /-- In `apply_repair`. -/
  | repair (run : FsckRun) (report : FsckReport) (todo : List Finding)
  | done (result : Except String FsckReport)

namespace Fsck

/-- The guard of a quiesced run is dropped. -/
def reopen (w : World) (run : FsckRun) : World :=
  if run.repair = .quiesced then { w with inFlight := w.inFlight.unquiesce } else w

/-- The run ends. -/
def leave (w : World) (run : FsckRun) (result : Except String FsckReport) :
    Option (World × Fsck) := some (reopen w run, done result)

variable {δ : Type} (env : Env δ)

/-- One step of a run. -/
def step (me : ℕ) (w : World) (o : Oracle) : Fsck → Option (World × Fsck)
  | start verifySizes mode =>
    let run := ⟨verifySizes, mode, w.clock, none⟩
    if mode = .quiesced then some ({ w with inFlight := w.inFlight.quiesce }, drain run)
    else some (w, list run none [])
  | drain run =>
    if w.inFlight.uploads = 0 then some (w, list { run with drained := some true } none [])
    else if o.timedOut then some (w, list { run with drained := some false } none [])
    else none
  | list run token blobs =>
    if o.page.fails then leave w run (.error "listing blobs")
    else
      let blobs := blobs ++ listPage w token o.page
      match o.page.upTo with
      | none => some (w, rows run blobs)
      | some upTo => some (w, list run (some upTo) blobs)
  | rows run blobs =>
    if w.free me then
      match allObjectsBrief o.io w.db with
      | .error _ => leave w run (.error "database")
      | .ok briefs => some (w, listed run blobs briefs)
    else none
  | listed run blobs briefs => some (w, classify run blobs w.clock briefs briefs [])
  | classify run blobs now briefs (row :: todo) findings =>
    let finding := classifyRow row blobs w.inFlight env.orphanGrace now run.verifySizes
    some (w, classify run blobs now briefs todo (findings ++ finding.toList))
  | classify run blobs _ briefs [] findings =>
    let known := briefs.map ObjectBrief.storePathHash
    let report := {
      dangling := wireDangling findings
      sizeMismatches := wireMismatches findings
      orphans := (orphanHashes blobs known w.inFlight env.orphanGrace).map keyFor
      repaired := 0
      quiesceDrained := run.drained }
    if run.repair ≠ .no ∧ run.drained ≠ some false then some (w, repair run report findings)
    else leave w run (.ok report)
  | repair run report [] => leave w run (.ok report)
  | repair run report (f :: todo) =>
    if w.free me then
      match createdAt o.io 0 f.hash w.db with
      | .error _ => leave w run (.error "database")
      | .ok at' =>
        if at' = some f.listedAt then
          match deleteObject (fun k => o.io (k + 1)) f.hash w.db with
          | (.error _, db) => leave { w with db := db } run (.error "database")
          | (.ok none, db) => some ({ w with db := db }, repair run report todo)
          | (.ok (some _), db) =>
            some ({ w with db := db },
              repair run { report with repaired := report.repaired + 1 } todo)
        else some (w, repair run report todo)
    else none
  | done _ => none

/-- The steps of a run, one constructor each. -/
inductive Stepped (me : ℕ) (w : World) (o : Oracle) : Fsck → World → Fsck → Prop
  | began {verifySizes : Bool} {mode : Repair} {f : InFlight} {s' : Fsck}
    (hf : f.kind = w.inFlight.kind)
    (hs : s' = drain ⟨verifySizes, mode, w.clock, none⟩ ∨
      s' = list ⟨verifySizes, mode, w.clock, none⟩ none []) :
    Stepped me w o (start verifySizes mode) { w with inFlight := f } s'
  | drained {run : FsckRun} {d : Bool} :
    Stepped me w o (drain run) w (list { run with drained := some d } none [])
  | paged {run : FsckRun} {token : Option String} {blobs : List Blob} {upTo : String}
    (hu : o.page.upTo = some upTo) :
    Stepped me w o (list run token blobs) w
      (list run (some upTo) (blobs ++ listPage w token o.page))
  | lastPage {run : FsckRun} {token : Option String} {blobs : List Blob}
    (hu : o.page.upTo = none) :
    Stepped me w o (list run token blobs) w (rows run (blobs ++ listPage w token o.page))
  | rowsListed {run : FsckRun} {blobs : List Blob} {briefs : List ObjectBrief}
    (hr : allObjectsBrief o.io w.db = .ok briefs) :
    Stepped me w o (rows run blobs) w (listed run blobs briefs)
  | timed {run : FsckRun} {blobs : List Blob} {briefs : List ObjectBrief} :
    Stepped me w o (listed run blobs briefs) w (classify run blobs w.clock briefs briefs [])
  | classified {run : FsckRun} {blobs : List Blob} {now : Int} {briefs todo : List ObjectBrief}
    {row : ObjectBrief} {findings : List Finding} :
    Stepped me w o (classify run blobs now briefs (row :: todo) findings) w
      (classify run blobs now briefs todo (findings ++
        (classifyRow row blobs w.inFlight env.orphanGrace now run.verifySizes).toList))
  | repairing {run : FsckRun} {blobs : List Blob} {now : Int} {briefs : List ObjectBrief}
    {findings : List Finding} {report : FsckReport} :
    Stepped me w o (classify run blobs now briefs [] findings) w (repair run report findings)
  | skipped {run : FsckRun} {report : FsckReport} {f : Finding} {todo : List Finding} :
    Stepped me w o (repair run report (f :: todo)) w (repair run report todo)
  | repaired {run : FsckRun} {report report' : FsckReport} {f : Finding} {todo : List Finding}
    {row : Row} (hfree : w.free me) (hrow : w.row? f.hash = some row)
    (hat : row.createdAt = f.listedAt) :
    Stepped me w o (repair run report (f :: todo))
      { w with db := w.db.removed f.hash row.fileSize } (repair run report' todo)
  | left {s : Fsck} {f : InFlight} {r : Except String FsckReport}
    (hf : f.kind = w.inFlight.kind) : Stepped me w o s { w with inFlight := f } (done r)

variable {env} {me : ℕ} {w w' : World} {o : Oracle} {s s' : Fsck}

theorem leave_stepped {run : FsckRun} {r : Except String FsckReport}
    (h : leave w run r = some (w', s')) : Stepped env me w o s w' s' := by
  obtain ⟨rfl, rfl⟩ := Prod.mk.inj (Option.some.inj h)
  unfold reopen
  split
  · exact .left rfl
  · exact .left rfl

theorem step_cases (h : s.step env me w o = some (w', s')) : Stepped env me w o s w' s' := by
  cases s with
  | start verifySizes mode =>
    simp only [step] at h
    split at h
    · obtain ⟨rfl, rfl⟩ := Prod.mk.inj (Option.some.inj h)
      exact .began rfl (Or.inl rfl)
    · obtain ⟨rfl, rfl⟩ := Prod.mk.inj (Option.some.inj h)
      exact .began rfl (Or.inr rfl)
  | drain run =>
    simp only [step] at h
    split at h
    · obtain ⟨rfl, rfl⟩ := Prod.mk.inj (Option.some.inj h)
      exact .drained
    · split at h
      · obtain ⟨rfl, rfl⟩ := Prod.mk.inj (Option.some.inj h)
        exact .drained
      · exact absurd h (by simp)
  | list run token blobs =>
    simp only [step] at h
    split at h
    · exact leave_stepped h
    · split at h
      · rename_i hu
        obtain ⟨rfl, rfl⟩ := Prod.mk.inj (Option.some.inj h)
        exact .lastPage hu
      · rename_i upTo hu
        obtain ⟨rfl, rfl⟩ := Prod.mk.inj (Option.some.inj h)
        exact .paged hu
  | rows run blobs =>
    simp only [step] at h
    split at h
    · split at h
      · exact leave_stepped h
      · rename_i briefs hr
        obtain ⟨rfl, rfl⟩ := Prod.mk.inj (Option.some.inj h)
        exact .rowsListed hr
    · exact absurd h (by simp)
  | listed run blobs briefs =>
    obtain ⟨rfl, rfl⟩ := Prod.mk.inj (Option.some.inj h)
    exact .timed
  | classify run blobs now briefs todo findings =>
    cases todo with
    | cons row todo =>
      obtain ⟨rfl, rfl⟩ := Prod.mk.inj (Option.some.inj h)
      exact .classified
    | nil =>
      simp only [step] at h
      split at h
      · obtain ⟨rfl, rfl⟩ := Prod.mk.inj (Option.some.inj h)
        exact .repairing
      · exact leave_stepped h
  | repair run report todo =>
    cases todo with
    | nil => exact leave_stepped h
    | cons f todo =>
      simp only [step] at h
      split at h
      · rename_i hfree
        split at h
        · exact leave_stepped h
        · rename_i at' hat
          split at h
          · rename_i heq
            split at h
            · rename_i e db hdel
              rcases deleteObject_cases hdel with ⟨_, -, hbad, -⟩ | ⟨-, hbad, -⟩ | ⟨-, rfl⟩
              · exact absurd hbad (by simp)
              · exact absurd hbad (by simp)
              · exact leave_stepped h
            · rename_i db hdel
              obtain ⟨rfl, rfl⟩ := Prod.mk.inj (Option.some.inj h)
              rcases deleteObject_cases hdel with ⟨_, -, hbad, -⟩ | ⟨-, -, rfl⟩ | ⟨⟨_, hbad⟩, -⟩
              · exact absurd hbad (by simp)
              · exact .skipped
              · exact absurd hbad (by simp)
            · rename_i freed db hdel
              obtain ⟨rfl, rfl⟩ := Prod.mk.inj (Option.some.inj h)
              rcases deleteObject_cases hdel with ⟨row, hrow, -, rfl⟩ | ⟨-, hbad, -⟩ | ⟨⟨_, hbad⟩, -⟩
              · refine .repaired hfree hrow ?_
                simp only [createdAt, bind_eq_ok, pure_eq_ok] at hat
                obtain ⟨_, -, rfl⟩ := hat
                rw [hrow] at heq
                exact Option.some.inj heq
              · exact absurd hbad (by simp)
              · exact absurd hbad (by simp)
          · obtain ⟨rfl, rfl⟩ := Prod.mk.inj (Option.some.inj h)
            exact .skipped
      · exact absurd h (by simp)
  | done r => exact absurd h (by simp [step])

/-- The effects a run's next step may have. -/
def Allows (s : Fsck) : Effect → Prop
  | .quiet => True
  | .removed hash row => ∃ run report f todo, s = repair run report (f :: todo) ∧ f.hash = hash ∧
      row.createdAt = f.listedAt
  | _ => False

theorem step_effect (h : Stepped env me w o s w' s') :
    ∃ e, Step me w w' [] [] e ∧ s.Allows e := by
  cases h with
  | began hf hs => exact ⟨.quiet, .gate hf (.refl _), trivial⟩
  | left hf => exact ⟨.quiet, .gate hf (.refl _), trivial⟩
  | @repaired run report report' f todo row hfree hrow hat =>
    have hdo : (Effect.removed f.hash row).Does w
        { w with db := w.db.removed f.hash row.fileSize } := ⟨⟨hrow, rfl⟩, rfl⟩
    exact ⟨.removed f.hash row, .commits hfree hdo (Or.inl rfl) (.refl _),
      run, report, f, todo, rfl, rfl, hat⟩
  | _ => exact ⟨.quiet, .stay (.refl _), trivial⟩

end Fsck

end Garret
