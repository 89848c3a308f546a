import Garret.Pusher.Effect

/-!
# Admin commands that delete or re-sign

Model of `delete`, `delete_pushed_by`, `delete_listed`, `prune` and `resign`
(`crates/garret-pusher/src/admin.rs`) as tasks.

* `Delete` is `delete`, from a list of hashes or from what `delete_pushed_by` listed. It claims
  every path first (`Deletion::claim_all`), one at a time, then deletes row by row. The rows it
  removed are kept beside the counters (`Deleted.removed`), for the proofs only.
* `Prune` keeps the connection from the mark to the last batch. Other tasks run between its steps,
  but none of their closures.
* `Resign` reads a chunk, signs, and writes the signatures back by hash in a later closure.
-/

namespace Garret

open Garret.Lib

/-- `{hash}-{name}`. -/
def ObjectBrief.basename (b : ObjectBrief) : String := b.storePathHash ++ "-" ++ b.name

/-- `basenames`. -/
def basenames (rows : List ObjectBrief) : List String := rows.map ObjectBrief.basename

/-- The sum of the listed sizes. -/
def bytesOf (rows : List ObjectBrief) : Int := (rows.map ObjectBrief.fileSize).sum

/-- What `claim_all` says of a path it could not claim. -/
def busyMessage (hash : String) (busy : Busy) : String :=
  let doing := match busy with
    | .uploading => "uploaded"
    | .deleting => "deleted"
  hash ++ " is being " ++ doing ++ "; nothing was deleted, retry"

/-- What an admin command answers. -/
inductive Response where
  | delete (deleted : ℕ) (bytesFreed : Int) (missing : List String)
  | deletePushedBy (objects : List String) (bytesFreed : Int)
  | prune (pruned : List String) (bytesFreed : Int)
  | resign (resigned refused : ℕ)
  deriving DecidableEq, Repr

/-! ## `delete` -/

/-- `Deleted`, and the rows removed so far, in order. -/
structure Deleted where
  deleted : ℕ
  bytesFreed : Int
  /-- Hashes with no row, in request order. -/
  missing : List String
  removed : List (String × Row)
  deriving DecidableEq, Repr

/-- Nothing deleted yet. -/
def Deleted.zero : Deleted := ⟨0, 0, [], []⟩

/-- What `delete_pushed_by` was asked, and the rows it listed. -/
structure Listing where
  subject : String
  since : Option Int
  dryRun : Bool
  matched : List ObjectBrief
  deriving DecidableEq, Repr

/-- Where a delete stands, between two awaits. `listing` is what `delete_pushed_by` listed, if it
is the caller. -/
inductive Delete where
  /-- `delete_pushed_by`, before its listing. -/
  | list (subject : String) (since : Option Int) (dryRun : Bool)
  | start (hashes : List String) (dryRun : Bool) (listing : Option Listing)
  /-- In `claim_all`. -/
  | claims (taken todo : List String) (listing : Option Listing)
  /-- The head of the `for` loop; there is no deletion on a dry run. -/
  | rows (todo : List String) (d : Option Deletion) (acc : Deleted) (listing : Option Listing)
  | finish (f : Finish) (acc : Deleted) (listing : Option Listing)
  | done (result : Except String Response) (removed : List (String × Row))
    (listing : Option Listing)

namespace Delete

/-- The claims a delete holds. -/
def holds : Delete → List (String × Kind)
  | claims taken _ _ => deleting taken
  | rows _ (some d) _ _ => deleting d.claims
  | finish f _ _ => deleting f.claims
  | _ => []

/-- The deletion under way. -/
def deletion : Delete → Deletion
  | rows _ (some d) _ _ => d
  | finish f _ _ => f.deletion
  | _ => ⟨[], []⟩

/-- What `delete_pushed_by` listed, once it has. -/
def listing? : Delete → Option Listing
  | list _ _ _ => none
  | start _ _ listing => listing
  | claims _ _ listing => listing
  | rows _ _ _ listing => listing
  | finish _ _ listing => listing
  | done _ _ listing => listing

/-- The rows removed so far. -/
def removed : Delete → List (String × Row)
  | rows _ _ acc _ => acc.removed
  | finish _ acc _ => acc.removed
  | done _ removed _ => removed
  | _ => []

/-- What the caller was answered. -/
def response? : Delete → Option Response
  | done (.ok r) _ _ => some r
  | _ => none

/-- The answer of `delete`, or of `delete_pushed_by` through `delete_listed`. -/
def answer (acc : Deleted) : Option Listing → Response
  | none => .delete acc.deleted acc.bytesFreed acc.missing
  | some l =>
    .deletePushedBy
      (basenames (l.matched.filter fun b => !acc.missing.contains b.storePathHash)) acc.bytesFreed

/-- One step of a delete. -/
def step (me : ℕ) (w : World) (o : Oracle) : Delete → Option (World × Delete)
  | list subject since dryRun =>
    if w.free me then
      match pushedBy o.io subject since w.db with
      | .error _ => some (w, done (.error "database") [] none)
      | .ok matched =>
        let listing := some ⟨subject, since, dryRun, matched⟩
        if dryRun then
          some (w, done (.ok (.deletePushedBy (basenames matched) (bytesOf matched))) [] listing)
        else some (w, start (matched.map ObjectBrief.storePathHash) false listing)
    else none
  | start hashes dryRun listing =>
    if dryRun then some (w, rows hashes.eraseDups none .zero listing)
    else some (w, claims [] hashes.eraseDups listing)
  | claims taken [] listing => some (w, rows taken (some ⟨taken, []⟩) .zero listing)
  | claims taken (hash :: todo) listing =>
    match w.inFlight.claimDelete hash with
    | .error busy => some (w.release taken, done (.error (busyMessage hash busy)) [] listing)
    | .ok f => some ({ w with inFlight := f }, claims (taken ++ [hash]) todo listing)
  | rows [] none acc listing => some (w, done (.ok (answer acc listing)) acc.removed listing)
  | rows [] (some d) acc listing => some (w, finish (.start d) acc listing)
  | rows (hash :: todo) none acc listing =>
    if w.free me then
      match fileSize o.io 0 hash w.db with
      | .error _ => some (w, done (.error "database") acc.removed listing)
      | .ok none =>
        some (w, rows todo none { acc with missing := acc.missing ++ [hash] } listing)
      | .ok (some freed) =>
        some (w, rows todo none
          { acc with deleted := acc.deleted + 1, bytesFreed := acc.bytesFreed + freed } listing)
    else none
  | rows (hash :: todo) (some d) acc listing =>
    if w.free me then
      match deleteObject o.io hash w.db with
      | (.error _, db) =>
        some ({ w with db := db }.release d.claims, done (.error "database") acc.removed listing)
      | (.ok none, db) =>
        some ({ w with db := db },
          rows todo (some d) { acc with missing := acc.missing ++ [hash] } listing)
      | (.ok (some freed), db) =>
        some ({ w with db := db }, rows todo (some (d.queueBlob hash))
          { acc with
            deleted := acc.deleted + 1
            bytesFreed := acc.bytesFreed + freed
            removed := acc.removed ++ (w.row? hash).toList.map fun row => (hash, row) } listing)
    else none
  | finish f acc listing =>
    match f.step w o with
    | (w, .inl f) => some (w, finish f acc listing)
    | (w, .inr (.error e)) => some (w, done (.error e) acc.removed listing)
    | (w, .inr (.ok ())) => some (w, done (.ok (answer acc listing)) acc.removed listing)
  | done _ _ _ => none

/-- The steps of a delete, one constructor each. -/
inductive Stepped (me : ℕ) (w : World) (o : Oracle) : Delete → World → Delete → Prop
  | listed {subject : String} {since : Option Int} {matched : List ObjectBrief}
    (hl : pushedBy o.io subject since w.db = .ok matched) :
    Stepped me w o (list subject since false) w
      (start (matched.map ObjectBrief.storePathHash) false (some ⟨subject, since, false, matched⟩))
  /-- `delete_pushed_by` ends with its listing: a failure, or a dry run. -/
  | unlisted {subject : String} {since : Option Int} {dryRun : Bool}
    {result : Except String Response} {listing : Option Listing}
    (hr : (∃ e, result = .error e) ∨ ∃ l, listing = some l ∧ l.dryRun = true) :
    Stepped me w o (list subject since dryRun) w (done result [] listing)
  | started {hashes : List String} {listing : Option Listing} :
    Stepped me w o (start hashes false listing) w (claims [] hashes.eraseDups listing)
  | rehearsed {hashes : List String} {listing : Option Listing} :
    Stepped me w o (start hashes true listing) w (rows hashes.eraseDups none .zero listing)
  | looked {todo todo' : List String} {acc acc' : Deleted} {listing : Option Listing}
    (hr : acc'.removed = acc.removed) :
    Stepped me w o (rows todo none acc listing) w (rows todo' none acc' listing)
  | reported {todo : List String} {acc : Deleted} {listing : Option Listing}
    {result : Except String Response} :
    Stepped me w o (rows todo none acc listing) w (done result acc.removed listing)
  | began {taken : List String} {listing : Option Listing} :
    Stepped me w o (claims taken [] listing) w (rows taken (some ⟨taken, []⟩) .zero listing)
  | claimed {taken todo : List String} {hash : String} {listing : Option Listing} {f : InFlight}
    (hf : w.inFlight.take hash .delete = .ok f) :
    Stepped me w o (claims taken (hash :: todo) listing) { w with inFlight := f }
      (claims (taken ++ [hash]) todo listing)
  | busy {taken todo : List String} {listing : Option Listing} {e : String} :
    Stepped me w o (claims taken todo listing) (w.release taken) (done (.error e) [] listing)
  | missed {hash : String} {todo : List String} {d : Deletion} {acc : Deleted}
    {listing : Option Listing} (hrow : w.row? hash = none) :
    Stepped me w o (rows (hash :: todo) (some d) acc listing) w
      (rows todo (some d) { acc with missing := acc.missing ++ [hash] } listing)
  | removed {hash : String} {todo : List String} {d : Deletion} {acc : Deleted}
    {listing : Option Listing} {row : Row} (hfree : w.free me) (hrow : w.row? hash = some row) :
    Stepped me w o (rows (hash :: todo) (some d) acc listing)
      { w with db := w.db.removed hash row.fileSize }
      (rows todo (some (d.queueBlob hash))
        { acc with
          deleted := acc.deleted + 1
          bytesFreed := acc.bytesFreed + row.fileSize
          removed := acc.removed ++ [(hash, row)] } listing)
  | failed {todo : List String} {d : Deletion} {acc : Deleted} {listing : Option Listing}
    {e : String} :
    Stepped me w o (rows todo (some d) acc listing) (w.release d.claims)
      (done (.error e) acc.removed listing)
  | deleted {d : Deletion} {acc : Deleted} {listing : Option Listing} :
    Stepped me w o (rows [] (some d) acc listing) w (finish (.start d) acc listing)
  | finishing {f f' : Finish} {acc : Deleted} {listing : Option Listing} {w' : World}
    (hf : f.step w o = (w', .inl f')) :
    Stepped me w o (finish f acc listing) w' (finish f' acc listing)
  | finished {f : Finish} {acc : Deleted} {listing : Option Listing} {w' : World}
    {r : Except String Unit} {result : Except String Response}
    (hf : f.step w o = (w', .inr r))
    (hr : result = .ok (answer acc listing) ∨ ∃ e, result = .error e) :
    Stepped me w o (finish f acc listing) w' (done result acc.removed listing)

variable {me : ℕ} {w w' : World} {o : Oracle} {d d' : Delete}

theorem step_cases (h : d.step me w o = some (w', d')) : Stepped me w o d w' d' := by
  cases d with
  | list subject since dryRun =>
    simp only [step] at h
    split at h
    · split at h
      · obtain ⟨rfl, rfl⟩ := Prod.mk.inj (Option.some.inj h)
        exact .unlisted (Or.inl ⟨_, rfl⟩)
      · rename_i matched hl
        cases dryRun with
        | true =>
          obtain ⟨rfl, rfl⟩ := Prod.mk.inj (Option.some.inj h)
          exact .unlisted (Or.inr ⟨_, rfl, rfl⟩)
        | false =>
          obtain ⟨rfl, rfl⟩ := Prod.mk.inj (Option.some.inj h)
          exact .listed hl
    · exact absurd h (by simp)
  | start hashes dryRun listing =>
    cases dryRun with
    | true =>
      obtain ⟨rfl, rfl⟩ := Prod.mk.inj (Option.some.inj h)
      exact .rehearsed
    | false =>
      obtain ⟨rfl, rfl⟩ := Prod.mk.inj (Option.some.inj h)
      exact .started
  | claims taken todo listing =>
    cases todo with
    | nil =>
      obtain ⟨rfl, rfl⟩ := Prod.mk.inj (Option.some.inj h)
      exact .began
    | cons hash todo =>
      simp only [step] at h
      split at h
      · obtain ⟨rfl, rfl⟩ := Prod.mk.inj (Option.some.inj h)
        exact .busy
      · rename_i f hf
        obtain ⟨rfl, rfl⟩ := Prod.mk.inj (Option.some.inj h)
        exact .claimed hf
  | rows todo del acc listing =>
    cases todo with
    | nil =>
      cases del with
      | none =>
        obtain ⟨rfl, rfl⟩ := Prod.mk.inj (Option.some.inj h)
        exact .reported
      | some del =>
        obtain ⟨rfl, rfl⟩ := Prod.mk.inj (Option.some.inj h)
        exact .deleted
    | cons hash todo =>
      cases del with
      | none =>
        simp only [step] at h
        split at h
        · split at h
          · obtain ⟨rfl, rfl⟩ := Prod.mk.inj (Option.some.inj h)
            exact .reported
          all_goals
            obtain ⟨rfl, rfl⟩ := Prod.mk.inj (Option.some.inj h)
            exact .looked rfl
        · exact absurd h (by simp)
      | some del =>
        simp only [step] at h
        split at h
        · rename_i hfree
          split at h
          · rename_i e db hdel
            obtain ⟨rfl, rfl⟩ := Prod.mk.inj (Option.some.inj h)
            rcases deleteObject_cases hdel with ⟨_, -, hbad, -⟩ | ⟨-, hbad, -⟩ | ⟨-, rfl⟩
            · exact absurd hbad (by simp)
            · exact absurd hbad (by simp)
            · exact .failed
          · rename_i db hdel
            obtain ⟨rfl, rfl⟩ := Prod.mk.inj (Option.some.inj h)
            rcases deleteObject_cases hdel with ⟨_, -, hbad, -⟩ | ⟨hrow, -, rfl⟩ | ⟨⟨_, hbad⟩, -⟩
            · exact absurd hbad (by simp)
            · exact .missed hrow
            · exact absurd hbad (by simp)
          · rename_i freed db hdel
            obtain ⟨rfl, rfl⟩ := Prod.mk.inj (Option.some.inj h)
            rcases deleteObject_cases hdel with ⟨row, hrow, hf, rfl⟩ | ⟨-, hbad, -⟩ | ⟨⟨_, hbad⟩, -⟩
            · obtain rfl := Option.some.inj (Except.ok.inj hf)
              rw [show w.row? hash = some row from hrow]
              exact .removed hfree hrow
            · exact absurd hbad (by simp)
            · exact absurd hbad (by simp)
        · exact absurd h (by simp)
  | finish f acc listing =>
    simp only [step] at h
    split at h
    · rename_i w₁ f' hf
      obtain ⟨rfl, rfl⟩ := Prod.mk.inj (Option.some.inj h)
      exact .finishing hf
    · rename_i w₁ e hf
      obtain ⟨rfl, rfl⟩ := Prod.mk.inj (Option.some.inj h)
      exact .finished hf (Or.inr ⟨_, rfl⟩)
    · rename_i w₁ hf
      obtain ⟨rfl, rfl⟩ := Prod.mk.inj (Option.some.inj h)
      exact .finished hf (Or.inl rfl)
  | done result removed listing => exact absurd h (by simp [step])

/-- The effects a delete's next step may have. -/
def Allows (d : Delete) : Effect → Prop
  | .quiet => True
  | .removed hash _ => ∃ todo del acc listing, d = rows (hash :: todo) (some del) acc listing
  | .unlinked keys => ∀ k ∈ keys, k ∈ d.deletion.keys
  | _ => False

theorem step_effect (h : Stepped me w o d w' d') :
    ∃ e, Step me w w' d.holds d'.holds e ∧ d.Allows e := by
  cases h with
  | listed hl => exact ⟨.quiet, .stay (.refl _), trivial⟩
  | unlisted hr => exact ⟨.quiet, .stay (.refl _), trivial⟩
  | started => exact ⟨.quiet, .stay (.refl _), trivial⟩
  | rehearsed => exact ⟨.quiet, .stay (.refl _), trivial⟩
  | looked hr => exact ⟨.quiet, .stay (.refl _), trivial⟩
  | reported => exact ⟨.quiet, .stay (.refl _), trivial⟩
  | began => exact ⟨.quiet, .stay (.refl _), trivial⟩
  | @claimed taken todo hash listing f hf =>
    refine ⟨.quiet, .takes hf ?_, trivial⟩
    simp only [holds, deleting, List.map_append, List.map_cons, List.map_nil]
    exact List.perm_append_singleton _ _
  | busy => exact ⟨.quiet, (Step.stay (.refl _)).dropAll rfl fun _ => mem_deleting, trivial⟩
  | missed hrow => exact ⟨.quiet, .stay (.refl _), trivial⟩
  | @removed hash todo del acc listing row hfree hrow =>
    have hdo : (Effect.removed hash row).Does w
        { w with db := w.db.removed hash row.fileSize } := ⟨⟨hrow, rfl⟩, rfl⟩
    exact ⟨.removed hash row, .commits hfree hdo (Or.inl rfl) (.refl _),
      todo, del, acc, listing, rfl⟩
  | failed => exact ⟨.quiet, (Step.stay (.refl _)).dropAll rfl fun _ => mem_deleting, trivial⟩
  | deleted => exact ⟨.quiet, .stay (.refl _), trivial⟩
  | finishing hf =>
    obtain ⟨gone, hgone, -, hs, -⟩ := Finish.step_inl hf
    exact ⟨.unlinked gone, hs, hgone⟩
  | finished hf hr =>
    obtain ⟨gone, hgone, -, hs⟩ := Finish.step_inr hf
    exact ⟨.unlinked gone, hs, hgone⟩

/-- The path a delete is about to remove is one it has claimed. -/
def Wf : Delete → Prop
  | rows todo (some del) _ _ => ∀ hash ∈ todo, hash ∈ del.claims
  | _ => True

theorem step_wf (h : Stepped me w o d w' d') (hd : d.Wf) : d'.Wf := by
  cases h with
  | began => exact fun hash hh => hh
  | missed hrow => exact fun hash hh => hd hash (List.mem_cons_of_mem _ hh)
  | removed hfree hrow => exact fun hash hh => hd hash (List.mem_cons_of_mem _ hh)
  | _ => trivial

/-- A delete queues only blobs whose row it has deleted. -/
theorem step_ready (h : Stepped me w o d w' d') (hwf : d.Wf) (hd : d.deletion.Ready w) :
    d'.deletion.Ready w' := by
  cases h with
  | listed hl => exact hd
  | unlisted hr => exact .nil _ _
  | started => exact hd
  | rehearsed => exact hd
  | looked hr => exact hd
  | reported => exact .nil _ _
  | began => exact .nil _ _
  | claimed hf => exact hd.mono fun _ _ h => h
  | busy => exact .nil _ _
  | missed hrow => exact hd
  | removed hfree hrow =>
    exact hd.queueBlob (hwf _ List.mem_cons_self) row?_removed_self fun _ => row?_removed_none
  | failed => exact .nil _ _
  | @deleted del acc listing =>
    rw [show (finish (.start del) acc listing).deletion = del from Finish.start_deletion del]
    exact hd
  | finishing hf => exact hd.next hf
  | finished hf hr => exact .nil _ _

end Delete

/-! ## `prune` -/

/-- Where a prune stands. From `claims` to `batches` it runs inside one closure, which keeps the
connection. -/
inductive Prune where
  | start (before : Int) (dryRun : Bool)
  /-- In `claim_all`. -/
  | claims (now : Int) (doomed : List ObjectBrief) (taken todo : List String)
  /-- Everything is claimed, before `referrers_first`. -/
  | order (now : Int) (doomed : List ObjectBrief)
  /-- The head of the loop over batches. -/
  | batches (now : Int) (doomed : List ObjectBrief) (todo : List (List ObjectBrief))
  | finish (f : Finish) (pruned : List ObjectBrief)
  | done (result : Except String Response)

namespace Prune

/-- The listed hashes. -/
def hashes (doomed : List ObjectBrief) : List String := doomed.map ObjectBrief.storePathHash

/-- The claims a prune holds. -/
def holds : Prune → List (String × Kind)
  | claims _ _ taken _ => deleting taken
  | order _ doomed => deleting (hashes doomed)
  | batches _ doomed _ => deleting (hashes doomed)
  | finish f _ => deleting f.claims
  | _ => []

/-- The listed hashes whose batch has committed. -/
def gone (doomed : List ObjectBrief) (todo : List (List ObjectBrief)) : List String :=
  (hashes doomed).filter fun h => !(hashes todo.flatten).contains h

/-- The deletion under way. Blobs are queued after the last batch; before that, those of committed
batches count. -/
def deletion : Prune → Deletion
  | batches _ doomed todo => ⟨hashes doomed, (gone doomed todo).map keyFor⟩
  | finish f _ => f.deletion
  | _ => ⟨[], []⟩

/-- The prune keeps the connection. -/
def locked : Prune → Bool
  | claims _ _ _ _ => true
  | order _ _ => true
  | batches _ _ _ => true
  | _ => false

/-- The closure fails: its claims and the connection are given back. -/
def abort (w : World) (claims : List String) (e : String) : Option (World × Prune) :=
  some ({ w.release claims with conn := none }, done (.error e))

/-- One step of a prune. -/
def step (me : ℕ) (w : World) (o : Oracle) : Prune → Option (World × Prune)
  | start before dryRun =>
    if w.free me then
      match prunable o.io before w.clock w.db with
      | .error (.refused e) => some (w, done (.error e))
      | .error _ => some (w, done (.error "database"))
      | .ok doomed =>
        if dryRun then some (w, done (.ok (.prune (basenames doomed) (bytesOf doomed))))
        else some ({ w with conn := some me }, claims w.clock doomed [] (hashes doomed))
    else none
  | claims now doomed _ [] => if w.free me then some (w, order now doomed) else none
  | claims now doomed taken (hash :: todo) =>
    if w.free me then
      match w.inFlight.claimDelete hash with
      | .error busy => abort w taken (busyMessage hash busy)
      | .ok f => some ({ w with inFlight := f }, claims now doomed (taken ++ [hash]) todo)
    else none
  | order now doomed =>
    if w.free me then
      match referrersFirst o.io w.db doomed with
      | .error (.refused e) => abort w (hashes doomed) e
      | .error _ => abort w (hashes doomed) "database"
      | .ok positions => some (w, batches now doomed (pruneBatches doomed positions))
    else none
  | batches _ doomed [] =>
    if w.free me then
      some ({ w with conn := none },
        finish (.start ⟨hashes doomed, (hashes doomed).map keyFor⟩) doomed)
    else none
  | batches now doomed (batch :: todo) =>
    if w.free me then
      match deletePrunedBatch o.io batch w.db with
      | (.error _, db) => abort { w with db := db } (hashes doomed) "database"
      | (.ok (), db) => some ({ w with db := db }, batches now doomed todo)
    else none
  | finish f pruned =>
    match f.step w o with
    | (w, .inl f) => some (w, finish f pruned)
    | (w, .inr (.error e)) => some (w, done (.error e))
    | (w, .inr (.ok ())) => some (w, done (.ok (.prune (basenames pruned) (bytesOf pruned))))
  | done _ => none

/-- The steps of a prune, one constructor each. -/
inductive Stepped (me : ℕ) (w : World) (o : Oracle) : Prune → World → Prune → Prop
  /-- The listing failed, or it was a dry run. -/
  | quit {before : Int} {dryRun : Bool} {r : Except String Response} :
    Stepped me w o (start before dryRun) w (done r)
  | marked {before : Int} {doomed : List ObjectBrief} (hfree : w.free me)
    (hp : prunable o.io before w.clock w.db = .ok doomed) :
    Stepped me w o (start before false) { w with conn := some me }
      (claims w.clock doomed [] (hashes doomed))
  | claimed {now : Int} {doomed : List ObjectBrief} {taken todo : List String} {hash : String}
    {f : InFlight} (hf : w.inFlight.take hash .delete = .ok f) :
    Stepped me w o (claims now doomed taken (hash :: todo)) { w with inFlight := f }
      (claims now doomed (taken ++ [hash]) todo)
  | ordering {now : Int} {doomed : List ObjectBrief} {taken : List String} :
    Stepped me w o (claims now doomed taken []) w (order now doomed)
  | ordered {now : Int} {doomed : List ObjectBrief} {order' : List ℕ}
    (ho : referrersFirst o.io w.db doomed = .ok order') :
    Stepped me w o (order now doomed) w (batches now doomed (pruneBatches doomed order'))
  | pruned {now : Int} {doomed batch : List ObjectBrief} {todo : List (List ObjectBrief)}
    (hfree : w.free me) :
    Stepped me w o (batches now doomed (batch :: todo)) { w with db := w.db.pruned batch }
      (batches now doomed todo)
  | closed {now : Int} {doomed : List ObjectBrief} (hfree : w.free me) :
    Stepped me w o (batches now doomed []) { w with conn := none }
      (finish (.start ⟨hashes doomed, (hashes doomed).map keyFor⟩) doomed)
  | aborted {p : Prune} {taken : List String} {r : Except String Response} (hfree : w.free me)
    (hh : p.holds = deleting taken) :
    Stepped me w o p { w.release taken with conn := none } (done r)
  | finishing {f f' : Finish} {pruned : List ObjectBrief} {w' : World}
    (hf : f.step w o = (w', .inl f')) : Stepped me w o (finish f pruned) w' (finish f' pruned)
  | finished {f : Finish} {pruned : List ObjectBrief} {w' : World} {r : Except String Unit}
    {r' : Except String Response} (hf : f.step w o = (w', .inr r)) :
    Stepped me w o (finish f pruned) w' (done r')

variable {me : ℕ} {w w' : World} {o : Oracle} {p p' : Prune}

theorem step_cases (h : p.step me w o = some (w', p')) : Stepped me w o p w' p' := by
  cases p with
  | start before dryRun =>
    simp only [step] at h
    split at h
    · rename_i hfree
      split at h
      · obtain ⟨rfl, rfl⟩ := Prod.mk.inj (Option.some.inj h)
        exact .quit
      · obtain ⟨rfl, rfl⟩ := Prod.mk.inj (Option.some.inj h)
        exact .quit
      · rename_i doomed hp
        cases dryRun with
        | true =>
          obtain ⟨rfl, rfl⟩ := Prod.mk.inj (Option.some.inj h)
          exact .quit
        | false =>
          obtain ⟨rfl, rfl⟩ := Prod.mk.inj (Option.some.inj h)
          exact .marked hfree hp
    · exact absurd h (by simp)
  | claims now doomed taken todo =>
    cases todo with
    | nil =>
      simp only [step] at h
      split at h
      · obtain ⟨rfl, rfl⟩ := Prod.mk.inj (Option.some.inj h)
        exact .ordering
      · exact absurd h (by simp)
    | cons hash todo =>
      simp only [step, abort] at h
      split at h
      · rename_i hfree
        split at h
        · obtain ⟨rfl, rfl⟩ := Prod.mk.inj (Option.some.inj h)
          exact .aborted hfree rfl
        · rename_i f hf
          obtain ⟨rfl, rfl⟩ := Prod.mk.inj (Option.some.inj h)
          exact .claimed hf
      · exact absurd h (by simp)
  | order now doomed =>
    simp only [step, abort] at h
    split at h
    · rename_i hfree
      split at h
      · obtain ⟨rfl, rfl⟩ := Prod.mk.inj (Option.some.inj h)
        exact .aborted hfree rfl
      · obtain ⟨rfl, rfl⟩ := Prod.mk.inj (Option.some.inj h)
        exact .aborted hfree rfl
      · rename_i order' ho
        obtain ⟨rfl, rfl⟩ := Prod.mk.inj (Option.some.inj h)
        exact .ordered ho
    · exact absurd h (by simp)
  | batches now doomed todo =>
    cases todo with
    | nil =>
      simp only [step] at h
      split at h
      · rename_i hfree
        obtain ⟨rfl, rfl⟩ := Prod.mk.inj (Option.some.inj h)
        exact .closed hfree
      · exact absurd h (by simp)
    | cons batch todo =>
      simp only [step, abort] at h
      split at h
      · rename_i hfree
        split at h
        · rename_i e db hdel
          obtain ⟨rfl, rfl⟩ := Prod.mk.inj (Option.some.inj h)
          rcases deletePrunedBatch_cases hdel with ⟨hbad, -⟩ | ⟨-, rfl⟩
          · exact absurd hbad (by simp)
          · exact .aborted hfree rfl
        · rename_i db hdel
          obtain ⟨rfl, rfl⟩ := Prod.mk.inj (Option.some.inj h)
          rcases deletePrunedBatch_cases hdel with ⟨-, rfl⟩ | ⟨⟨e, hbad⟩, -⟩
          · exact .pruned hfree
          · exact absurd hbad (by simp)
      · exact absurd h (by simp)
  | finish f pruned =>
    simp only [step] at h
    split at h
    · rename_i w₁ f' hf
      obtain ⟨rfl, rfl⟩ := Prod.mk.inj (Option.some.inj h)
      exact .finishing hf
    · rename_i w₁ e hf
      obtain ⟨rfl, rfl⟩ := Prod.mk.inj (Option.some.inj h)
      exact .finished hf
    · rename_i w₁ hf
      obtain ⟨rfl, rfl⟩ := Prod.mk.inj (Option.some.inj h)
      exact .finished hf
  | done r => exact absurd h (by simp [step])

/-- What a prune relies on inside its closure: the listing is current, then the rows still to go
are in order. -/
def Planned (db : Db) : Prune → Prop
  | claims now doomed taken todo => taken ++ todo = hashes doomed ∧ Doomed db now doomed
  | order now doomed => Doomed db now doomed
  | batches now _ todo => Prunes db now todo.flatten
  | _ => True

/-- The effects a prune's next step may have. -/
def Allows (p : Prune) : Effect → Prop
  | .quiet => True
  | .pruned batch => ∃ now doomed todo, p = batches now doomed (batch :: todo)
  | .unlinked keys => ∃ f pruned, p = finish f pruned ∧ ∀ k ∈ keys, k ∈ f.deletion.keys
  | _ => False

theorem step_effect (h : Stepped me w o p w' p') (hp : p.Planned w.db) :
    ∃ e, Step me w w' p.holds p'.holds e ∧ p.Allows e := by
  cases h with
  | quit => exact ⟨.quiet, .stay (.refl _), trivial⟩
  | marked hfree hp =>
    have hdo : Effect.quiet.Does w { w with conn := some me } := .quiet rfl rfl
    exact ⟨.quiet, .commits hfree hdo (Or.inr (Or.inr rfl)) (.refl _), trivial⟩
  | claimed hf =>
    refine ⟨.quiet, .takes hf ?_, trivial⟩
    simp only [holds, deleting, List.map_append, List.map_cons, List.map_nil]
    exact List.perm_append_singleton _ _
  | @ordering now doomed taken =>
    have ht : taken = hashes doomed := by simpa using hp.1
    exact ⟨.quiet, .stay (by rw [ht]; exact .refl _), trivial⟩
  | ordered ho => exact ⟨.quiet, .stay (.refl _), trivial⟩
  | @pruned now doomed batch todo hfree =>
    have hdo : (Effect.pruned batch).Does w { w with db := w.db.pruned batch } := ⟨rfl, rfl⟩
    exact ⟨.pruned batch, .commits hfree hdo (Or.inl rfl) (.refl _), now, doomed, todo, rfl⟩
  | closed hfree =>
    have hdo : Effect.quiet.Does w { w with conn := none } := .quiet rfl rfl
    exact ⟨.quiet, .commits hfree hdo (Or.inr (Or.inl rfl)) (.refl _), trivial⟩
  | aborted hfree hh =>
    refine ⟨.quiet, ((Step.stay (.refl _)).dropAll rfl fun _ => ?_).giveBack hfree, trivial⟩
    rw [hh]
    exact mem_deleting
  | @finishing f f' pruned w' hf =>
    obtain ⟨gone, hgone, -, hs, -⟩ := Finish.step_inl hf
    exact ⟨.unlinked gone, hs, f, pruned, rfl, hgone⟩
  | @finished f pruned w' r r' hf =>
    obtain ⟨gone, hgone, -, hs⟩ := Finish.step_inr hf
    exact ⟨.unlinked gone, hs, f, pruned, rfl, hgone⟩

theorem step_planned (h : Stepped me w o p w' p') (hp : p.Planned w.db) : p'.Planned w'.db := by
  cases h with
  | marked hfree hl => exact ⟨rfl, prunable_doomed hl⟩
  | claimed hf =>
    refine ⟨?_, hp.2⟩
    rw [List.append_assoc]
    exact hp.1
  | ordering => exact hp.2
  | @ordered now doomed order' ho =>
    have := prunes_start hp ho
    rwa [← pruneBatches_flatten] at this
  | pruned hfree => exact prunes_batch hp
  | finishing hf => trivial
  | _ => trivial

/-- The Puller's bumps do not disturb a prune. -/
theorem Planned.bumped {db db' : Db} (h : p.Planned db) (hrefs : db'.objectRefs = db.objectRefs)
    (hpins : db'.pins = db.pins) (hrows : ∀ k, db'.row? k = db.row? k ∨
      ∃ a b, db.row? k = some a ∧ db'.row? k = some b ∧ a.SameButAccess b) : p.Planned db' := by
  cases p with
  | claims now doomed taken todo => exact ⟨h.1, h.2.bumped hrefs hpins hrows⟩
  | order now doomed => exact Doomed.bumped h hrefs hpins hrows
  | batches now doomed todo => exact Prunes.bumped h hrefs hpins hrows
  | start before dryRun => trivial
  | finish f pruned => trivial
  | done r => trivial

theorem mem_gone {doomed : List ObjectBrief} {todo : List (List ObjectBrief)} {h : String} :
    h ∈ gone doomed todo ↔ h ∈ hashes doomed ∧ h ∉ hashes todo.flatten := by
  simp [gone]

/-- A prune queues only blobs whose row it has deleted. -/
theorem step_ready (h : Stepped me w o p w' p') (hd : p.deletion.Ready w) :
    p'.deletion.Ready w' := by
  cases h with
  | quit => exact .nil _ _
  | marked hfree hp => exact .nil _ _
  | claimed hf => exact .nil _ _
  | ordering => exact .nil _ _
  | @ordered now doomed order' ho =>
    -- every listed row is still to go
    have hnone : gone doomed (pruneBatches doomed order') = [] := by
      refine List.eq_nil_iff_forall_not_mem.mpr fun x hx => ?_
      obtain ⟨hx, hout⟩ := mem_gone.mp hx
      obtain ⟨b, hb, rfl⟩ := List.mem_map.mp hx
      refine hout (List.mem_map_of_mem ?_)
      rw [pruneBatches_flatten]
      exact mem_pruneBatches ho hb
    simp only [deletion, hnone, List.map_nil]
    exact .nil _ _
  | @pruned now doomed batch todo hfree =>
    refine ⟨fun k hk => ?_, fun x hx => ?_⟩
    · obtain ⟨x, hx, rfl⟩ := List.mem_map.mp hk
      exact ⟨x, (mem_gone.mp hx).1, rfl⟩
    · obtain ⟨hc, hk⟩ := Deletion.mem_queued.mp hx
      obtain ⟨y, hy, hxy⟩ := List.mem_map.mp hk
      obtain rfl := keyFor_injective hxy
      unfold World.row?
      rw [row?_pruned]
      split
      · rfl
      · -- not in this batch and not in a later one: gone before
        rename_i hout
        refine hd.gone _ (Deletion.mem_queued.mpr ⟨hc, List.mem_map_of_mem (mem_gone.mpr ⟨hc, ?_⟩)⟩)
        rw [List.flatten_cons, hashes, List.map_append]
        exact fun hin => (List.mem_append.mp hin).elim hout (mem_gone.mp hy).2
  | @closed now doomed hfree =>
    have heq : gone doomed [] = hashes doomed := by simp [gone, hashes]
    rw [deletion, heq] at hd
    rw [deletion, Finish.start_deletion]
    exact hd.mono fun _ _ h => h
  | aborted hfree hh => exact .nil _ _
  | finishing hf => exact hd.next hf
  | finished hf => exact .nil _ _

/-- A prune keeps the connection while its closure runs. -/
theorem step_locked (h : Stepped me w o p w' p') (hl : p.locked = true → w.conn = some me)
    (hl' : p'.locked = true) : w'.conn = some me := by
  cases h with
  | marked hfree hp => rfl
  | claimed hf => exact hl rfl
  | ordering => exact hl rfl
  | ordered ho => exact hl rfl
  | pruned hfree => exact hl rfl
  | quit => exact absurd hl' (by simp [locked])
  | closed hfree => exact absurd hl' (by simp [locked])
  | aborted hfree hh => exact absurd hl' (by simp [locked])
  | finishing hf => exact absurd hl' (by simp [locked])
  | finished hf => exact absurd hl' (by simp [locked])

end Prune

/-! ## `resign` -/

/-- Rows per lock hold (`CHUNK`). -/
def resignChunk : ℕ := 500

/-- Where a re-sign stands, between two awaits. -/
inductive Resign where
  | start
  /-- The head of the loop over chunks, before the reads. -/
  | read (chunks : List (List String)) (resigned refused : ℕ)
  /-- Before the write-back. An update is a hash and its signatures; the object they were computed
  from is kept for the proofs. -/
  | write (updates : List (Object × List String)) (chunks : List (List String))
    (resigned refused : ℕ)
  | done (result : Except String Response)

namespace Resign

/-- `get_object` for each hash of a chunk, those without a row skipped. -/
def readChunk (io : Faults) (db : Db) : ℕ → List String → Except DbError (List Object)
  | _, [] => .ok []
  | k, hash :: hashes => do
    let object ← getObject io (2 * k) hash db
    let objects ← readChunk io db (k + 1) hashes
    return object.toList ++ objects

variable {δ : Type} (env : Env δ)

/-- The loop over a chunk's objects: the updates, and how many objects were refused. -/
def resignAll : List Object → Except String (List (Object × List String) × ℕ)
  | [] => .ok ([], 0)
  | object :: objects =>
    if verify object env.storeDir env.keys then do
      let sigs ← sign object env.storeDir env.keys
      let (updates, refused) ← resignAll objects
      return (if sigs ≠ object.sigs then (object, sigs) :: updates else updates, refused)
    else do
      let (updates, refused) ← resignAll objects
      return (updates, refused + 1)

/-- The updates as the source has them: a hash and its signatures. -/
def named (updates : List (Object × List String)) : List (String × List String) :=
  updates.map fun u => (u.1.storePathHash, u.2)

/-- The write-back: one `update_sigs` per update, in one transaction. -/
def writeBack (io : Faults) (updates : List (Object × List String)) :
    Db → Except DbError Unit × Db :=
  transaction fun db => do
    statement io 0
    statements io 1 updates.length
    let db := db.resigned (named updates)
    statement io (1 + updates.length)
    return ((), db)

/-- The iteration order of `all_hashes`: any order of the hash set. -/
def inOrder (order hashes : List String) : List String :=
  if order.Perm hashes then order else hashes

/-- One step of a re-sign. -/
def step (me : ℕ) (w : World) (o : Oracle) : Resign → Option (World × Resign)
  | start =>
    if w.free me then
      match allHashes o.io w.db with
      | .error _ => some (w, done (.error "database"))
      | .ok hashes => some (w, read (chunks resignChunk (inOrder o.order hashes)) 0 0)
    else none
  | read [] resigned refused => some (w, done (.ok (.resign resigned refused)))
  | read (chunk :: rest) resigned refused =>
    if w.free me then
      match readChunk o.io w.db 0 chunk with
      | .error _ => some (w, done (.error "database"))
      | .ok objects =>
        match resignAll env objects with
        | .error e => some (w, done (.error e))
        | .ok (updates, n) => some (w, write updates rest (resigned + updates.length) (refused + n))
    else none
  | write updates rest resigned refused =>
    if w.free me then
      match writeBack o.io updates w.db with
      | (.error _, db) => some ({ w with db := db }, done (.error "database"))
      | (.ok (), db) => some ({ w with db := db }, read rest resigned refused)
    else none
  | done _ => none

/-- The updates waiting to be written. -/
def pending : Resign → List (Object × List String)
  | write updates _ _ _ => updates
  | _ => []

/-- An update: its object is the stored one and verifies, and every key has signed it. -/
structure Update (env : Env δ) (db : Db) (u : Object × List String) : Prop where
  stored : db.object? u.1.storePathHash = some u.1
  verified : verify u.1 env.storeDir env.keys = true
  signed : sign u.1 env.storeDir env.keys = .ok u.2

/-- The steps of a re-sign, one constructor each. -/
inductive Stepped (me : ℕ) (w : World) (o : Oracle) : Resign → World → Resign → Prop
  | still {r r' : Resign} (hp : r'.pending = []) : Stepped me w o r w r'
  | chunked {chunks rest : List (List String)} {m n m' n' : ℕ}
    {updates : List (Object × List String)} (hu : ∀ u ∈ updates, Update env w.db u) :
    Stepped me w o (read chunks m n) w (write updates rest m' n')
  | written {rest : List (List String)} {m n : ℕ} {updates : List (Object × List String)}
    (hfree : w.free me) :
    Stepped me w o (write updates rest m n)
      { w with db := w.db.resigned (named updates) } (read rest m n)

variable {env} {me : ℕ} {w w' : World} {o : Oracle} {r r' : Resign}

theorem readChunk_ok {io : Faults} {db : Db} : ∀ {hashes : List String} {k : ℕ}
    {objects : List Object}, readChunk io db k hashes = .ok objects →
    ∀ obj ∈ objects, db.object? obj.storePathHash = some obj
  | [], k, objects, h => by
    simp only [readChunk, Except.ok.injEq] at h
    subst h
    simp
  | hash :: hashes, k, objects, h => by
    simp only [readChunk, bind_eq_ok, pure_eq_ok] at h
    obtain ⟨object, hget, rest, hrest, rfl⟩ := h
    intro obj hobj
    rcases List.mem_append.mp hobj with hobj | hobj
    · rw [getObject_ok hget, Option.mem_toList] at hobj
      have hhash : obj.storePathHash = hash := by
        obtain ⟨row, -, rfl⟩ := Option.map_eq_some_iff.mp hobj
        rfl
      rw [hhash]
      exact hobj
    · exact readChunk_ok hrest obj hobj

theorem resignAll_ok : ∀ {objects : List Object} {updates : List (Object × List String)} {n : ℕ},
    resignAll env objects = .ok (updates, n) → ∀ u ∈ updates, u.1 ∈ objects ∧
      verify u.1 env.storeDir env.keys = true ∧ sign u.1 env.storeDir env.keys = .ok u.2
  | [], updates, n, h => by
    simp only [resignAll, Except.ok.injEq, Prod.mk.injEq] at h
    obtain ⟨rfl, -⟩ := h
    simp
  | object :: objects, updates, n, h => by
    simp only [resignAll] at h
    split at h
    · rename_i hver
      obtain ⟨sigs, hsigs, h⟩ := bind_eq_ok.mp h
      obtain ⟨⟨us, m⟩, hrec, h⟩ := bind_eq_ok.mp h
      simp only [pure, Except.pure, Except.ok.injEq, Prod.mk.injEq] at h
      obtain ⟨rfl, -⟩ := h
      intro u hu
      have hlater : u ∈ us → _ := fun hu =>
        (resignAll_ok hrec u hu).imp_left (List.mem_cons_of_mem object)
      split at hu
      · rcases List.mem_cons.mp hu with rfl | hu
        · exact ⟨List.mem_cons_self, hver, hsigs⟩
        · exact hlater hu
      · exact hlater hu
    · obtain ⟨⟨us, m⟩, hrec, h⟩ := bind_eq_ok.mp h
      simp only [pure, Except.pure, Except.ok.injEq, Prod.mk.injEq] at h
      obtain ⟨rfl, -⟩ := h
      intro u hu
      exact (resignAll_ok hrec u hu).imp_left (List.mem_cons_of_mem object)

theorem writeBack_cases {io : Faults} {updates : List (Object × List String)} {db db' : Db}
    {res : Except DbError Unit} (h : writeBack io updates db = (res, db')) :
    (res = .ok () ∧ db' = db.resigned (named updates)) ∨ (∃ e, res = .error e) ∧ db' = db := by
  rcases transaction_cases h with ⟨u, rfl, hb⟩ | ⟨e, rfl, rfl⟩
  · refine Or.inl ⟨rfl, ?_⟩
    simp only [bind_eq_ok, pure_eq_ok, Prod.mk.injEq] at hb
    obtain ⟨_, -, _, -, _, -, -, rfl⟩ := hb
    rfl
  · exact Or.inr ⟨⟨e, rfl⟩, rfl⟩

theorem step_cases (h : r.step env me w o = some (w', r')) : Stepped env me w o r w' r' := by
  cases r with
  | start =>
    simp only [step] at h
    split at h
    · split at h
      all_goals
        obtain ⟨rfl, rfl⟩ := Prod.mk.inj (Option.some.inj h)
        exact .still rfl
    · exact absurd h (by simp)
  | read todo resigned refused =>
    cases todo with
    | nil =>
      obtain ⟨rfl, rfl⟩ := Prod.mk.inj (Option.some.inj h)
      exact .still rfl
    | cons chunk rest =>
      simp only [step] at h
      split at h
      · split at h
        · obtain ⟨rfl, rfl⟩ := Prod.mk.inj (Option.some.inj h)
          exact .still rfl
        · rename_i objects hread
          split at h
          · obtain ⟨rfl, rfl⟩ := Prod.mk.inj (Option.some.inj h)
            exact .still rfl
          · rename_i updates n hres
            obtain ⟨rfl, rfl⟩ := Prod.mk.inj (Option.some.inj h)
            refine .chunked fun u hu => ?_
            obtain ⟨hin, hver, hsig⟩ := resignAll_ok hres u hu
            exact ⟨readChunk_ok hread _ hin, hver, hsig⟩
      · exact absurd h (by simp)
  | write updates rest resigned refused =>
    simp only [step] at h
    split at h
    · rename_i hfree
      split at h
      · rename_i e db hw
        obtain ⟨rfl, rfl⟩ := Prod.mk.inj (Option.some.inj h)
        rcases writeBack_cases hw with ⟨hbad, -⟩ | ⟨-, rfl⟩
        · exact absurd hbad (by simp)
        · exact .still rfl
      · rename_i db hw
        obtain ⟨rfl, rfl⟩ := Prod.mk.inj (Option.some.inj h)
        rcases writeBack_cases hw with ⟨-, rfl⟩ | ⟨⟨e, hbad⟩, -⟩
        · exact .written hfree
        · exact absurd hbad (by simp)
    · exact absurd h (by simp)
  | done res => exact absurd h (by simp [step])

/-- The effects a re-sign's next step may have. -/
def Allows (r : Resign) : Effect → Prop
  | .quiet => True
  | .resigned updates => updates = named r.pending
  | _ => False

theorem step_effect (h : Stepped env me w o r w' r') :
    ∃ e, Step me w w' [] [] e ∧ r.Allows e := by
  cases h with
  | still hp => exact ⟨.quiet, .stay (.refl _), trivial⟩
  | chunked hu => exact ⟨.quiet, .stay (.refl _), trivial⟩
  | @written rest m n updates hfree =>
    have hdo : (Effect.resigned (named updates)).Does w
        { w with db := w.db.resigned (named updates) } := ⟨rfl, rfl⟩
    exact ⟨.resigned (named updates), .commits hfree hdo (Or.inl rfl) (.refl _), rfl⟩

end Resign

end Garret
