import Garret.Db.Prune
import Garret.Lib.Run
import Garret.Narinfo

/-!
# Reading an object

Model of `get_object_and_last_accessed` (`crates/garret-server/src/db.rs`) and of how the Puller
runs it for a narinfo request (`crates/garret-puller/src/main.rs`). The row and its references are
two statements. The Pusher reads on the connection it writes on, so both see one state
(`getObject`). The Puller reads on its own connection, outside a transaction: each statement sees
the state committed last, and the Pusher may commit in between (`Pull.step`).

* `Pull.hit_snapshot`: when no commit between the two statements changes the references of the
  requested hash, the object served is the one some committed state stores, and it verifies if the
  stored ones do.
* `Pull.torn_read`: a delete between the two statements makes the Puller serve an object that no
  committed state holds and whose signature does not verify.
-/

namespace Garret

open Garret.Lib

/-! ## One state -/

/-- `SELECT reference … WHERE referrer = ?1 ORDER BY reference`. -/
def Db.references (db : Db) (hash : String) : List String :=
  (db.refsOf hash).insertionSort (· ≤ ·)

/-- The object stored under `hash`. -/
def Db.object? (db : Db) (hash : String) : Option Object :=
  (db.row? hash).map fun row => row.toObject hash (db.references hash)

/-- `get_object` on the connection that writes, from statement `k` on. -/
def getObject (io : Faults) (k : ℕ) (hash : String) (db : Db) : Except DbError (Option Object) := do
  statement io k
  match db.row? hash with
  | none => return none
  | some row =>
    statement io (k + 1)
    return some (row.toObject hash (db.references hash))

theorem getObject_ok {io : Faults} {k : ℕ} {hash : String} {db : Db} {o : Option Object}
    (h : getObject io k hash db = .ok o) : o = db.object? hash := by
  simp only [getObject, bind_eq_ok] at h
  obtain ⟨_, -, h⟩ := h
  cases hrow : db.row? hash with
  | none =>
    rw [hrow] at h
    simp only [pure_eq_ok] at h
    rw [Db.object?, hrow, ← h]
    rfl
  | some row =>
    rw [hrow] at h
    simp only [bind_eq_ok, pure_eq_ok] at h
    obtain ⟨_, -, rfl⟩ := h
    rw [Db.object?, hrow]
    rfl

theorem references_congr {db db' : Db} {hash : String}
    (h : (db'.refsOf hash).Perm (db.refsOf hash)) : db'.references hash = db.references hash :=
  sort_congr h

theorem references_perm (db : Db) (hash : String) :
    (db.references hash).Perm (db.refsOf hash) := List.perm_insertionSort _ _

/-! ## References after a commit -/

theorem refsOf_eq_of_refs {db db' : Db} (h : db'.objectRefs = db.objectRefs) (hash : String) :
    db'.refsOf hash = db.refsOf hash := by
  unfold Db.refsOf
  rw [h]

theorem refsOf_filter_ne {db db' : Db} {p : ObjectRef → Bool} {hash : String}
    (h : db'.objectRefs = db.objectRefs.filter p) (hp : ∀ r, r.referrer = hash → p r = true) :
    db'.refsOf hash = db.refsOf hash := by
  unfold Db.refsOf
  rw [h, List.filter_filter]
  congr 1
  refine List.filter_congr fun r _ => ?_
  by_cases hr : r.referrer = hash
  · simp [hr, hp r hr]
  · simp [hr]

theorem InsertedBy.refsOf_self {obj : Object} {now : Int} {db db' : Db}
    (h : InsertedBy obj now db db') : db'.refsOf obj.storePathHash = obj.references := by
  unfold Db.refsOf
  rw [h.refs, List.filter_append, List.filter_filter, List.filter_map]
  have h1 : db.objectRefs.filter (fun r => (r.referrer == obj.storePathHash) &&
      (r.referrer != obj.storePathHash)) = [] := by
    refine List.filter_eq_nil_iff.mpr fun r _ => ?_
    simp
  have h2 : obj.references.filter ((fun r : ObjectRef => r.referrer == obj.storePathHash) ∘
      ObjectRef.mk obj.storePathHash) = obj.references := by
    refine List.filter_eq_self.mpr fun r _ => ?_
    simp
  rw [h1, h2, List.nil_append, List.map_map]
  exact List.map_id _

theorem InsertedBy.refsOf_ne {obj : Object} {now : Int} {db db' : Db}
    (h : InsertedBy obj now db db') {hash : String} (hne : hash ≠ obj.storePathHash) :
    db'.refsOf hash = db.refsOf hash := by
  unfold Db.refsOf
  rw [h.refs, List.filter_append, List.filter_filter, List.filter_map]
  have h1 : db.objectRefs.filter (fun r => (r.referrer == hash) &&
      (r.referrer != obj.storePathHash)) = db.objectRefs.filter fun r => r.referrer == hash := by
    refine List.filter_congr fun r _ => ?_
    by_cases hr : r.referrer = hash
    · simp [hr, hne]
    · simp [hr]
  have h2 : obj.references.filter ((fun r : ObjectRef => r.referrer == hash) ∘
      ObjectRef.mk obj.storePathHash) = [] := by
    refine List.filter_eq_nil_iff.mpr fun r _ => ?_
    simpa using fun e : obj.storePathHash = hash => hne e.symm
  rw [h1, h2, List.map_nil, List.append_nil]

/-- What `get_object` returns right after a commit of `insert_object`. -/
theorem InsertedBy.object? {obj : Object} {now : Int} {db db' : Db} (h : InsertedBy obj now db db')
    {o : Object} (ho : db'.object? obj.storePathHash = some o) :
    o.SameSigned obj ∧ o.sigs = obj.sigs := by
  unfold Db.object? at ho
  rw [h.row?, if_pos rfl, Option.map_some, Option.some.injEq] at ho
  subst ho
  refine ⟨⟨rfl, rfl, rfl, ?_⟩, rfl⟩
  have := references_perm db' obj.storePathHash
  rw [h.refsOf_self] at this
  exact this

theorem objectRefs_deleteRows : ∀ (hashes : List String) (db : Db),
    (db.deleteRows hashes).objectRefs = db.objectRefs.filter fun r => decide (r.referrer ∉ hashes)
  | [], db => by simp [Db.deleteRows]
  | h :: hs, db => by
    have heq : db.deleteRows (h :: hs) = (db.deleteRow h).deleteRows hs := rfl
    rw [heq, objectRefs_deleteRows hs]
    have : (db.deleteRow h).objectRefs = db.objectRefs.filter fun r => r.referrer != h := rfl
    rw [this, List.filter_filter]
    refine List.filter_congr fun r _ => ?_
    by_cases hr : r.referrer = h <;> simp [hr]

theorem refsOf_removed_ne {db : Db} {hash k : String} {n : Int} (hne : k ≠ hash) :
    (db.removed hash n).refsOf k = db.refsOf k :=
  refsOf_filter_ne (p := fun r => r.referrer != hash) rfl (by rintro r rfl; simpa using hne)

theorem refsOf_pruned_ne {db : Db} {batch : List ObjectBrief} {k : String}
    (hne : k ∉ batch.map ObjectBrief.storePathHash) : (db.pruned batch).refsOf k = db.refsOf k :=
  refsOf_filter_ne (objectRefs_deleteRows _ db) (by rintro r rfl; simpa using hne)

theorem refsOf_updateRow (db : Db) (hash : String) (f : Row → Row) (k : String) :
    (db.updateRow hash f).refsOf k = db.refsOf k :=
  refsOf_eq_of_refs (Db.objectRefs_updateRow db hash f) k

/-! ## A narinfo request against the Pusher's commits -/

namespace Pull

/-- One commit of the Pusher. -/
inductive Commit where
  | insert (io : Faults) (obj : Object) (now : Int)
  | evict (io : Faults) (hash : String) (now : Int)
  | delete (io : Faults) (hash : String)
  | pruneBatch (io : Faults) (batch : List ObjectBrief)
  | updateSigs (updates : List (String × List String))

/-- What the commit leaves. -/
def Commit.apply (db : Db) : Commit → Db
  | .insert io obj now => (insertObject io obj now db).2
  | .evict io hash now => (evictObject io hash now db).2
  | .delete io hash => (deleteObject io hash db).2
  | .pruneBatch io batch => (deletePrunedBatch io batch db).2
  | .updateSigs updates => db.resigned updates

/-- Where a narinfo request stands. -/
inductive Pc where
  /-- Before the row is read. -/
  | row
  /-- The row was read, its references were not. -/
  | refs (row : Row)
  /-- Rendered. -/
  | hit (obj : Object) (lastAccessedAt : Int)
  | miss
  | degraded
  deriving DecidableEq

/-- A narinfo request for `hash`: the state committed last, and every state committed since the
request began, that one included. -/
structure State where
  hash : String
  db : Db
  seen : List Db
  pc : Pc

/-- A request about to start. -/
def start (hash : String) (db : Db) : State := ⟨hash, db, [db], .row⟩

/-- The Pusher commits, or the Puller runs its next statement. -/
inductive Act where
  | commit (c : Commit)
  | read (fails : Bool)

/-- One step of the two processes. -/
def step (s : State) : Act → Option State
  | .commit c => some { s with db := c.apply s.db, seen := c.apply s.db :: s.seen }
  | .read fails =>
    match s.pc with
    | .row =>
      if fails then some { s with pc := .degraded }
      else match s.db.row? s.hash with
        | none => some { s with pc := .miss }
        | some row => some { s with pc := .refs row }
    | .refs row =>
      if fails then some { s with pc := .degraded }
      else some { s with
        pc := .hit (row.toObject s.hash (s.db.references s.hash)) row.lastAccessedAt }
    | _ => none

/-- What is committed has the references of `hash` that were there before: a commit that is refused
or rolled back changes none, one that deletes the row none if it had none, and a re-push of it none
if it lists the same. -/
def KeepsRefs (db : Db) (hash : String) (c : Commit) : Prop :=
  ((c.apply db).refsOf hash).Perm (db.refsOf hash)

/-- No commit between the two statements changes the references of the requested hash. -/
def Untorn (s : State) : Act → Prop
  | .commit c => (∃ row, s.pc = .refs row) → KeepsRefs s.db s.hash c
  | .read _ => True

theorem refsOf_updates {hash : String} : ∀ (updates : List (String × List String)) (db : Db),
    (db.resigned updates).refsOf hash = db.refsOf hash
  | [], _ => rfl
  | u :: us, db => (refsOf_updates us _).trans (refsOf_updateRow db u.1 _ hash)

/-- What a request knows: between its statements, some state seen holds the row it read with the
references the database has now; once rendered, some state seen holds the object. -/
structure Inv (s : State) : Prop where
  current : s.db ∈ s.seen
  refs : ∀ row, s.pc = .refs row →
    ∃ d ∈ s.seen, d.row? s.hash = some row ∧ d.references s.hash = s.db.references s.hash
  hit : ∀ obj at', s.pc = .hit obj at' → ∃ d ∈ s.seen, d.object? s.hash = some obj

theorem inv_start (hash : String) (db : Db) : Inv (start hash db) :=
  ⟨List.mem_singleton.mpr rfl, fun _ h => absurd h (by simp [start]),
    fun _ _ h => absurd h (by simp [start])⟩

theorem step_inv {s s' : State} {a : Act} (h : Inv s) (ha : Untorn s a)
    (hs : step s a = some s') : Inv s' := by
  cases a with
  | commit c =>
    simp only [step, Option.some.injEq] at hs
    subst hs
    refine ⟨List.mem_cons_self, fun row hpc => ?_, fun obj at' hpc => ?_⟩
    · obtain ⟨d, hd, hrow, hrefs⟩ := h.refs row hpc
      have hkeep := references_congr (ha ⟨row, hpc⟩)
      exact ⟨d, List.mem_cons_of_mem _ hd, hrow, hrefs.trans hkeep.symm⟩
    · obtain ⟨d, hd, hobj⟩ := h.hit obj at' hpc
      exact ⟨d, List.mem_cons_of_mem _ hd, hobj⟩
  | read fails =>
    simp only [step] at hs
    split at hs
    · split at hs
      · obtain rfl := Option.some.inj hs
        exact ⟨h.current, by simp, by simp⟩
      · split at hs
        · obtain rfl := Option.some.inj hs
          exact ⟨h.current, by simp, by simp⟩
        · rename_i row hrow
          obtain rfl := Option.some.inj hs
          refine ⟨h.current, fun r hr => ?_, by simp⟩
          obtain rfl := Pc.refs.inj hr
          exact ⟨s.db, h.current, hrow, rfl⟩
    · rename_i row hpc
      split at hs
      · obtain rfl := Option.some.inj hs
        exact ⟨h.current, by simp, by simp⟩
      · obtain rfl := Option.some.inj hs
        refine ⟨h.current, by simp, fun obj at' ho => ?_⟩
        obtain ⟨d, hd, hrow, hrefs⟩ := h.refs row hpc
        refine ⟨d, hd, ?_⟩
        unfold Db.object?
        rw [hrow, hrefs, ← (Pc.hit.inj ho).1]
        rfl
    · exact absurd hs (by simp)

theorem hash_step {s s' : State} {a : Act} (hs : step s a = some s') : s'.hash = s.hash := by
  cases a with
  | commit c =>
    simp only [step, Option.some.injEq] at hs
    subst hs
    rfl
  | read fails =>
    simp only [step] at hs
    repeat' split at hs
    all_goals first | (obtain rfl := Option.some.inj hs; rfl) | exact absurd hs (by simp)

/-- Every object stored in one of the states carries only verifying signatures. -/
def StoredVerify (storeDir : String) (keys : List SigningKeyFile) (seen : List Db) : Prop :=
  ∀ d ∈ seen, ∀ hash obj, d.object? hash = some obj → sigsVerify obj storeDir keys = true

/-- **A served narinfo is a snapshot**, in every run in which no commit between the two statements
changes the references of the requested hash; so it verifies if what is stored does. -/
theorem hit_snapshot {hash : String} {db : Db} {s : State} {obj : Object} {lastAccessedAt : Int}
    (hr : Reach step Untorn (start hash db) s) (hpc : s.pc = .hit obj lastAccessedAt) :
    (∃ d ∈ s.seen, d.object? hash = some obj) ∧
      ∀ storeDir keys, StoredVerify storeDir keys s.seen →
        sigsVerify obj storeDir keys = true := by
  have hinv : Inv s := hr.invariant (fun _ _ _ h ha hs => step_inv h ha hs) (inv_start hash db)
  have hhash : s.hash = hash :=
    hr.invariant (I := fun t => t.hash = hash) (fun _ _ _ h _ hs => (hash_step hs).trans h) rfl
  obtain ⟨d, hd, hobj⟩ := hinv.hit obj lastAccessedAt hpc
  rw [hhash] at hobj
  exact ⟨⟨d, hd, hobj⟩, fun storeDir keys hv => hv d hd hash obj hobj⟩

/-! ## A torn read -/

/-- The hash of the object the example serves. -/
def appHash : String := "0c7qrl7qkgy1ypf0n3c8b1kz3w5hlm2d"

/-- An object with one reference, signed by `echoKey`. -/
def app : Object where
  storePathHash := appHash
  storePath := "/nix/store/" ++ appHash ++ "-app"
  name := "app"
  narHash := "sha256:0"
  narSize := 1
  fileHash := "sha256:1"
  fileSize := 1
  deriver := none
  ca := none
  references := ["1b9p07z77phvv2hf6gm9f28syp39f1ag-lib"]
  sigs := [echoKey.sign ("1;/nix/store/0c7qrl7qkgy1ypf0n3c8b1kz3w5hlm2d-app;sha256:0;1;" ++
    "/nix/store/1b9p07z77phvv2hf6gm9f28syp39f1ag-lib")]
  pushedBy := none

/-- The database after `app` was pushed. -/
def appDb : Db := (insertObject noFaults app 0 Db.empty).2

/-- The database after `app` was deleted again. -/
def goneDb : Db := (deleteObject noFaults appHash appDb).2

/-- What the Puller renders from the row of `app` and no references. -/
def tornApp : Object := { app with references := [] }

theorem app_stored : InsertedBy app 0 Db.empty appDb := by
  rcases insertObject_cases (rfl : insertObject noFaults app 0 Db.empty = (.ok (), appDb)) with
    ⟨-, hi⟩ | ⟨⟨e, he⟩, -⟩
  · exact hi
  · exact absurd he (by simp)

theorem goneDb_row (k : String) : goneDb.row? k = none := by
  have heq : goneDb = appDb.removed appHash 1 := rfl
  rw [heq, row?_removed, app_stored.row?]
  split
  · rfl
  · rename_i hne
    exact if_neg hne

theorem app_verifies : StoredVerify "/nix/store" [echoKey] [goneDb, appDb] := by
  intro d hd hash obj ho
  obtain ⟨row, hrow, -⟩ := Option.map_eq_some_iff.mp ho
  simp only [List.mem_cons, List.not_mem_nil, or_false] at hd
  rcases hd with rfl | rfl
  · rw [goneDb_row] at hrow
    exact absurd hrow (by simp)
  · rw [app_stored.row?] at hrow
    split at hrow
    · rename_i hk
      subst hk
      obtain ⟨hsame, hsigs⟩ := app_stored.object? ho
      exact (sigsVerify_sign (show sign app _ _ = .ok app.sigs by decide)
        (fingerprint_congr hsame _) hsigs).1
    · exact absurd hrow (by simp)

/-- **A delete between the two statements is served**: the row with no references. No committed
state holds that object, and its signature does not verify, though every stored one does. -/
theorem torn_read : ∃ s, Reach step (fun _ _ => True) (start appHash appDb) s ∧
    s.pc = .hit tornApp 0 ∧ (∀ d ∈ s.seen, d.object? appHash ≠ some tornApp) ∧
    StoredVerify "/nix/store" [echoKey] s.seen ∧
    sigsVerify tornApp "/nix/store" [echoKey] = false := by
  refine ⟨⟨appHash, goneDb, [goneDb, appDb], .hit tornApp 0⟩, ?_, rfl, ?_, app_verifies, ?_⟩
  · have h₁ : Reach step (fun _ _ => True) (start appHash appDb)
        ⟨appHash, appDb, [appDb], .refs (app.toRow 0)⟩ :=
      (Reach.refl _).tail (a := .read false) trivial rfl
    have h₂ := h₁.tail (a := .commit (.delete noFaults appHash)) trivial rfl
    exact h₂.tail (a := .read false) trivial rfl
  · intro d hd
    simp only [List.mem_cons, List.not_mem_nil, or_false] at hd
    rcases hd with rfl | rfl
    · decide +kernel
    · decide +kernel
  · decide +kernel

instance (db : Db) (hash : String) (c : Commit) : Decidable (KeepsRefs db hash c) :=
  inferInstanceAs (Decidable (List.Perm _ _))

/-- With a re-push of the same object in between, the object is served as stored. -/
theorem hit_snapshot_repush : ∃ s, Reach step Untorn (start appHash appDb) s ∧
    s.pc = .hit app 0 ∧ ∃ d ∈ s.seen, d.object? appHash = some app := by
  have hr : Reach step Untorn (start appHash appDb) ⟨appHash, (insertObject noFaults app 5 appDb).2,
      [(insertObject noFaults app 5 appDb).2, appDb], .hit app 0⟩ := by
    have h₁ : Reach step Untorn (start appHash appDb) ⟨appHash, appDb, [appDb], .refs (app.toRow 0)⟩ :=
      (Reach.refl _).tail (a := .read false) trivial rfl
    have hkeep : KeepsRefs appDb appHash (.insert noFaults app 5) := by decide +kernel
    have hok : Untorn ⟨appHash, appDb, [appDb], .refs (app.toRow 0)⟩
        (.commit (.insert noFaults app 5)) := fun _ => hkeep
    have h₂ := h₁.tail hok rfl
    exact h₂.tail (a := .read false) trivial rfl
  exact ⟨_, hr, rfl, (hit_snapshot hr rfl).1⟩

end Pull

end Garret
