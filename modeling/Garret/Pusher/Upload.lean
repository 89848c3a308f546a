import Garret.Pusher.Effect

/-!
# The upload handler

Model of `upload` and `store_upload` (`crates/garret-pusher/src/main.rs`) as a task. The claim is
taken after the first check and released when the handler returns or is dropped, except that the
insert takes it along: a dropped handler leaves the insert running with its claim
(`insert … false`). The timestamp of the row is taken before the insert waits for the connection.

`step_effect` is what one step does to the shared state; `step_absent` and `step_object` are what the
handler knows about its own path.
-/

namespace Garret

open Garret.Lib

/-- What the client is told. -/
inductive Reply where
  | created
  | exists
  | inProgress
  /-- 429, with `Retry-After`. -/
  | shed
  /-- 503, with `Retry-After`. -/
  | retry (message : String)
  | failed (e : UploadError)
  /-- A database call failed: 500. -/
  | internal (e : DbError)
  /-- The handler was dropped. -/
  | dropped
  deriving DecidableEq, Repr

/-- The client is told that the path is stored. -/
def Reply.acks : Reply → Bool
  | .created => true
  | .exists => true
  | _ => false

/-- Where an upload stands, between two awaits. -/
inductive Upload where
  | start (hash subject : String)
  /-- Before the first `already_stored`. -/
  | check (hash subject : String)
  | claim (hash subject : String)
  /-- Claimed, before the second `already_stored`. -/
  | recheck (hash subject : String)
  /-- About to run `store_upload`. -/
  | store (hash subject : String)
  /-- The transfer ended. -/
  | stored (hash : String) (result : Except UploadError Object)
  /-- The insert waits for the connection; `attached` while the handler waits for it. -/
  | insert (hash : String) (obj : Object) (at' : Int) (attached : Bool)
  | done (hash : String) (reply : Reply)

/-- The answer while the gate is shut (`quiescing`). -/
def quiescing : Reply := .retry "cache is quiescing for fsck --repair --quiesce"

namespace Upload

/-- The path an upload is for. -/
def hash : Upload → String
  | start hash _ => hash
  | check hash _ => hash
  | claim hash _ => hash
  | recheck hash _ => hash
  | store hash _ => hash
  | stored hash _ => hash
  | insert hash _ _ _ => hash
  | done hash _ => hash

/-- The handler has answered that the path is stored. -/
def acked : Upload → Bool
  | done _ reply => reply.acks
  | _ => false

/-- The claims an upload holds. -/
def holds : Upload → List (String × Kind)
  | recheck hash _ => [(hash, .upload)]
  | store hash _ => [(hash, .upload)]
  | stored hash _ => [(hash, .upload)]
  | insert hash _ _ _ => [(hash, .upload)]
  | _ => []

/-- The hashes an upload relies on having no row: its own, from the second check on. -/
def absent : Upload → List String
  | store hash _ => [hash]
  | stored hash _ => [hash]
  | insert hash _ _ _ => [hash]
  | _ => []

/-- The object an upload is going to insert, under the hash it holds. -/
def object? : Upload → Option (String × Object)
  | stored hash (.ok obj) => some (hash, obj)
  | insert hash obj _ _ => some (hash, obj)
  | _ => none

variable {δ : Type} (env : Env δ)

/-- One step of the handler. -/
def step (me : ℕ) (w : World) (o : Oracle) : Upload → Option (World × Upload)
  | start hash subject =>
    if w.inFlight.isQuiescing then some (w, done hash quiescing)
    else if isStoreHash hash then some (w, check hash subject)
    else some (w, done hash (.failed (.refused (hash.quote ++ " is not a store path hash"))))
  | check hash subject =>
    if w.free me then
      match existsRow o.io 0 hash w.db with
      | .error e => some (w, done hash (.internal e))
      | .ok true => some (w, done hash .exists)
      | .ok false => some (w, claim hash subject)
    else none
  | claim hash subject =>
    if o.shed then some (w, done hash .shed)
    else match w.inFlight.claim hash with
      | .ok f => some ({ w with inFlight := f }, recheck hash subject)
      | .error .uploading => some (w, done hash .inProgress)
      | .error .deleting => some (w, done hash (.retry "this path is being deleted; retry"))
      | .error .quiescing => some (w, done hash quiescing)
  | recheck hash subject =>
    if w.free me then
      match existsRow o.io 0 hash w.db with
      | .error e => some (w.release [hash], done hash (.internal e))
      | .ok true => some (w.release [hash], done hash .exists)
      | .ok false => some (w, store hash subject)
    else none
  | store hash subject =>
    let moved := transfer env.toServer hash subject o.transfer
    some (w.putBlob hash moved.visible, stored hash moved.result)
  | stored hash (.error e) => some (w.release [hash], done hash (.failed e))
  | stored hash (.ok obj) => some (w, insert hash obj w.clock true)
  | insert hash obj at' attached =>
    if w.free me then
      match insertObject o.io obj at' w.db with
      | (.ok (), db) =>
        some ({ w with db := db }.release [hash],
          done hash (if attached then .created else .dropped))
      | (.error e, db) =>
        some ({ w with db := db }.release [hash],
          done hash (if attached then .internal e else .dropped))
    else none
  | done _ _ => none

/-- The handler's future is dropped. -/
def drop (w : World) : Upload → Option (World × Upload)
  | start hash _ => some (w, done hash .dropped)
  | check hash _ => some (w, done hash .dropped)
  | claim hash _ => some (w, done hash .dropped)
  | recheck hash _ => some (w.release [hash], done hash .dropped)
  | store hash _ => some (w.release [hash], done hash .dropped)
  | stored hash _ => some (w.release [hash], done hash .dropped)
  | insert hash obj at' _ => some (w, insert hash obj at' false)
  | done _ _ => none

/-! ## What a step does, and what the handler knows -/

/-- The steps of an upload, one constructor each. -/
inductive Stepped (me : ℕ) (w : World) (o : Oracle) : Upload → World → Upload → Prop
  /-- The handler answers, and held nothing. -/
  | quit {u : Upload} {r : Reply} (hu : u.holds = [])
    (hr : r.acks = true → ∃ row, w.row? u.hash = some row) : Stepped me w o u w (done u.hash r)
  | admitted {hash subject : String} : Stepped me w o (start hash subject) w (check hash subject)
  | missed {hash subject : String} : Stepped me w o (check hash subject) w (claim hash subject)
  | claimed {hash subject : String} {f : InFlight} (hf : w.inFlight.take hash .upload = .ok f) :
    Stepped me w o (claim hash subject) { w with inFlight := f } (recheck hash subject)
  /-- The handler answers, and its claim is dropped. -/
  | left {u : Upload} {r : Reply} (hu : u.holds = [(u.hash, .upload)])
    (hr : r.acks = true → ∃ row, w.row? u.hash = some row) :
    Stepped me w o u (w.release [u.hash]) (done u.hash r)
  | rechecked {hash subject : String} (hrow : w.row? hash = none) :
    Stepped me w o (recheck hash subject) w (store hash subject)
  | transferred {hash subject : String} :
    Stepped me w o (store hash subject)
      (w.putBlob hash (transfer env.toServer hash subject o.transfer).visible)
      (stored hash (transfer env.toServer hash subject o.transfer).result)
  | stamped {hash : String} {obj : Object} :
    Stepped me w o (stored hash (.ok obj)) w (insert hash obj w.clock true)
  | inserted {hash : String} {obj : Object} {at' : Int} {attached : Bool} {db : Db} {r : Reply}
    (hfree : w.free me) (hi : InsertedBy obj at' w.db db) :
    Stepped me w o (insert hash obj at' attached) ({ w with db := db }.release [hash]) (done hash r)

variable {env} {me : ℕ} {w w' : World} {o : Oracle} {u u' : Upload}

theorem step_cases (h : u.step env me w o = some (w', u')) : Stepped env me w o u w' u' := by
  cases u with
  | start hash subject =>
    simp only [step] at h
    split at h
    · obtain ⟨rfl, rfl⟩ := Prod.mk.inj (Option.some.inj h)
      exact .quit rfl fun h => absurd h Bool.false_ne_true
    · split at h
      · obtain ⟨rfl, rfl⟩ := Prod.mk.inj (Option.some.inj h)
        exact .admitted
      · obtain ⟨rfl, rfl⟩ := Prod.mk.inj (Option.some.inj h)
        exact .quit rfl fun h => absurd h Bool.false_ne_true
  | check hash subject =>
    simp only [step] at h
    split at h
    · split at h
      · obtain ⟨rfl, rfl⟩ := Prod.mk.inj (Option.some.inj h)
        exact .quit rfl fun h => absurd h Bool.false_ne_true
      · rename_i hex
        obtain ⟨rfl, rfl⟩ := Prod.mk.inj (Option.some.inj h)
        exact .quit rfl fun _ => existsRow_true hex
      · obtain ⟨rfl, rfl⟩ := Prod.mk.inj (Option.some.inj h)
        exact .missed
    · exact absurd h (by simp)
  | claim hash subject =>
    simp only [step] at h
    split at h
    · obtain ⟨rfl, rfl⟩ := Prod.mk.inj (Option.some.inj h)
      exact .quit rfl fun h => absurd h Bool.false_ne_true
    · split at h
      · rename_i f hf
        obtain ⟨rfl, rfl⟩ := Prod.mk.inj (Option.some.inj h)
        exact .claimed (InFlight.claim_ok hf)
      all_goals
        obtain ⟨rfl, rfl⟩ := Prod.mk.inj (Option.some.inj h)
        exact .quit rfl fun h => absurd h Bool.false_ne_true
  | recheck hash subject =>
    simp only [step] at h
    split at h
    · split at h
      · obtain ⟨rfl, rfl⟩ := Prod.mk.inj (Option.some.inj h)
        exact .left rfl fun h => absurd h Bool.false_ne_true
      · rename_i hex
        obtain ⟨rfl, rfl⟩ := Prod.mk.inj (Option.some.inj h)
        exact .left rfl fun _ => existsRow_true hex
      · rename_i hex
        obtain ⟨rfl, rfl⟩ := Prod.mk.inj (Option.some.inj h)
        exact .rechecked (existsRow_false hex)
    · exact absurd h (by simp)
  | store hash subject =>
    simp only [step] at h
    obtain ⟨rfl, rfl⟩ := Prod.mk.inj (Option.some.inj h)
    exact .transferred
  | stored hash result =>
    cases result with
    | error e =>
      simp only [step] at h
      obtain ⟨rfl, rfl⟩ := Prod.mk.inj (Option.some.inj h)
      exact .left rfl fun h => absurd h Bool.false_ne_true
    | ok obj =>
      simp only [step] at h
      obtain ⟨rfl, rfl⟩ := Prod.mk.inj (Option.some.inj h)
      exact .stamped
  | insert hash obj at' attached =>
    simp only [step] at h
    split at h
    · rename_i hfree
      split at h
      · rename_i db hi
        obtain ⟨rfl, rfl⟩ := Prod.mk.inj (Option.some.inj h)
        rcases insertObject_cases hi with ⟨-, hins⟩ | ⟨⟨e, he⟩, -⟩
        · exact .inserted hfree hins
        · exact absurd he (by simp)
      · rename_i e db hi
        obtain ⟨rfl, rfl⟩ := Prod.mk.inj (Option.some.inj h)
        rcases insertObject_cases hi with ⟨he, -⟩ | ⟨-, rfl⟩
        · exact absurd he (by simp)
        · exact .left rfl (by cases attached <;> simp [Reply.acks])
    · exact absurd h (by simp)
  | done hash reply => exact absurd h (by simp [step])

/-- A dropped handler gives its claim back, unless the insert has it. -/
theorem drop_cases (h : u.drop w = some (w', u')) :
    (u.holds = [] ∧ w' = w ∧ ∃ hash, u' = done hash .dropped) ∨
    (∃ hash, u.holds = [(hash, .upload)] ∧ w' = w.release [hash] ∧ u' = done hash .dropped) ∨
    ∃ hash obj at' attached, u = insert hash obj at' attached ∧ w' = w ∧
      u' = insert hash obj at' false := by
  cases u with
  | done hash reply => exact absurd h (by simp [drop])
  | insert hash obj at' attached =>
    obtain ⟨rfl, rfl⟩ := Prod.mk.inj (Option.some.inj h)
    exact Or.inr (Or.inr ⟨hash, obj, at', attached, rfl, rfl, rfl⟩)
  | start hash subject =>
    obtain ⟨rfl, rfl⟩ := Prod.mk.inj (Option.some.inj h)
    exact Or.inl ⟨rfl, rfl, hash, rfl⟩
  | check hash subject =>
    obtain ⟨rfl, rfl⟩ := Prod.mk.inj (Option.some.inj h)
    exact Or.inl ⟨rfl, rfl, hash, rfl⟩
  | claim hash subject =>
    obtain ⟨rfl, rfl⟩ := Prod.mk.inj (Option.some.inj h)
    exact Or.inl ⟨rfl, rfl, hash, rfl⟩
  | recheck hash subject =>
    obtain ⟨rfl, rfl⟩ := Prod.mk.inj (Option.some.inj h)
    exact Or.inr (Or.inl ⟨hash, rfl, rfl, rfl⟩)
  | store hash subject =>
    obtain ⟨rfl, rfl⟩ := Prod.mk.inj (Option.some.inj h)
    exact Or.inr (Or.inl ⟨hash, rfl, rfl, rfl⟩)
  | stored hash result =>
    obtain ⟨rfl, rfl⟩ := Prod.mk.inj (Option.some.inj h)
    exact Or.inr (Or.inl ⟨hash, rfl, rfl, rfl⟩)

/-- The effects an upload's next step may have. -/
def Allows (u : Upload) : Effect → Prop
  | .quiet => True
  | .inserted obj at' => ∃ hash attached, u = insert hash obj at' attached
  | .put hash _ => ∃ subject, u = store hash subject
  | _ => False

theorem step_effect (h : Stepped env me w o u w' u') :
    ∃ e, Step me w w' u.holds u'.holds e ∧ u.Allows e := by
  cases h with
  | quit hu hr => exact ⟨.quiet, .stay (by rw [hu]; exact .refl _), trivial⟩
  | admitted => exact ⟨.quiet, .stay (.refl _), trivial⟩
  | missed => exact ⟨.quiet, .stay (.refl _), trivial⟩
  | claimed hf => exact ⟨.quiet, .takes hf (.refl _), trivial⟩
  | left hu hr => exact ⟨.quiet, (Step.stay (.refl _)).dropOne rfl (by rw [hu]; exact .refl _), trivial⟩
  | rechecked hrow => exact ⟨.quiet, .stay (.refl _), trivial⟩
  | @transferred hash subject =>
    cases (transfer env.toServer hash subject o.transfer).visible with
    | none => exact ⟨.quiet, .stay (.refl _), trivial⟩
    | some blob =>
      exact ⟨.put hash blob, ⟨⟨rfl, rfl⟩, fun hH => Move.same hH (.refl _), rfl,
        Or.inr ⟨rfl, rfl⟩, Or.inl rfl⟩, subject, rfl⟩
  | stamped => exact ⟨.quiet, .stay (.refl _), trivial⟩
  | @inserted hash obj at' attached db r hfree hi =>
    have hd : (Effect.inserted obj at').Does w { w with db := db } := ⟨hi, rfl⟩
    exact ⟨.inserted obj at', (Step.commits hfree hd (Or.inl rfl) (.refl _)).dropOne rfl (.refl _),
      hash, attached, rfl⟩

theorem drop_effect (h : u.drop w = some (w', u')) :
    Step me w w' u.holds u'.holds .quiet := by
  rcases drop_cases h with ⟨hu, rfl, hash, rfl⟩ | ⟨hash, hu, rfl, rfl⟩ |
    ⟨hash, obj, at', attached, rfl, rfl, rfl⟩
  · exact .stay (by rw [hu]; exact .refl _)
  · exact (Step.stay (.refl _)).dropOne rfl (by rw [hu]; exact .refl _)
  · exact .stay (.refl _)

/-- From the second check on, the handler knows that its path has no row. -/
theorem step_absent (h : Stepped env me w o u w' u')
    (habs : ∀ k ∈ u.absent, w.row? k = none) : ∀ k ∈ u'.absent, w'.row? k = none := by
  cases h with
  | quit hu hr => simp [absent]
  | admitted => simp [absent]
  | missed => simp [absent]
  | claimed hf => simp [absent]
  | left hu hr => simp [absent]
  | rechecked hrow =>
    intro k hk
    rw [List.mem_singleton.mp hk]
    exact hrow
  | transferred =>
    intro k hk
    unfold World.row?
    rw [World.putBlob_db]
    exact habs k hk
  | stamped => exact habs
  | inserted hfree hi => simp [absent]

/-- What an upload is going to insert: an object of its own path, signed by every key. -/
structure Prepared (env : Env δ) (hash : String) (obj : Object) : Prop where
  hash : obj.storePathHash = hash
  named : obj.storePathHash ≠ ""
  signed : sign obj env.storeDir env.keys = .ok obj.sigs

/-- `blob` has the digest and the length a row or an object names. -/
def Backs (env : Env δ) (blob : Bytes) (fileHash : String) (fileSize : Int) : Prop :=
  fileHash = sha256Nix32 (env.sha256 blob) ∧ fileSize = blob.length

/-- The object to insert comes from the transfer, which stored its blob, and stays the same. -/
theorem step_object (h : Stepped env me w o u w' u') {hash : String} {obj : Object}
    (ho : u'.object? = some (hash, obj)) :
    (u.object? = some (hash, obj) ∧ w'.bucket = w.bucket) ∨
    ((∃ subject, u = store hash subject) ∧ Prepared env hash obj ∧
      ∃ blob, w'.blob? hash = some blob ∧ Backs env blob obj.fileHash obj.fileSize) := by
  cases h with
  | @transferred k subject =>
    cases hres : (transfer env.toServer k subject o.transfer).result with
    | error e =>
      rw [hres] at ho
      exact absurd ho (by simp [object?])
    | ok signed =>
      rw [hres] at ho
      obtain ⟨rfl, rfl⟩ := Prod.mk.inj (Option.some.inj ho)
      obtain ⟨blob, preamble, object, hvis, -, hclaim, heq, hsigs⟩ :=
        (transfer_sound k subject o.transfer).signed signed hres
      have hhash : signed.storePathHash = k := by
        rw [heq]
        exact (buildObject_ok hclaim.built).1
      have hnamed : signed.storePathHash ≠ "" := by
        rw [hhash]
        exact buildObject_named hclaim.built
      refine Or.inr ⟨⟨subject, rfl⟩, ⟨hhash, hnamed, hsigs⟩, blob, ?_, ?_⟩
      · rw [hvis]
        exact World.blob?_putBlob_self
      · exact ⟨by rw [heq], by rw [heq]⟩
  | stamped => exact Or.inl ⟨ho, rfl⟩
  | quit hu hr => exact absurd ho (by simp [object?])
  | admitted => exact absurd ho (by simp [object?])
  | missed => exact absurd ho (by simp [object?])
  | claimed hf => exact absurd ho (by simp [object?])
  | left hu hr => exact absurd ho (by simp [object?])
  | rechecked hrow => exact absurd ho (by simp [object?])
  | inserted hfree hi => exact absurd ho (by simp [object?])

/-! ## What the client is told -/

theorem step_hash (h : Stepped env me w o u w' u') : u'.hash = u.hash := by
  cases h <;> rfl

theorem drop_hash (h : u.drop w = some (w', u')) : u'.hash = u.hash ∧ u'.acked = false := by
  cases u with
  | done hash reply => exact absurd h (by simp [drop])
  | _ =>
    obtain ⟨-, rfl⟩ := Prod.mk.inj (Option.some.inj h)
    exact ⟨rfl, rfl⟩

/-- **An upload that is acknowledged has a row.** -/
theorem step_acked (h : Stepped env me w o u w' u')
    (hobj : ∀ hash obj, u.object? = some (hash, obj) → obj.storePathHash = hash)
    (ha : u'.acked = true) : ∃ row, w'.row? u'.hash = some row := by
  cases h with
  | quit hu hr => exact hr ha
  | left hu hr => exact hr ha
  | @inserted hash obj at' attached db r hfree hi =>
    refine ⟨obj.toRow at', ?_⟩
    change db.row? hash = _
    rw [hi.row?, if_pos (hobj hash obj rfl).symm]
  | _ => exact absurd ha (by simp [acked])

end Upload

end Garret
