import Garret.Db.Read
import Garret.Pusher.World

/-!
# What a step can do

Every step of the Pusher has one `Effect` on the shared state: it commits one transaction, makes one
blob visible, deletes blobs, or does none of these. `Effect.Does e w w'` says what the effect leaves;
`Step` adds the claims the task gains and gives up and the connection it keeps. Each task shows once
which effects its steps have, and every invariant is derived from that.

* `Effect.row_cases`: what an effect does to one row; `Effect.object_cases`: to one stored object.
* `Effect.blob_cases`: what it does to one blob.
-/

namespace Garret

open Garret.Lib

/-- What one step does to the database and the bucket. -/
inductive Effect where
  /-- Nothing. -/
  | quiet
  /-- The counter is rewritten. -/
  | total
  | inserted (obj : Object) (at' : Int)
  | removed (hash : String) (row : Row)
  | pruned (batch : List ObjectBrief)
  | resigned (updates : List (String × List String))
  /-- A Negotiation at `now` for `hashes`, answered with those missing. -/
  | negotiated (hashes missing : List String) (now : Int)
  /-- Last-accessed times are moved. -/
  | bumped
  /-- A pin is set or dropped. -/
  | pins
  | put (hash : String) (blob : Bytes)
  | unlinked (keys : List String)

/-- Two rows of one object: they differ at most in access and push times and in signatures. -/
def Row.Kin (a b : Row) : Prop :=
  b = { a with lastAccessedAt := b.lastAccessedAt, pushedAt := b.pushedAt, sigs := b.sigs }

namespace Effect

/-- What a commit leaves, for the effects on the database. -/
def Commits (e : Effect) (db db' : Db) : Prop :=
  match e with
  | .total => ∃ n, db' = db.setTotal n
  | .inserted obj at' => InsertedBy obj at' db db'
  | .removed hash row => db.row? hash = some row ∧ db' = db.removed hash row.fileSize
  | .pruned batch => db' = db.pruned batch
  | .resigned updates => db' = db.resigned updates
  | .negotiated hashes ms now => ms = hashes.filter (fun h => (db.row? h).isNone) ∧
      Touched now db db' ∧
      ∀ x ∈ hashes, x ∉ ms → ∃ row, db'.row? x = some row ∧ now - pushedAtDebounce ≤ row.pushedAt
  | .bumped => db'.objectRefs = db.objectRefs ∧ db'.pins = db.pins ∧
      ∀ k, db'.row? k = db.row? k ∨
        ∃ a b, db.row? k = some a ∧ db'.row? k = some b ∧ a.SameButAccess b
  | .pins => db'.objects = db.objects ∧ db'.objectRefs = db.objectRefs
  | _ => db' = db

/-- What a request leaves, for the effects on the bucket. -/
def Stores (e : Effect) (bucket : Table String Bytes) : Table String Bytes :=
  match e with
  | .put hash blob => bucket.insert (keyFor hash) blob
  | .unlinked keys => Table.eraseAll bucket keys
  | _ => bucket

/-- What an effect leaves of the database and the bucket. -/
structure Does (e : Effect) (w w' : World) : Prop where
  db : e.Commits w.db w'.db
  bucket : w'.bucket = e.Stores w.bucket

/-- The effect deletes the row of `hash`. -/
def Removes (e : Effect) (hash : String) : Prop :=
  match e with
  | .removed h _ => h = hash
  | .pruned batch => hash ∈ batch.map ObjectBrief.storePathHash
  | _ => False

theorem Does.quiet {w w' : World} (hdb : w'.db = w.db) (hb : w'.bucket = w.bucket) :
    Effect.quiet.Does w w' := ⟨hdb, hb⟩

/-- A row is left alone, or gets the signatures one update of it names. -/
theorem row?_updates {k : String} : ∀ (updates : List (String × List String)) (db : Db),
    (db.resigned updates).row? k = db.row? k ∨
      ∃ u ∈ updates, u.1 = k ∧ ∃ row, db.row? k = some row ∧
        (db.resigned updates).row? k = some { row with sigs := u.2 }
  | [], _ => Or.inl rfl
  | u :: us, db => by
    have hrow : (db.updateSigs u.1 u.2).row? k =
        if k = u.1 then (db.row? k).map fun row => { row with sigs := u.2 } else db.row? k :=
      Db.row?_updateRow db u.1 _ k
    rw [show db.resigned (u :: us) = (db.updateSigs u.1 u.2).resigned us from rfl]
    by_cases hk : k = u.1
    · rw [if_pos hk] at hrow
      cases hold : db.row? k with
      | none =>
        rw [hold, Option.map_none] at hrow
        rcases row?_updates us (db.updateSigs u.1 u.2) with h | ⟨_, -, -, _, ha, -⟩
        · exact Or.inl (h.trans hrow)
        · rw [hrow] at ha
          exact absurd ha (by simp)
      | some row =>
        rw [hold, Option.map_some] at hrow
        right
        rcases row?_updates us (db.updateSigs u.1 u.2) with h | ⟨v, hv, hvk, a, ha, hb⟩
        · exact ⟨u, List.mem_cons_self, hk.symm, row, rfl, h.trans hrow⟩
        · obtain rfl := Option.some.inj (hrow.symm.trans ha)
          exact ⟨v, List.mem_cons_of_mem _ hv, hvk, row, rfl, hb⟩
    · rw [if_neg hk] at hrow
      rcases row?_updates us (db.updateSigs u.1 u.2) with h | ⟨v, hv, hvk, a, ha, hb⟩
      · exact Or.inl (h.trans hrow)
      · exact Or.inr ⟨v, List.mem_cons_of_mem _ hv, hvk, a, hrow.symm.trans ha, hb⟩

/-- **What an effect does to one row**: nothing, its removal, its insertion, or a change of times
and signatures. -/
theorem Does.row_cases {e : Effect} {w w' : World} (h : e.Does w w') (k : String) :
    w'.row? k = w.row? k ∨ (e.Removes k ∧ w'.row? k = none) ∨
    (∃ obj at', e = .inserted obj at' ∧ k = obj.storePathHash ∧
      w'.row? k = some (obj.toRow at')) ∨
    ∃ a b, w.row? k = some a ∧ w'.row? k = some b ∧ a.Kin b ∧
      (a.pushedAt = b.pushedAt ∨ ∃ hashes ms now, e = .negotiated hashes ms now ∧
        a.pushedAt < now - pushedAtDebounce ∧ b.pushedAt = now) := by
  have hdb := h.db
  unfold World.row?
  cases e with
  | quiet => exact Or.inl (by rw [show w'.db = w.db from hdb])
  | total =>
    obtain ⟨n, hn⟩ := hdb
    exact Or.inl (by rw [hn]; rfl)
  | inserted obj at' =>
    have hi : InsertedBy obj at' w.db w'.db := hdb
    rw [hi.row?]
    by_cases hk : k = obj.storePathHash
    · exact Or.inr (Or.inr (Or.inl ⟨obj, at', rfl, hk, by rw [if_pos hk]⟩))
    · exact Or.inl (if_neg hk)
  | removed hash row =>
    obtain ⟨-, heq⟩ := hdb
    rw [heq, row?_removed]
    by_cases hk : k = hash
    · exact Or.inr (Or.inl ⟨hk.symm, if_pos hk⟩)
    · exact Or.inl (if_neg hk)
  | pruned batch =>
    have heq : w'.db = w.db.pruned batch := hdb
    rw [heq, row?_pruned]
    by_cases hk : k ∈ batch.map ObjectBrief.storePathHash
    · exact Or.inr (Or.inl ⟨hk, if_pos hk⟩)
    · exact Or.inl (if_neg hk)
  | resigned updates =>
    rw [show w'.db = _ from hdb]
    rcases row?_updates updates w.db with heq | ⟨u, -, -, row, hrow, hnew⟩
    · exact Or.inl heq
    · exact Or.inr (Or.inr (Or.inr ⟨row, _, hrow, hnew, rfl, Or.inl rfl⟩))
  | negotiated hashes ms now =>
    obtain ⟨-, ht, -⟩ := hdb
    rcases ht.rows k with heq | ⟨row, hrow, hlt, hnew⟩
    · exact Or.inl heq
    · exact Or.inr (Or.inr (Or.inr ⟨row, _, hrow, hnew, rfl,
        Or.inr ⟨hashes, ms, now, rfl, hlt, rfl⟩⟩))
  | bumped =>
    obtain ⟨-, -, hrows⟩ := hdb
    rcases hrows k with heq | ⟨a, b, ha, hb, hab⟩
    · exact Or.inl heq
    · refine Or.inr (Or.inr (Or.inr ⟨a, b, ha, hb, ?_, Or.inl ?_⟩))
      · unfold Row.Kin
        rw [hab]
      · rw [hab]
  | pins => exact Or.inl (by unfold Db.row?; rw [hdb.1])
  | put hash blob => exact Or.inl (by rw [show w'.db = w.db from hdb])
  | unlinked keys => exact Or.inl (by rw [show w'.db = w.db from hdb])

/-- A row that was not there is there after an insert only. -/
theorem Does.row_new {e : Effect} {w w' : World} (h : e.Does w w') {k : String} {row : Row}
    (hnone : w.row? k = none) (hrow : w'.row? k = some row) :
    ∃ obj at', e = .inserted obj at' ∧ k = obj.storePathHash ∧ row = obj.toRow at' := by
  rcases h.row_cases k with heq | ⟨-, hgone⟩ | ⟨obj, at', he, hk, hnew⟩ | ⟨a, b, ha, -⟩
  · rw [heq, hnone] at hrow
    exact absurd hrow (by simp)
  · rw [hgone] at hrow
    exact absurd hrow (by simp)
  · rw [hnew] at hrow
    exact ⟨obj, at', he, hk, (Option.some.inj hrow).symm⟩
  · rw [hnone] at ha
    exact absurd ha (by simp)

theorem objectRefs_resigned : ∀ (updates : List (String × List String)) (db : Db),
    (db.resigned updates).objectRefs = db.objectRefs
  | [], _ => rfl
  | u :: us, db => (objectRefs_resigned us _).trans (Db.objectRefs_updateRow db u.1 _)

/-- A reference was there before, or its referrer has just been inserted. -/
theorem Does.refs_cases {e : Effect} {w w' : World} (h : e.Does w w') {x : ObjectRef}
    (hx : x ∈ w'.db.objectRefs) :
    x ∈ w.db.objectRefs ∨ ∃ obj at', e = .inserted obj at' ∧ x.referrer = obj.storePathHash := by
  have hdb := h.db
  cases e with
  | inserted obj at' =>
    rw [InsertedBy.refs hdb] at hx
    rcases List.mem_append.mp hx with hx | hx
    · exact Or.inl (List.mem_filter.mp hx).1
    · obtain ⟨r, -, rfl⟩ := List.mem_map.mp hx
      exact Or.inr ⟨obj, at', rfl, rfl⟩
  | total =>
    obtain ⟨n, hn⟩ := hdb
    rw [hn] at hx
    exact Or.inl hx
  | removed hash row =>
    rw [hdb.2] at hx
    exact Or.inl (Db.mem_refs_deleteRow.mp hx).1
  | pruned batch =>
    rw [show w'.db = w.db.pruned batch from hdb] at hx
    exact Or.inl (mem_refs_pruned.mp hx).1
  | resigned updates =>
    rw [show w'.db = w.db.resigned updates from hdb, objectRefs_resigned] at hx
    exact Or.inl hx
  | negotiated hashes ms now => exact Or.inl (hdb.2.1.refs ▸ hx)
  | bumped => exact Or.inl (hdb.1 ▸ hx)
  | pins => exact Or.inl (hdb.2 ▸ hx)
  | quiet => exact Or.inl ((show w'.db = w.db from hdb) ▸ hx)
  | put hash blob => exact Or.inl ((show w'.db = w.db from hdb) ▸ hx)
  | unlinked keys => exact Or.inl ((show w'.db = w.db from hdb) ▸ hx)

theorem object?_congr {db db' : Db} {k : String} (hrow : db'.row? k = db.row? k)
    (hrefs : db'.refsOf k = db.refsOf k) : db'.object? k = db.object? k := by
  unfold Db.object? Db.references
  rw [hrow, hrefs]

/-- **What an effect does to one stored object**: nothing, its removal, its insertion, or new
signatures. -/
theorem Does.object_cases {e : Effect} {w w' : World} (h : e.Does w w') (k : String) :
    w'.db.object? k = w.db.object? k ∨ w'.db.object? k = none ∨
    (∃ obj at' o, e = .inserted obj at' ∧ w'.db.object? k = some o ∧ o.SameSigned obj ∧
      o.sigs = obj.sigs) ∨
    ∃ updates, e = .resigned updates ∧ ∃ u ∈ updates, u.1 = k ∧ ∃ o, w.db.object? k = some o ∧
      w'.db.object? k = some { o with sigs := u.2 } := by
  have hdb := h.db
  have hgone : w'.db.row? k = none → w'.db.object? k = none := fun hnone => by
    rw [Db.object?, hnone, Option.map_none]
  have hsame : w'.db = w.db → w'.db.object? k = w.db.object? k := fun heq => by rw [heq]
  cases e with
  | total =>
    obtain ⟨n, hn⟩ := hdb
    exact Or.inl (by rw [hn]; rfl)
  | inserted obj at' =>
    have hi : InsertedBy obj at' w.db w'.db := hdb
    by_cases hk : k = obj.storePathHash
    · subst hk
      cases ho : w'.db.object? obj.storePathHash with
      | none => exact Or.inr (Or.inl rfl)
      | some o => exact Or.inr (Or.inr (Or.inl ⟨obj, at', o, rfl, rfl, hi.object? ho⟩))
    · exact Or.inl (object?_congr (by rw [hi.row?, if_neg hk]) (hi.refsOf_ne hk))
  | removed hash row =>
    rw [hdb.2] at hgone ⊢
    by_cases hk : k = hash
    · exact Or.inr (Or.inl (hgone (by rw [row?_removed, if_pos hk])))
    · exact Or.inl (object?_congr (by rw [row?_removed, if_neg hk]) (refsOf_removed_ne hk))
  | pruned batch =>
    rw [show w'.db = w.db.pruned batch from hdb] at hgone ⊢
    by_cases hk : k ∈ batch.map ObjectBrief.storePathHash
    · exact Or.inr (Or.inl (hgone (by rw [row?_pruned, if_pos hk])))
    · exact Or.inl (object?_congr (by rw [row?_pruned, if_neg hk]) (refsOf_pruned_ne hk))
  | resigned updates =>
    rw [show w'.db = w.db.resigned updates from hdb]
    have hrefs := refsOf_eq_of_refs (objectRefs_resigned updates w.db) k
    rcases row?_updates updates w.db with heq | ⟨u, hu, huk, row, hrow, hnew⟩
    · exact Or.inl (object?_congr heq hrefs)
    · refine Or.inr (Or.inr (Or.inr ⟨updates, rfl, u, hu, huk,
        row.toObject k (w.db.references k), ?_, ?_⟩))
      · rw [Db.object?, hrow]
        rfl
      · rw [Db.object?, hnew, Db.references, hrefs]
        rfl
  | negotiated hashes ms now =>
    obtain ⟨-, ht, -⟩ := hdb
    left
    rcases ht.rows k with heq | ⟨row, hrow, -, hnew⟩
    · exact object?_congr heq (refsOf_eq_of_refs ht.refs k)
    · rw [Db.object?, Db.object?, Db.references, Db.references, refsOf_eq_of_refs ht.refs, hrow, hnew]
      rfl
  | bumped =>
    obtain ⟨hrefs, -, hrows⟩ := hdb
    left
    rcases hrows k with heq | ⟨a, b, ha, hb, hab⟩
    · exact object?_congr heq (refsOf_eq_of_refs hrefs k)
    · rw [Db.object?, Db.object?, Db.references, Db.references, refsOf_eq_of_refs hrefs, ha, hb, hab]
      rfl
  | pins =>
    exact Or.inl (object?_congr (by unfold Db.row?; rw [hdb.1]) (refsOf_eq_of_refs hdb.2 k))
  | quiet => exact Or.inl (hsame hdb)
  | put hash blob => exact Or.inl (hsame hdb)
  | unlinked keys => exact Or.inl (hsame hdb)

/-- A lower bound on `pushed_at` of one row stays, when it holds of what is inserted and of the time
of a Negotiation. -/
theorem Does.pushedAt_ge {e : Effect} {w w' : World} (h : e.Does w w') {k : String} {b : Int}
    (hins : ∀ obj at', e = .inserted obj at' → obj.storePathHash = k → b ≤ at')
    (hneg : ∀ hashes ms now, e = .negotiated hashes ms now → b ≤ now)
    (hold : ∀ row, w.row? k = some row → b ≤ row.pushedAt) {row : Row}
    (hrow : w'.row? k = some row) : b ≤ row.pushedAt := by
  rcases h.row_cases k with heq | ⟨-, hgone⟩ | ⟨obj, at', he, hk, hnew⟩ | ⟨x, y, hx, hy, -, hp⟩
  · exact hold row (heq.symm.trans hrow)
  · rw [hgone] at hrow
    exact absurd hrow (by simp)
  · obtain rfl := Option.some.inj (hnew.symm.trans hrow)
    exact hins obj at' he hk.symm
  · obtain rfl := Option.some.inj (hy.symm.trans hrow)
    rcases hp with hp | ⟨hashes, ms, now, he, -, hp⟩
    · rw [← hp]
      exact hold x hx
    · rw [hp]
      exact hneg hashes ms now he

/-- What an effect does to one blob. -/
theorem Does.blob_cases {e : Effect} {w w' : World} (h : e.Does w w') (k : String) :
    w'.blob? k = w.blob? k ∨ (∃ blob, e = .put k blob ∧ w'.blob? k = some blob) ∨
    (∃ keys, e = .unlinked keys ∧ keyFor k ∈ keys ∧ w'.blob? k = none) := by
  have hb := h.bucket
  unfold World.blob?
  cases e with
  | put hash blob =>
    rw [hb, Stores, Table.lookup_insert_eq]
    by_cases hk : k = hash
    · subst hk
      exact Or.inr (Or.inl ⟨blob, rfl, if_pos rfl⟩)
    · exact Or.inl (if_neg fun he => hk (keyFor_injective he))
  | unlinked keys =>
    rw [hb, Stores, Table.lookup_eraseAll]
    by_cases hk : keyFor k ∈ keys
    · exact Or.inr (Or.inr ⟨keys, rfl, hk, if_pos hk⟩)
    · exact Or.inl (if_neg hk)
  | _ => exact Or.inl (by rw [hb]; rfl)

end Effect

/-- One step of task `me`, from holding `H` to holding `H'`: its effect, its claims, and that the
database stays as it is while another task keeps the connection. -/
structure Step (me : ℕ) (w w' : World) (H H' : List (String × Kind)) (e : Effect) : Prop where
  does : e.Does w w'
  move : Holds w.inFlight.kind H → Move w.inFlight.kind w'.inFlight.kind H H'
  clock : w'.clock = w.clock
  conn : w.free me ∨ w'.db = w.db ∧ w'.conn = w.conn
  kept : w'.conn = w.conn ∨ w.free me ∧ (w'.conn = none ∨ w'.conn = some me)

namespace Step

variable {me : ℕ} {w w' : World} {H H' : List (String × Kind)}

/-- A step that leaves the shared state alone. -/
theorem stay (hp : H'.Perm H) : Step me w w H H' .quiet where
  does := .quiet rfl rfl
  move hH := Move.same hH hp
  clock := rfl
  conn := Or.inr ⟨rfl, rfl⟩
  kept := Or.inl rfl

/-- The quiesce gate moves, and no claim does. -/
theorem gate {f : InFlight} (hf : f.kind = w.inFlight.kind) (hp : H'.Perm H) :
    Step me w { w with inFlight := f } H H' .quiet where
  does := .quiet rfl rfl
  move hH := by
    rw [hf]
    exact Move.same hH hp
  clock := rfl
  conn := Or.inr ⟨rfl, rfl⟩
  kept := Or.inl rfl

/-- A claim is taken. -/
theorem takes {f : InFlight} {hash : String} {k : Kind} (hf : w.inFlight.take hash k = .ok f)
    (hp : H'.Perm ((hash, k) :: H)) : Step me w { w with inFlight := f } H H' .quiet where
  does := .quiet rfl rfl
  move hH := InFlight.take_move hf hH hp
  clock := rfl
  conn := Or.inr ⟨rfl, rfl⟩
  kept := Or.inl rfl

/-- After a step that moved no claim, one claim is dropped. -/
theorem dropOne {e : Effect} {hash : String} {k : Kind} {H₁ : List (String × Kind)}
    (h : Step me w w' H H e) (hfl : w'.inFlight = w.inFlight) (hp : H.Perm ((hash, k) :: H₁)) :
    Step me w (w'.release [hash]) H H₁ e where
  does := ⟨h.does.db, h.does.bucket⟩
  move hH := by
    have hm := InFlight.release_move hH hp
    rw [← hfl] at hm ⊢
    exact hm
  clock := h.clock
  conn := h.conn
  kept := h.kept

/-- After a step that moved no claim, every claim is dropped. -/
theorem dropAll {e : Effect} {hashes : List String} (h : Step me w w' H H e)
    (hfl : w'.inFlight = w.inFlight) (hk : ∀ x, x ∈ H.map Prod.fst ↔ x ∈ hashes) :
    Step me w (w'.release hashes) H [] e where
  does := ⟨h.does.db, h.does.bucket⟩
  move _ := by
    have hm := InFlight.releaseAll_move (f := w.inFlight) hk
    rw [← hfl] at hm ⊢
    exact hm
  clock := h.clock
  conn := h.conn
  kept := h.kept

/-- A commit on the connection; the task may keep the connection or give it back. -/
theorem commits {e : Effect} {db : Db} {c : Option ℕ} (hfree : w.free me)
    (hd : e.Does w { w with db := db, conn := c }) (hc : c = w.conn ∨ c = none ∨ c = some me)
    (hp : H'.Perm H) : Step me w { w with db := db, conn := c } H H' e where
  does := hd
  move hH := Move.same hH hp
  clock := rfl
  conn := Or.inl hfree
  kept := by
    rcases hc with h | h | h
    · exact Or.inl h
    · exact Or.inr ⟨hfree, Or.inl h⟩
    · exact Or.inr ⟨hfree, Or.inr h⟩

/-- Blobs are deleted. -/
theorem unlinks (gone : List String) (hp : H'.Perm H) :
    Step me w (w.unlink gone) H H' (.unlinked gone) where
  does := ⟨rfl, rfl⟩
  move hH := Move.same hH hp
  clock := rfl
  conn := Or.inr ⟨rfl, rfl⟩
  kept := Or.inl rfl

/-- The connection is given back after the step. -/
theorem giveBack {e : Effect} (h : Step me w w' H H' e) (hfree : w.free me) :
    Step me w { w' with conn := none } H H' e where
  does := ⟨h.does.db, h.does.bucket⟩
  move := h.move
  clock := h.clock
  conn := Or.inl hfree
  kept := Or.inr ⟨hfree, Or.inl rfl⟩

end Step

/-- Delete claims, as what a task holds. -/
def deleting (claims : List String) : List (String × Kind) := claims.map fun h => (h, .delete)

theorem mem_deleting {claims : List String} {x : String} :
    x ∈ (deleting claims).map Prod.fst ↔ x ∈ claims := by
  simp [deleting]

theorem deleting_hold (d : Deletion) (hash : String) :
    (deleting (d.hold hash).claims).Perm ((hash, .delete) :: deleting d.claims) := by
  simp only [deleting, Deletion.hold, List.map_append, List.map_cons, List.map_nil]
  exact List.perm_append_singleton _ _

/-- A step of `finish` that leaves requests to send. -/
theorem Finish.step_inl {me : ℕ} {w w' : World} {o : Oracle} {f f' : Finish}
    (h : f.step w o = (w', .inl f')) :
    ∃ gone : List String, (∀ k ∈ gone, k ∈ f.deletion.keys) ∧ w'.db = w.db ∧
      Step me w w' (deleting f.claims) (deleting f'.claims) (.unlinked gone) ∧
      f'.claims = f.claims ∧ ∀ k ∈ f'.deletion.keys, k ∈ f.deletion.keys := by
  obtain ⟨gone, hgone, ⟨g, hg, rfl, hc, hk⟩ | ⟨⟨r, hr⟩, -⟩⟩ := Finish.step_cases h
  · obtain rfl := Sum.inl.inj hg
    exact ⟨gone, hgone, rfl, .unlinks gone (by rw [hc]), hc, hk⟩
  · exact absurd hr (by simp)

/-- The last step of `finish`. -/
theorem Finish.step_inr {me : ℕ} {w w' : World} {o : Oracle} {f : Finish}
    {r : Except String Unit} (h : f.step w o = (w', .inr r)) :
    ∃ gone : List String, (∀ k ∈ gone, k ∈ f.deletion.keys) ∧ w'.db = w.db ∧
      Step me w w' (deleting f.claims) [] (.unlinked gone) := by
  obtain ⟨gone, hgone, ⟨g, hg, -⟩ | ⟨-, rfl⟩⟩ := Finish.step_cases h
  · exact absurd hg (by simp)
  · exact ⟨gone, hgone, rfl, (Step.unlinks gone (.refl _)).dropAll rfl fun _ => mem_deleting⟩

/-! ## What a deletion relies on -/

/-- A deletion may delete its queued blobs: each is one of a claimed path whose row is gone. -/
structure Deletion.Ready (d : Deletion) (w : World) : Prop where
  wf : d.Wf
  gone : ∀ h ∈ d.queued, w.row? h = none

namespace Deletion.Ready

variable {d : Deletion} {w w' : World}

theorem nil (claims : List String) (w : World) : Deletion.Ready ⟨claims, []⟩ w :=
  ⟨wf_nil claims, by simp [queued]⟩

/-- A step that inserts none of the queued rows keeps it. -/
theorem mono (h : d.Ready w) (hrow : ∀ k ∈ d.queued, w.row? k = none → w'.row? k = none) :
    d.Ready w' := ⟨h.wf, fun k hk => hrow k hk (h.gone k hk)⟩

theorem hold (h : d.Ready w) {hash : String} (hgone : w'.row? hash = none)
    (hrow : ∀ k, w.row? k = none → w'.row? k = none) : (d.hold hash).Ready w' := by
  refine ⟨h.wf.hold hash, fun k hk => ?_⟩
  rcases mem_queued_hold hk with hk | rfl
  · exact hrow k (h.gone k hk)
  · exact hgone

theorem queueBlob (h : d.Ready w) {hash : String} (hc : hash ∈ d.claims)
    (hgone : w'.row? hash = none) (hrow : ∀ k, w.row? k = none → w'.row? k = none) :
    (d.queueBlob hash).Ready w' := by
  refine ⟨h.wf.queueBlob hc, fun k hk => ?_⟩
  rcases mem_queued_queueBlob hk with hk | rfl
  · exact hrow k (h.gone k hk)
  · exact hgone

/-- A request of `finish` sends part of what was queued. -/
theorem next {f f' : Finish} {o : Oracle} (h : f.deletion.Ready w)
    (hf : f.step w o = (w', .inl f')) : f'.deletion.Ready w' := by
  obtain ⟨gone, -, hdb, -, hc, hk⟩ := @Finish.step_inl 0 _ _ _ _ _ hf
  refine ⟨fun k hkey => ?_, fun x hx => ?_⟩
  · obtain ⟨x, hx, he⟩ := h.wf k (hk k hkey)
    exact ⟨x, by rw [show f'.deletion.claims = f'.claims from rfl, hc]; exact hx, he⟩
  · obtain ⟨hxc, hxk⟩ := mem_queued.mp hx
    unfold World.row?
    rw [hdb]
    refine h.gone x (mem_queued.mpr ⟨?_, hk _ hxk⟩)
    rw [show f'.deletion.claims = f'.claims from rfl, hc] at hxc
    exact hxc

end Deletion.Ready

theorem row?_removed_none {w : World} {hash k : String} {n : Int} (h : w.row? k = none) :
    World.row? { w with db := w.db.removed hash n } k = none := by
  unfold World.row? at *
  rw [row?_removed, h]
  split <;> rfl

theorem row?_removed_self {w : World} {hash : String} {n : Int} :
    World.row? { w with db := w.db.removed hash n } hash = none := by
  unfold World.row?
  rw [row?_removed, if_pos rfl]

end Garret
