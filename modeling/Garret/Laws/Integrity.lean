import Garret.Laws.RowBlob

/-!
# What is pulled is what was verified

`row_has_blob` is about a row and the digest of its blob. Here it is what the Puller serves: the object
a narinfo is rendered from, and the blob its URL leads to. `Genuine` says that both come from one
upload whose body was checked, so what nix unpacks has the size and the hash its narinfo names.

A pull is two requests. Between them the row may go, and its blob with it; but no other blob takes its
place unless the path is uploaded anew (`blob_step`).
-/

namespace Garret

open Garret.Lib

/-- Two objects that differ at most in their signatures and in the order of references. -/
structure Object.Same (a b : Object) : Prop where
  rest : a = { b with references := a.references, sigs := a.sigs }
  references : a.references.Perm b.references

theorem Object.Same.refl (a : Object) : a.Same a := ⟨rfl, .refl _⟩

theorem Object.Same.trans {a b c : Object} (h : a.Same b) (h' : b.Same c) : a.Same c :=
  ⟨by rw [h.rest, h'.rest], h.references.trans h'.references⟩

theorem Object.Same.resigned (a : Object) (sigs : List String) : { a with sigs := sigs }.Same a :=
  ⟨rfl, .refl _⟩

/-- An inserted object is read back, its references in some order. -/
theorem InsertedBy.same {obj : Object} {now : Int} {db db' : Db} (h : InsertedBy obj now db db')
    {o : Object} (ho : db'.object? obj.storePathHash = some o) : o.Same obj := by
  unfold Db.object? at ho
  rw [h.row?, if_pos rfl, Option.map_some, Option.some.injEq] at ho
  subst ho
  refine ⟨rfl, ?_⟩
  have hperm := references_perm db' obj.storePathHash
  rw [h.refsOf_self] at hperm
  exact hperm

variable {δ : Type} {env : Env δ}

/-- One upload of `hash` sent `blob`, which was checked, and describes `o`. -/
def Genuine (env : Env δ) (hash : String) (blob : Bytes) (o : Object) : Prop :=
  ∃ subject body preamble object, Claimed env.toServer hash subject body blob preamble object ∧
    o.Same { object with
      fileHash := sha256Nix32 (env.sha256 blob), fileSize := blob.length }

/-- The blob of `hash` is there, and is what `o` describes. -/
def Shelved (env : Env δ) (w : World) (hash : String) (o : Object) : Prop :=
  ∃ blob, w.blob? hash = some blob ∧ Genuine env hash blob o

theorem Shelved.congr {w w' : World} {hash : String} {o o' : Object} (h : Shelved env w hash o)
    (hb : w'.blob? hash = w.blob? hash) (ho : o'.Same o) : Shelved env w' hash o' := by
  obtain ⟨blob, hblob, subject, body, preamble, object, hclaim, hsame⟩ := h
  exact ⟨blob, hb.trans hblob, subject, body, preamble, object, hclaim, ho.trans hsame⟩

/-! ## The transfer -/

namespace Sys

variable {s s' : Sys} {a : Act}

/-! ## The invariant -/

/-- No upload of `hash` stores its blob. -/
def Unstored (hash : String) (s : Sys) (a : Act) : Prop :=
  ∀ i o subject, a = .step i o → s.task? i ≠ some (.upload (.store hash subject))

/-- A task is about to store the blob of `hash`. -/
def stores (hash : String) : Task → Bool
  | .upload (.store k _) => k == hash
  | _ => false

theorem unstored_iff {hash : String} {i : ℕ} {o : Oracle} :
    Unstored hash s (.step i o) ↔ (s.task? i).any (stores hash) = false := by
  constructor
  · intro h
    refine Bool.eq_false_iff.mpr fun hany => ?_
    obtain ⟨t, ht, hst⟩ := (Option.any_eq_true _ _).mp hany
    unfold stores at hst
    split at hst
    · rename_i k subject
      obtain rfl : k = hash := by simpa using hst
      exact h i o subject rfl ht
    · exact absurd hst (by simp)
  · intro h i' o' subject ha ht
    cases ha
    rw [ht] at h
    simp [stores] at h

instance (hash : String) (s : Sys) : ∀ a : Act, Decidable (Unstored hash s a)
  | .step _ _ => decidable_of_iff _ unstored_iff.symm
  | .spawn _ _ => .isTrue fun _ _ _ ha => by cases ha
  | .drop _ => .isTrue fun _ _ _ ha => by cases ha
  | .crash => .isTrue fun _ _ _ ha => by cases ha
  | .tick _ => .isTrue fun _ _ _ ha => by cases ha
  | .negotiate _ _ => .isTrue fun _ _ _ ha => by cases ha
  | .pin _ _ _ _ => .isTrue fun _ _ _ ha => by cases ha
  | .unpin _ _ => .isTrue fun _ _ _ ha => by cases ha
  | .bump _ _ _ _ => .isTrue fun _ _ _ ha => by cases ha
  | .lose _ => .isTrue fun _ _ _ ha => by cases ha

end Sys

end Garret
