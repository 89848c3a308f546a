import Garret.Lib.Ownership
import Garret.Lib.Table

/-!
# The in-flight map and the quiesce gate

Model of `crates/garret-server/src/inflight.rs`: which store paths are being uploaded or deleted.
A `Claim` is a hash the holder must give back with `release`; `Drop` is explicit. The claim map as
the ownership library sees it is `InFlight.kind`.

`take_move`, `release_move` and `releaseAll_move` are the moves a holder makes.
-/

namespace Garret

open Garret.Lib

/-- What a claim is for. -/
inductive Kind where
  | upload
  | delete
  deriving DecidableEq, Repr

/-- Why a delete claim was turned away. -/
inductive Busy where
  | uploading
  | deleting
  deriving DecidableEq, Repr

/-- Why an upload claim was turned away. -/
inductive Refused where
  | uploading
  | deleting
  | quiescing
  deriving DecidableEq, Repr

/-- The claims, the number of upload claims, and the number of live quiesce guards. -/
structure InFlight where
  claims : Table String Kind
  uploads : ℕ
  quiescers : ℕ

namespace InFlight

/-- Nothing is claimed, and the gate is open. -/
def new : InFlight := ⟨∅, 0, 0⟩

/-- The claim on `hash`. -/
def kind (f : InFlight) (hash : String) : Option Kind := f.claims.lookup hash

/-- `take`: the first claimer wins. -/
def take (f : InFlight) (hash : String) (k : Kind) : Except Busy InFlight :=
  match f.kind hash with
  | some .upload => .error .uploading
  | some .delete => .error .deleting
  | none => .ok { f with
      claims := f.claims.insert hash k
      uploads := if k = .upload then f.uploads + 1 else f.uploads }

/-- `claim`: refused while the gate is shut. -/
def claim (f : InFlight) (hash : String) : Except Refused InFlight :=
  if 0 < f.quiescers then .error .quiescing
  else match f.take hash .upload with
    | .ok f => .ok f
    | .error .uploading => .error .uploading
    | .error .deleting => .error .deleting

/-- `claim_delete`: the gate does not apply. -/
def claimDelete (f : InFlight) (hash : String) : Except Busy InFlight := f.take hash .delete

/-- A `Claim` is dropped. -/
def release (f : InFlight) (hash : String) : InFlight where
  claims := f.claims.erase hash
  uploads := if f.kind hash = some .upload then f.uploads - 1 else f.uploads
  quiescers := f.quiescers

/-- Several claims are dropped. -/
def releaseAll (f : InFlight) (hashes : List String) : InFlight := hashes.foldl release f

/-- `contains`. -/
def contains (f : InFlight) (hash : String) : Bool := (f.kind hash).isSome

/-- `is_quiescing`. -/
def isQuiescing (f : InFlight) : Bool := decide (0 < f.quiescers)

/-- `quiesce`: a guard shuts the gate. -/
def quiesce (f : InFlight) : InFlight := { f with quiescers := f.quiescers + 1 }

/-- A quiesce guard is dropped. -/
def unquiesce (f : InFlight) : InFlight := { f with quiescers := f.quiescers - 1 }

@[simp] theorem kind_new (hash : String) : new.kind hash = none := rfl

@[simp] theorem kind_quiesce (f : InFlight) (hash : String) : f.quiesce.kind hash = f.kind hash :=
  rfl

@[simp] theorem kind_unquiesce (f : InFlight) (hash : String) :
    f.unquiesce.kind hash = f.kind hash := rfl

theorem kind_release (f : InFlight) (hash k : String) :
    (f.release hash).kind k = if k = hash then none else f.kind k := Table.lookup_erase_eq

theorem kind_releaseAll : ∀ (hashes : List String) (f : InFlight) (k : String),
    (f.releaseAll hashes).kind k = if k ∈ hashes then none else f.kind k
  | [], f, k => by simp [releaseAll]
  | h :: hs, f, k => by
    have heq : f.releaseAll (h :: hs) = (f.release h).releaseAll hs := rfl
    rw [heq, kind_releaseAll hs, kind_release]
    by_cases hk : k ∈ hs
    · simp [hk]
    · by_cases hkh : k = h <;> simp [hk, hkh]

/-- A claim that succeeds was free before. -/
theorem take_ok {f f' : InFlight} {hash : String} {k : Kind} (h : f.take hash k = .ok f') :
    f.kind hash = none ∧ ∀ x, f'.kind x = if x = hash then some k else f.kind x := by
  unfold take at h
  split at h
  · exact absurd h (by simp)
  · exact absurd h (by simp)
  · rename_i hfree
    obtain rfl := Except.ok.inj h
    exact ⟨hfree, fun x => Table.lookup_insert_eq⟩

theorem claim_ok {f f' : InFlight} {hash : String} (h : f.claim hash = .ok f') :
    f.take hash .upload = .ok f' := by
  unfold claim at h
  split at h
  · exact absurd h (by simp)
  · split at h
    · rename_i g hg
      rw [hg, ← Except.ok.inj h]
    · exact absurd h (by simp)
    · exact absurd h (by simp)

/-- **The holder takes one more claim.** -/
theorem take_move {f f' : InFlight} {hash : String} {k : Kind} {H H' : List (String × Kind)}
    (h : f.take hash k = .ok f') (hH : Holds f.kind H) (hp : H'.Perm ((hash, k) :: H)) :
    Move f.kind f'.kind H H' := by
  obtain ⟨hfree, hk⟩ := take_ok h
  exact Move.take hH hfree (by simp [hk]) (fun x hx => by simp [hk, hx]) hp

/-- **The holder drops one of its claims.** -/
theorem release_move {f : InFlight} {hash : String} {k : Kind} {H H' : List (String × Kind)}
    (hH : Holds f.kind H) (hp : H.Perm ((hash, k) :: H')) :
    Move f.kind (f.release hash).kind H H' :=
  Move.drop hH hp (by simp [kind_release]) fun x hx => by simp [kind_release, hx]

/-- **The holder drops all of its claims.** -/
theorem releaseAll_move {f : InFlight} {hashes : List String} {H : List (String × Kind)}
    (hk : ∀ x, x ∈ H.map Prod.fst ↔ x ∈ hashes) : Move f.kind (f.releaseAll hashes).kind H [] :=
  Move.dropAll (fun x hx => by simp [kind_releaseAll, (hk x).mp hx])
    fun x hx => by rw [kind_releaseAll, if_neg fun h => hx ((hk x).mpr h)]

end InFlight

end Garret
