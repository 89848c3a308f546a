import Garret.Lib.Format
import Mathlib.Tactic.DeriveCountable

/-!
# Flat JSON objects

What a program builds for a line of its output: an object whose members are texts and whole numbers,
in the order of their names (`object`), looked up by name (`find`). How one is written is a `Format`.
-/

namespace Garret.Lib.Json

/-- The value of a member. -/
inductive Value where
  | str (s : String)
  | num (n : Int)
  deriving DecidableEq, Countable

/-- `Map<String, Value>`. -/
abbrev Object : Type := List (String × Value)

/-- `Map::insert`: the keys are kept in order, and a key that is there gets the new value. -/
def put (k : String) (v : Value) : Object → Object
  | [] => [(k, v)]
  | (k', v') :: fs =>
    if k < k' then (k, v) :: (k', v') :: fs
    else if k = k' then (k, v) :: fs
    else (k', v') :: put k v fs

/-- `Map::get`. -/
def find (q : String) : Object → Option Value
  | [] => none
  | (k, v) :: fs => if k = q then some v else find q fs

theorem find_put (q k : String) (v : Value) (fs : Object) :
    find q (put k v fs) = if k = q then some v else find q fs := by
  induction fs with
  | nil => rfl
  | cons f fs ih =>
    obtain ⟨k', v'⟩ := f
    by_cases hlt : k < k'
    · rw [put, if_pos hlt, find]
    · by_cases heq : k = k'
      · subst heq
        rw [put, if_neg hlt, if_pos rfl, find, find]
        by_cases hq : k = q
        · rw [if_pos hq, if_pos hq]
        · rw [if_neg hq, if_neg hq, if_neg hq]
      · rw [put, if_neg hlt, if_neg heq, find, find, ih]
        by_cases hq : k = q
        · subst hq
          rw [if_neg (Ne.symm heq), if_pos rfl, if_pos rfl]
        · rw [if_neg hq, if_neg hq]

/-- `json!({…})`. -/
def object (fs : List (String × Value)) : Object := fs.foldl (fun m f => put f.1 f.2 m) []

end Garret.Lib.Json
