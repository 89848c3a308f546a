import Garret.Common

/-!
# File names

Model of the substituter's file names in `crates/garret-common/src/wire.rs`: what the narinfo and
the NAR of an object are called, and the hash read back from a name.
-/

namespace Garret

/-- `s.strip_suffix(suf)`. -/
def stripSuffix (suf s : String) : Option String :=
  if suf.toList.isSuffixOf s.toList then
    some (String.ofList (s.toList.take (s.toList.length - suf.toList.length)))
  else none

theorem stripSuffix_eq_some {suf s rest : String} :
    stripSuffix suf s = some rest ↔ s = rest ++ suf := by
  unfold stripSuffix
  constructor
  · intro h
    split at h
    · rename_i hp
      obtain ⟨t, ht⟩ := List.isSuffixOf_iff_suffix.mp hp
      obtain rfl := Option.some.inj h
      apply String.toList_injective
      simp [← ht]
    · exact absurd h (by simp)
  · rintro rfl
    simp

/-- `NARINFO_SUFFIX`. -/
def narinfoSuffix : String := ".narinfo"

/-- `NAR_SUFFIX`. -/
def narSuffix : String := ".nar.zst"

/-- `narinfo_file`: the narinfo's file name at the cache root. -/
def narinfoFile (hash : String) : String := hash ++ narinfoSuffix

/-- `narinfo_hash`: the hash a narinfo's file name encodes. -/
def narinfoHash (file : String) : Option String := stripSuffix narinfoSuffix file

/-- `nar_url`: where the narinfo points, relative to the cache root. -/
def narUrl (hash : String) : String := "nar/" ++ hash ++ ".nar.zst"

/-- `nar_file_hash`: the hash in the `{file}` segment of the NAR route. -/
def narFileHash (file : String) : Option String := stripSuffix narSuffix file

end Garret
