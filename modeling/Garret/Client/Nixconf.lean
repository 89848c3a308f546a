import Garret.Client.Discovery
import Mathlib.Data.List.Infix

/-!
# What `garret use` writes

Model of `lines`, `nixos_snippet` and `apply` (`crates/garret-client/src/nixconf.rs`) over
`read_optional` and `write_atomic` (`crates/garret-client/src/files.rs`).

* A file is its text, or absent. `read_to_string` follows a symlink and `apply` writes where it
  points, so one text stands for the path and its target.
* `Env` decides what fails outside: no home directory, an unreadable file, a link that cannot be
  resolved, a write. `write_atomic` replaces the file whole or leaves it.
-/

namespace Garret.Nixconf

/-- `lines`: where to fetch from, and whose signatures to trust. -/
def lines (puller : String) (publicKeys : List String) : String :=
  "extra-substituters = " ++ puller ++ "\nextra-trusted-public-keys = " ++
    String.intercalate " " publicKeys ++ "\n"

/-- `nixos_snippet`. -/
def nixosSnippet (puller : String) (publicKeys : List String) : String :=
  let keys := publicKeys.map fun k => "\"" ++ k ++ "\""
  "nix.settings = \x7b\n  substituters = [ \"" ++ puller ++ "\" ];\n  trusted-public-keys = [ " ++
    String.intercalate " " keys ++ " ];\n\x7d;\n"

/-- `Outcome`: what `apply` did to the nix.conf at the path. -/
inductive Outcome where
  | added (path : String)
  | alreadyPresent (path : String)
  deriving DecidableEq, Repr

/-- What `apply` depends on outside the text of the file. -/
structure Env where
  /-- The config directory, when one of its two variables is set. -/
  configHome : Option String
  readFails : Bool
  resolveFails : Bool
  writeFails : Bool
  deriving DecidableEq, Repr

/-- `path`: the user's nix.conf. -/
def path (env : Env) : Except String String :=
  (env.configHome.map fun home => home ++ "/nix/nix.conf").elim
    (.error "neither XDG_CONFIG_HOME nor HOME is set") .ok

/-- `read_optional`: the text, or `none` where there is no file. -/
def readOptional (env : Env) (path : String) (file : Option String) :
    Except String (Option String) :=
  if env.readFails then .error ("reading " ++ path) else .ok file

/-- `fs::canonicalize`, of a path that exists. -/
def canonicalize (env : Env) (path : String) : Except String Unit :=
  if env.resolveFails then .error ("resolving " ++ path) else .ok ()

/-- `write_atomic`: the new text, or the error with the file left as it was. -/
def writeAtomic (env : Env) (path contents : String) : Except String (Option String) :=
  if env.writeFails then .error ("writing " ++ path) else .ok (some contents)

/-- `text.contains(pat)`. -/
def contains (text pat : String) : Bool := decide (pat.toList <:+: text.toList)

/-- The text `apply` writes. -/
def appended (existing : Option String) (puller : String) (publicKeys : List String) : String :=
  let out := existing.getD ""
  let out := if out ≠ "" ∧ out.toList.getLast? ≠ some '\n' then out ++ "\n" else out
  out ++ lines puller publicKeys

/-- `apply`: what it returns, and the file it leaves. -/
def apply (env : Env) (puller : String) (publicKeys : List String) (file : Option String) :
    Except String (Outcome × Option String) := do
  let path ← path env
  let existing ← readOptional env path file
  if existing.any fun text => contains text puller then
    return (.alreadyPresent path, file)
  else
    -- a file that is there is written where it points
    (if existing.isSome then canonicalize env path else .ok ())
    let file ← writeAtomic env path (appended existing puller publicKeys)
    return (.added path, file)

/-- **What `apply` does when it returns**: nothing, where the URL is in the text, and otherwise the
two lines are appended. -/
theorem apply_eq_ok {env : Env} {puller : String} {publicKeys : List String}
    {file file' : Option String} {outcome : Outcome}
    (h : apply env puller publicKeys file = .ok (outcome, file')) :
    (∃ path text, outcome = .alreadyPresent path ∧ file = some text ∧ file' = file ∧
        puller.toList <:+: text.toList) ∨
      ∃ path, outcome = .added path ∧ file' = some (appended file puller publicKeys) ∧
        ∀ text, file = some text → ¬ puller.toList <:+: text.toList := by
  obtain ⟨p, -, h⟩ := bind_eq_ok.mp h
  obtain ⟨existing, hread, h⟩ := bind_eq_ok.mp h
  obtain rfl : file = existing := by
    unfold readOptional at hread
    split at hread
    · exact absurd hread (by simp)
    · exact Except.ok.inj hread
  split at h
  · rename_i hany
    obtain ⟨rfl, rfl⟩ := Prod.mk.inj (Except.ok.inj h)
    cases file with
    | none => exact absurd hany (by simp)
    | some text =>
      rw [Option.any_some, contains, decide_eq_true_eq] at hany
      exact Or.inl ⟨p, text, rfl, rfl, rfl, hany⟩
  · rename_i hany
    obtain ⟨-, -, h⟩ := bind_eq_ok.mp h
    obtain ⟨written, hwrite, h⟩ := bind_eq_ok.mp h
    obtain ⟨rfl, rfl⟩ := Prod.mk.inj (Except.ok.inj h)
    obtain rfl : some (appended file puller publicKeys) = written := by
      unfold writeAtomic at hwrite
      split at hwrite
      · exact absurd hwrite (by simp)
      · exact Except.ok.inj hwrite
    refine Or.inr ⟨p, rfl, rfl, ?_⟩
    rintro text rfl hin
    rw [Option.any_some, contains, decide_eq_true_eq] at hany
    exact hany hin

end Garret.Nixconf
