import Garret.Db.Schema
import Garret.Wire
import Mathlib.Data.List.Sort

/-!
# Fingerprints and signatures

Model of `crates/garret-server/src/narinfo.rs`: what is signed, how a signature is spelled and
checked. The ed25519 and base64 libraries are parameters: a `SigningKeyFile` carries the two halves
of its scheme and the one fact the code relies on, that a key accepts what it signed.

* `fingerprint_congr`: the fingerprint depends on the references up to order only.
* `sigsVerify_sign`: an object signed by every configured key has only verifying signatures.
-/

namespace Garret

/-! ## Keys -/

/-- A named signing key (`SigningKeyFile`). -/
structure SigningKeyFile where
  name : String
  /-- `B64.encode(key.sign(fingerprint))`. -/
  signature : String → String
  /-- Whether a base64 text decodes to a signature the public half accepts. -/
  accepts : String → String → Bool
  /-- `parse` splits at the first colon. -/
  name_colon : ':' ∉ name.toList
  accepts_signature : ∀ fp, accepts (signature fp) fp = true

namespace SigningKeyFile

/-- `SigningKeyFile::verifies`. -/
def verifies (k : SigningKeyFile) (sig fp : String) : Bool :=
  match splitOnce ':' sig with
  | none => false
  | some (name, b64) => name == k.name && k.accepts b64 fp

/-- `SigningKeyFile::sign`. -/
def sign (k : SigningKeyFile) (fp : String) : String := k.name ++ ":" ++ k.signature fp

end SigningKeyFile

/-- **A key verifies its own signatures.** -/
theorem SigningKeyFile.verifies_sign (k : SigningKeyFile) (fp : String) :
    k.verifies (k.sign fp) fp = true := by
  have hsplit : splitOnce ':' (k.name ++ ":" ++ k.signature fp) = some (k.name, k.signature fp) :=
    splitOnce_append _ k.name_colon
  unfold verifies sign
  rw [hsplit]
  simp [k.accepts_signature]

/-- A key whose signature of a text is the text. -/
def echoKey : SigningKeyFile where
  name := "echo-1"
  signature := id
  accepts := fun s fp => s == fp
  name_colon := by decide
  accepts_signature := by simp

/-! ## Hash spellings -/

/-- `normalize_hash`: a NarHash as `sha256:<nix-base32>`, from that form or from base64. -/
def normalizeHash (decodeB64 : String → Option Bytes) (hash : String) : Except String String :=
  match (stripPrefix "sha256:" hash).orElse fun _ => stripPrefix "sha256-" hash with
  | none => .error ("unsupported hash format: " ++ hash)
  | some digest =>
    if digest.utf8ByteSize = nixBase32Len 32 ∧ isNixBase32 digest = true then
      .ok ("sha256:" ++ digest)
    else match decodeB64 digest with
      | none => .error ("hash is neither nix-base32 nor base64: " ++ digest)
      | some bytes =>
        if bytes.length ≠ 32 then
          .error ("expected a 32-byte sha256, got " ++ toString bytes.length ++ " bytes")
        else .ok (sha256Nix32 bytes)

/-! ## Fingerprints -/

/-- `fingerprint`: references as full store paths, sorted. -/
def fingerprint (obj : Object) (storeDir : String) : String :=
  let refs := (obj.references.map fun r => storeDir ++ "/" ++ r).insertionSort (· ≤ ·)
  "1;" ++ obj.storePath ++ ";" ++ obj.narHash ++ ";" ++ toString obj.narSize ++ ";" ++
    String.intercalate "," refs

/-- Two objects that differ at most in what is not signed, and in the order of references. -/
structure Object.SameSigned (a b : Object) : Prop where
  storePath : a.storePath = b.storePath
  narHash : a.narHash = b.narHash
  narSize : a.narSize = b.narSize
  references : a.references.Perm b.references

theorem fingerprint_congr {a b : Object} (h : a.SameSigned b) (storeDir : String) :
    fingerprint a storeDir = fingerprint b storeDir := by
  have hrefs := sort_congr (h.references.map fun r => storeDir ++ "/" ++ r)
  unfold fingerprint
  rw [hrefs, h.storePath, h.narHash, h.narSize]

/-! ## Rendering -/

/-- `writeln!(out, "<key>: <value>")`. -/
def writeField (key value : String) : String := key ++ ": " ++ value ++ "\n"

/-- `render`: the narinfo the Puller serves. -/
def render (obj : Object) : String :=
  writeField "StorePath" obj.storePath ++
  writeField "URL" (narUrl obj.storePathHash) ++
  "Compression: zstd\n" ++
  writeField "FileHash" obj.fileHash ++
  writeField "FileSize" (toString obj.fileSize) ++
  writeField "NarHash" obj.narHash ++
  writeField "NarSize" (toString obj.narSize) ++
  "References: " ++ String.intercalate " " obj.references ++ "\n" ++
  (match obj.deriver with
    | some d => writeField "Deriver" d
    | none => "") ++
  (match obj.ca with
    | some ca => writeField "CA" ca
    | none => "") ++
  String.join (obj.sigs.map (writeField "Sig"))

/-! ## Signing and checking objects -/

/-- `sign`: one signature per configured key. -/
def sign (obj : Object) (storeDir : String) (keys : List SigningKeyFile) :
    Except String (List String) :=
  if keys.isEmpty then .error "no signing keys configured"
  else .ok (keys.map fun k => k.sign (fingerprint obj storeDir))

/-- Whether some configured key verifies `sig` over `fp`. -/
def verifiesAny (keys : List SigningKeyFile) (fp sig : String) : Bool :=
  keys.any fun k => k.verifies sig fp

/-- `verify`: at least one stored signature verifies under one of `keys`. -/
def verify (obj : Object) (storeDir : String) (keys : List SigningKeyFile) : Bool :=
  obj.sigs.any fun sig => verifiesAny keys (fingerprint obj storeDir) sig

/-- Every stored signature verifies under one of `keys`. -/
def sigsVerify (obj : Object) (storeDir : String) (keys : List SigningKeyFile) : Bool :=
  obj.sigs.all fun sig => verifiesAny keys (fingerprint obj storeDir) sig

theorem verifiesAny_sign {keys : List SigningKeyFile} {fp sig : String}
    (h : sig ∈ keys.map fun k => k.sign fp) : verifiesAny keys fp sig = true := by
  obtain ⟨k, hk, rfl⟩ := List.mem_map.mp h
  exact List.any_eq_true.mpr ⟨k, hk, k.verifies_sign fp⟩

/-- What `sign` returns: nonempty, and every signature verifies. -/
theorem sign_ok {obj : Object} {storeDir : String} {keys : List SigningKeyFile}
    {sigs : List String} (h : sign obj storeDir keys = .ok sigs) :
    sigs ≠ [] ∧ ∀ sig ∈ sigs, verifiesAny keys (fingerprint obj storeDir) sig = true := by
  unfold sign at h
  split at h
  · exact absurd h (by simp)
  · rename_i hk
    obtain rfl := Except.ok.inj h
    refine ⟨fun he => hk ?_, fun sig hs => verifiesAny_sign hs⟩
    simpa using he

/-- **Signing with every configured key leaves only verifying signatures.** -/
theorem sigsVerify_sign {obj : Object} {storeDir : String} {keys : List SigningKeyFile}
    {sigs : List String} (h : sign obj storeDir keys = .ok sigs) {obj' : Object}
    (hfp : fingerprint obj' storeDir = fingerprint obj storeDir) (hsigs : obj'.sigs = sigs) :
    sigsVerify obj' storeDir keys = true ∧ verify obj' storeDir keys = true := by
  obtain ⟨hne, hall⟩ := sign_ok h
  rw [sigsVerify, verify, hfp, hsigs]
  refine ⟨List.all_eq_true.mpr hall, List.any_eq_true.mpr ?_⟩
  obtain ⟨sig, hs⟩ := List.exists_mem_of_ne_nil _ hne
  exact ⟨sig, hs, hall sig hs⟩

end Garret
