import Garret.Common
import Garret.Lib.Text
import Garret.Url

/-!
# The discovery document

Model of `check`, `check_url` and `check_key` (`crates/garret-client/src/discovery.rs`), and of the
document they check (`crates/garret-common/src/wire.rs`).

* `Net` is what comes from elsewhere: `Url::parse`, and whether a host is a loopback IP address
  (`IpAddr::from_str` and `is_loopback`).
* An error carries what its message shows; the message is in its docstring.
-/

namespace Garret

open Garret.Lib

/-- The URL parser, and which hosts are loopback IP addresses. -/
structure Net where
  parse : UrlParser
  isLoopback : List Char → Bool

/-- `wire::Oidc`: the advertised OIDC settings. -/
structure Discovery.Oidc where
  audience : String
  clientId : Option String
  issuer : String
  deriving DecidableEq, Repr

/-- `wire::Discovery`. -/
structure Discovery where
  oidc : Option Discovery.Oidc
  publicKeys : List String
  pullerEndpoint : Option String
  deriving DecidableEq, Repr

/-- Why an advertised or configured value is refused. -/
inductive CheckError where
  /-- `{what} {raw:?} contains {c:?}; URLs here must be plain printable ASCII`. -/
  | character (what raw : String) (c : Char)
  /-- `{what} {raw:?} is not a URL`. -/
  | notUrl (what raw : String)
  /-- `{what} {raw:?} uses {scheme}://; only https is accepted …`. -/
  | scheme (what raw scheme : String)
  /-- `public key {key:?} is not of the form name:base64`. -/
  | key (key : String)
  /-- `{what} {value:?} is empty or holds whitespace, quotes or control characters`. -/
  | value (what value : String)
  deriving DecidableEq, Repr

/-- `char::is_ascii_graphic`. -/
def isAsciiGraphic (c : Char) : Bool := decide ('!' ≤ c ∧ c ≤ '~')

/-- The characters `check_url` refuses. -/
def refusedInUrl (c : Char) : Bool := !isAsciiGraphic c || "\"\\\x7b\x7d`".toList.contains c

/-- `loopback` in `check_url`: the host is `localhost` or a loopback address, in brackets or not. -/
def Net.loopbackHost (net : Net) (url : Url) : Bool :=
  let host := (url.host.getD "").toList
  host == "localhost".toList || net.isLoopback (trimEndMatches ']' (host.dropWhile (· == '[')))

/-- `check_url`. -/
def checkUrl (net : Net) (what raw : String) : Except CheckError Unit :=
  match raw.toList.find? refusedInUrl with
  | some c => .error (.character what raw c)
  | none =>
    match net.parse raw with
    | none => .error (.notUrl what raw)
    | some url =>
      if url.scheme = "https" then .ok ()
      else if url.scheme = "http" ∧ net.loopbackHost url = true then .ok ()
      else .error (.scheme what raw url.scheme)

/-- `c.is_ascii_alphanumeric() || matches!(c, '.' | '_' | '-')`. -/
def isKeyNameChar (c : Char) : Bool := c.isAlphanum || "._-".toList.contains c

/-- `c.is_ascii_alphanumeric() || matches!(c, '+' | '/')`. -/
def isBase64Char (c : Char) : Bool := c.isAlphanum || "+/".toList.contains c

/-- What `check_key` accepts: Nix's `name:base64`. -/
def validKey (key : String) : Bool :=
  match splitOnce ':' key with
  | none => false
  | some (name, value) =>
    let data := trimEndMatches '=' value.toList
    name ≠ "" && name.toList.all isKeyNameChar && !data.isEmpty && data.all isBase64Char

/-- `check_key`. -/
def checkKey (key : String) : Except CheckError Unit :=
  if validKey key then .ok () else .error (.key key)

/-- A client id or audience: not empty, printable, without quotes and backslashes. -/
def checkValue (what value : String) : Except CheckError Unit :=
  if value = "" ∨ value.toList.any (fun c => !(isAsciiGraphic c && c != '"' && c != '\\')) then
    .error (.value what value)
  else .ok ()

/-- `check`. -/
def Discovery.check (net : Net) (discovery : Discovery) : Except CheckError Unit := do
  match discovery.pullerEndpoint with
  | some puller => checkUrl net "puller_endpoint" puller
  | none => pure ()
  discovery.publicKeys.forM checkKey
  match discovery.oidc with
  | some oidc =>
    checkUrl net "oidc.issuer" oidc.issuer
    checkValue "oidc.audience" oidc.audience
    match oidc.clientId with
    | some clientId => checkValue "oidc.client_id" clientId
    | none => pure ()
  | none => pure ()

/-! ## What is accepted -/

/-- What `check_url` accepts, whatever it calls the value. -/
theorem checkUrl_eq_ok {net : Net} {what raw : String} : checkUrl net what raw = .ok () ↔
    (∀ c ∈ raw.toList, refusedInUrl c = false) ∧ ∃ url, net.parse raw = some url ∧
      (url.scheme = "https" ∨ url.scheme = "http" ∧ net.loopbackHost url = true) := by
  unfold checkUrl
  cases hfind : raw.toList.find? refusedInUrl with
  | some c =>
    have hc := List.find?_some hfind
    have hmem := List.mem_of_find?_eq_some hfind
    simp only [reduceCtorEq, false_iff, not_and]
    intro hall
    rw [hall c hmem] at hc
    exact absurd hc (by simp)
  | none =>
    have hall : ∀ c ∈ raw.toList, refusedInUrl c = false := fun c hc => by
      simpa using List.find?_eq_none.mp hfind c hc
    cases hparse : net.parse raw with
    | none => simp
    | some url =>
      by_cases hs : url.scheme = "https"
      · simpa [hs] using hall
      · by_cases hl : url.scheme = "http" ∧ net.loopbackHost url = true
        · simpa [hl] using hall
        · simp [hs, hl]

/-- An accepted URL passes under any name. -/
theorem checkUrl_what {net : Net} {what raw : String} (h : checkUrl net what raw = .ok ())
    (other : String) : checkUrl net other raw = .ok () :=
  checkUrl_eq_ok.mpr (checkUrl_eq_ok.mp h)

theorem checkKey_ok {key : String} (h : checkKey key = .ok ()) : validKey key = true := by
  unfold checkKey at h
  split at h
  · assumption
  · exact absurd h (by simp)

/-- The characters of an accepted key. -/
def isKeyChar (c : Char) : Bool := isKeyNameChar c || isBase64Char c || c == ':' || c == '='

theorem validKey_chars {key : String} (h : validKey key = true) :
    key ≠ "" ∧ ∀ c ∈ key.toList, isKeyChar c = true := by
  unfold validKey at h
  split at h
  · exact absurd h (by simp)
  · rename_i name value hsplit
    obtain ⟨rfl, -⟩ := splitOnce_eq_some hsplit
    simp only [Bool.and_eq_true, List.all_eq_true] at h
    obtain ⟨⟨⟨-, hname⟩, -⟩, hdata⟩ := h
    constructor
    · intro he
      have := congrArg String.toList he
      simp at this
    · intro c hc
      simp only [String.toList_append, List.mem_append, String.toList_singleton,
        List.mem_singleton] at hc
      unfold isKeyChar
      rcases hc with (hc | rfl) | hc
      · simp [hname c hc]
      · simp
      · rcases mem_trimEndMatches (c := '=') hc with hc | rfl
        · simp [hdata c hc]
        · simp

theorem forM_checkKey : ∀ {keys : List String},
    keys.forM checkKey = .ok () ↔ ∀ k ∈ keys, checkKey k = .ok ()
  | [] => by simp [List.forM, pure, Except.pure]
  | k :: ks => by
    have hrec := @forM_checkKey ks
    have hcons : (k :: ks).forM checkKey = (checkKey k >>= fun _ => ks.forM checkKey) := rfl
    rw [hcons]
    cases hk : checkKey k with
    | error e => simp [bind, Except.bind, hk]
    | ok u => simpa [bind, Except.bind, hk] using hrec

/-- What an accepted document holds. -/
theorem Discovery.check_ok {net : Net} {discovery : Discovery}
    (h : discovery.check net = .ok ()) :
    (∀ puller, discovery.pullerEndpoint = some puller →
      checkUrl net "puller_endpoint" puller = .ok ()) ∧
    (∀ k ∈ discovery.publicKeys, checkKey k = .ok ()) ∧
    (∀ oidc, discovery.oidc = some oidc → checkUrl net "oidc.issuer" oidc.issuer = .ok ()) := by
  obtain ⟨doidc, keys, puller⟩ := discovery
  -- what follows the check of the puller URL
  have hrest : ∀ {rest : Except CheckError Unit}, (keys.forM checkKey >>= fun _ => rest) = .ok () →
      (∀ k ∈ keys, checkKey k = .ok ()) ∧ rest = .ok () := by
    intro rest hr
    obtain ⟨_, hkeys, hoidc⟩ := bind_eq_ok.mp hr
    exact ⟨forM_checkKey.mp hkeys, hoidc⟩
  have hissuer : ∀ {oidc : Discovery.Oidc} {rest : Except CheckError Unit},
      (checkUrl net "oidc.issuer" oidc.issuer >>= fun _ => rest) = .ok () →
      checkUrl net "oidc.issuer" oidc.issuer = .ok () := by
    intro oidc rest hr
    obtain ⟨_, hurl, -⟩ := bind_eq_ok.mp hr
    exact hurl
  unfold Discovery.check at h
  cases puller with
  | none =>
    obtain ⟨hkeys, hoidc⟩ := hrest h
    refine ⟨fun p hp => absurd hp (by simp), hkeys, ?_⟩
    rintro oidc rfl
    exact hissuer hoidc
  | some p =>
    obtain ⟨_, hpuller, h⟩ := bind_eq_ok.mp h
    obtain ⟨hkeys, hoidc⟩ := hrest h
    refine ⟨?_, hkeys, ?_⟩
    · intro q hq
      obtain rfl : p = q := Option.some.inj hq
      exact hpuller
    · rintro oidc rfl
      exact hissuer hoidc

end Garret
