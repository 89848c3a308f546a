import Garret.Client.Discovery
import Garret.Lib.Toml

/-!
# The client config

Model of `Config`, `load`, `validate` and `render` (`crates/garret-client/src/config.rs`), and of
`drift` (`crates/garret-client/src/doctor.rs`).

* The file is TOML (`Lib.Toml`); how its strings are quoted and read is the parameter `t`.
* `load` is given the text of the file, if there is one, and `GARRET_ENDPOINT`, if it is set; it
  reads nothing else.
* Unknown keys, keys and tables given twice, and values of another type are refused.
-/

namespace Garret

open Garret.Lib Garret.Lib.Toml

/-- `Oidc`. -/
structure Config.Oidc where
  issuer : Option String
  clientId : Option String
  clientSecretFile : Option String
  audience : String
  resource : Option String
  deriving DecidableEq, Repr

/-- `Watch`, with its defaults. -/
structure Config.Watch where
  nixDb : String := "/nix/var/nix/db/db.sqlite"
  cursorPath : String := "/var/lib/garret/watcher-cursor"
  pollIntervalSecs : ℕ := 30
  upstreamKeys : Option (List String) := none
  excludePatterns : List String := []
  maxAttempts : ℕ := 5
  socketPath : String := "/run/garret/watch.sock"
  deriving DecidableEq, Repr

/-- `Config`. -/
structure Config where
  endpoint : String
  oidc : Config.Oidc
  jobs : ℕ
  zstdLevel : ℤ
  maxRetries : ℕ
  uploadIdleSecs : ℕ
  pullerEndpoint : Option String
  publicKeys : List String
  upstreamKeys : List String
  watch : Config.Watch
  deriving DecidableEq, Repr

namespace Config

/-- `jobs`. -/
def defaultJobs : ℕ := 8

/-- `zstd_level`. -/
def defaultZstdLevel : ℤ := 3

/-- `max_retries`. -/
def defaultMaxRetries : ℕ := 5

/-- `upload_idle_secs`. -/
def defaultUploadIdleSecs : ℕ := 5 * 60

/-- `upstream_keys`. -/
def defaultUpstreamKeys : List String := ["cache.nixos.org-1"]

/-- Why a config is refused. -/
inductive Error where
  /-- `no config at {path} — run garret login <pusher-url> to create one`. -/
  | missing
  /-- `parsing client config`. -/
  | parsing
  /-- `{key} must be at least 1`. -/
  | zero (key : String)
  | check (e : CheckError)
  deriving DecidableEq, Repr

/-! ## Reading the file -/

/-- The entries of a table. -/
abbrev Entries := List (String × Value)

/-- The entries before the first table, and those of each table. -/
def sections : List Item → Entries × List (String × Entries)
  | [] => ([], [])
  | .entry key value :: items => ((key, value) :: (sections items).1, (sections items).2)
  | .table name :: items => ([], (name, (sections items).1) :: (sections items).2)

/-- A string. -/
def readStr : Value → Option String
  | .str s => some s
  | _ => none

/-- A list of strings. -/
def readStrs : Value → Option (List String)
  | .strs l => some l
  | _ => none

/-- An unsigned integer below `bound`. -/
def readNat (bound : ℕ) : Value → Option ℕ
  | .int n => if 0 ≤ n ∧ n < bound then some n.toNat else none
  | _ => none

/-- An `i32`. -/
def readI32 : Value → Option ℤ
  | .int n => if -2 ^ 31 ≤ n ∧ n < 2 ^ 31 then some n else none
  | _ => none

/-- The value of a key, if it is given; `none` when it is of another type. -/
def field {α : Type} (read : Value → Option α) (entries : Entries) (key : String) :
    Option (Option α) :=
  match entries.lookup key with
  | none => some none
  | some value => (read value).map some

/-- `deny_unknown_fields`, and no key twice. -/
def known (keys : List String) (entries : Entries) : Bool :=
  entries.all (fun e => keys.contains e.1) && decide (entries.map (·.1)).Nodup

/-- `Oidc` from its table. -/
def Oidc.read (entries : Entries) : Option Oidc := do
  guard (known ["issuer", "client_id", "client_secret_file", "audience", "resource"] entries)
  let issuer ← field readStr entries "issuer"
  let clientId ← field readStr entries "client_id"
  let clientSecretFile ← field readStr entries "client_secret_file"
  let audience ← ← field readStr entries "audience"
  let resource ← field readStr entries "resource"
  some { issuer, clientId, clientSecretFile, audience, resource }

/-- `Watch` from its table. -/
def Watch.read (entries : Entries) : Option Watch := do
  guard (known ["nix_db", "cursor_path", "poll_interval_secs", "upstream_keys", "exclude_patterns",
    "max_attempts", "socket_path"] entries)
  let initial : Watch := {}
  let nixDb ← field readStr entries "nix_db"
  let cursorPath ← field readStr entries "cursor_path"
  let pollIntervalSecs ← field (readNat (2 ^ 64)) entries "poll_interval_secs"
  let upstreamKeys ← field readStrs entries "upstream_keys"
  let excludePatterns ← field readStrs entries "exclude_patterns"
  let maxAttempts ← field (readNat (2 ^ 32)) entries "max_attempts"
  let socketPath ← field readStr entries "socket_path"
  some {
    nixDb := nixDb.getD initial.nixDb
    cursorPath := cursorPath.getD initial.cursorPath
    pollIntervalSecs := pollIntervalSecs.getD initial.pollIntervalSecs
    upstreamKeys
    excludePatterns := excludePatterns.getD initial.excludePatterns
    maxAttempts := maxAttempts.getD initial.maxAttempts
    socketPath := socketPath.getD initial.socketPath }

/-- `Config` from the items of the file. -/
def ofItems (items : List Item) : Option Config := do
  let (top, tables) := sections items
  guard (known ["endpoint", "jobs", "zstd_level", "max_retries", "upload_idle_secs",
    "puller_endpoint", "public_keys", "upstream_keys"] top)
  guard (tables.all (fun table => ["oidc", "watch"].contains table.1) &&
    decide (tables.map (·.1)).Nodup)
  let endpoint ← ← field readStr top "endpoint"
  let oidc ← (← tables.lookup "oidc") |> Oidc.read
  let jobs ← field (readNat (2 ^ 64)) top "jobs"
  let zstdLevel ← field readI32 top "zstd_level"
  let maxRetries ← field (readNat (2 ^ 32)) top "max_retries"
  let uploadIdleSecs ← field (readNat (2 ^ 64)) top "upload_idle_secs"
  let pullerEndpoint ← field readStr top "puller_endpoint"
  let publicKeys ← field readStrs top "public_keys"
  let upstreamKeys ← field readStrs top "upstream_keys"
  let watch ← Watch.read ((tables.lookup "watch").getD [])
  some {
    endpoint, oidc, pullerEndpoint, watch
    jobs := jobs.getD defaultJobs
    zstdLevel := zstdLevel.getD defaultZstdLevel
    maxRetries := maxRetries.getD defaultMaxRetries
    uploadIdleSecs := uploadIdleSecs.getD defaultUploadIdleSecs
    publicKeys := publicKeys.getD []
    upstreamKeys := upstreamKeys.getD defaultUpstreamKeys }

/-- `toml::from_str`. -/
def fromStr (t : Strings) (text : String) : Option Config := (Toml.parse t text).bind ofItems

/-- `{key} must be at least 1`. -/
def atLeastOne (key : String) (n : ℕ) : Except Error Unit :=
  if 1 ≤ n then .ok () else .error (.zero key)

/-- `validate`. -/
def validate (cfg : Config) : Except Error Unit := do
  atLeastOne "jobs" cfg.jobs
  atLeastOne "upload_idle_secs" cfg.uploadIdleSecs
  atLeastOne "watch.poll_interval_secs" cfg.watch.pollIntervalSecs
  atLeastOne "watch.max_attempts" cfg.watch.maxAttempts

/-- `trim_trailing_slashes`. -/
def trimTrailingSlashes (url : String) : String :=
  String.ofList (trimEndMatches '/' url.toList)

/-- What `load` does to a parsed config: the override, and no trailing slashes. -/
def normalise (garretEndpoint : Option String) (cfg : Config) : Config :=
  { cfg with
    endpoint := trimTrailingSlashes (garretEndpoint.getD cfg.endpoint)
    pullerEndpoint := cfg.pullerEndpoint.map trimTrailingSlashes }

/-- The checks of `load`, which are those of the discovery document. -/
def checked (net : Net) (cfg : Config) : Except CheckError Unit := do
  checkUrl net "endpoint" cfg.endpoint
  cfg.pullerEndpoint.forM (checkUrl net "puller_endpoint")
  cfg.oidc.issuer.forM (checkUrl net "oidc.issuer")
  cfg.publicKeys.forM checkKey

/-- A value that is not given passes. -/
theorem forM_eq_ok {f : String → Except CheckError Unit} {o : Option String} :
    o.forM f = .ok () ↔ ∀ s, o = some s → f s = .ok () := by
  cases o with
  | none => simp [Option.forM, pure, Except.pure]
  | some s => simp [Option.forM]

theorem checked_eq_ok {net : Net} {cfg : Config} : cfg.checked net = .ok () ↔
    checkUrl net "endpoint" cfg.endpoint = .ok () ∧
    (∀ puller, cfg.pullerEndpoint = some puller → checkUrl net "puller_endpoint" puller = .ok ()) ∧
    (∀ issuer, cfg.oidc.issuer = some issuer → checkUrl net "oidc.issuer" issuer = .ok ()) ∧
    ∀ k ∈ cfg.publicKeys, checkKey k = .ok () := by
  have hunit : ∀ p : Unit → Prop, (∃ u, p u) ↔ p () := fun p =>
    ⟨fun ⟨_, hu⟩ => hu, fun hu => ⟨(), hu⟩⟩
  simp only [checked, bind_eq_ok, hunit, forM_eq_ok, forM_checkKey]

/-- `load`. -/
def load (t : Strings) (net : Net) (file garretEndpoint : Option String) : Except Error Config :=
  match file with
  | none => .error .missing
  | some text =>
    match fromStr t text with
    | none => .error .parsing
    | some cfg => do
      cfg.validate
      ((cfg.normalise garretEndpoint).checked net).mapError .check
      return cfg.normalise garretEndpoint

/-! ## Writing the file -/

/-- Why no config is written. -/
inductive RenderError where
  /-- `the server's discovery document has no oidc section: no issuer sets a client_id, so the
  device flow has nothing to identify itself as`. -/
  | noOidc
  /-- `the server advertised an issuer with no client_id, which garret login requires`. -/
  | noClientId
  deriving DecidableEq, Repr

/-- The line of the puller URL; a commented key is a better clue than an absent one. -/
def pullerText (t : Strings) : Option String → String
  | some puller => "puller_endpoint = " ++ t.quote puller ++ "\n"
  | none => "# puller_endpoint — the server advertised none; `use`/`list`/`tree` need it\n"

/-- The line of the keys. -/
def keysText (t : Strings) (keys : List String) : String :=
  if keys.isEmpty then "# public_keys — the server advertised none; `garret use` needs them\n"
  else "public_keys = [" ++ String.intercalate ", " (keys.map t.quote) ++ "]\n"

/-- The text `render` puts together; `t.quote` is `q`. -/
def written (t : Strings) (endpoint : String) (discovery : Discovery) (oidc : Discovery.Oidc)
    (clientId : String) : String :=
  "# Written by `garret login`. Re-run with --force to regenerate.\n" ++
  "endpoint = " ++ t.quote endpoint ++ "\n" ++ pullerText t discovery.pullerEndpoint ++
  keysText t discovery.publicKeys ++
  "\n[oidc]\nissuer = " ++ t.quote oidc.issuer ++ "\nclient_id = " ++ t.quote clientId ++
  "\naudience = " ++ t.quote oidc.audience ++ "\n" ++
  "\n# Optional: jobs = " ++ toString defaultJobs ++ ", zstd_level = " ++
  toString defaultZstdLevel ++ ", max_retries = " ++ toString defaultMaxRetries ++
  ",\n# upstream_keys = [" ++ String.intercalate ", " (defaultUpstreamKeys.map t.quote) ++
  "] (paths these keys sign are not pushed)\n"

/-- `render`. -/
def render (t : Strings) (endpoint : String) (discovery : Discovery) :
    Except RenderError String :=
  match discovery.oidc with
  | none => .error .noOidc
  | some oidc =>
    match oidc.clientId with
    | none => .error .noClientId
    | some clientId => .ok (written t endpoint discovery oidc clientId)

/-! ## What doctor compares -/

/-- A message of `drift`. -/
def drifted (what : String) (is : Option String) (advertised : String) : String :=
  what ++ " is " ++ is.getD "unset" ++ ", server advertises " ++ advertised

/-- One comparison of `drift`. -/
def compare (what : String) (is : Option String) (advertised : String) : List String :=
  if is ≠ some advertised then [drifted what is advertised] else []

/-- `drift`. -/
def drift (cfg : Config) (d : Discovery) (deviceFlow : Bool) : List String :=
  (match d.pullerEndpoint with
    | some advertised => compare "puller_endpoint" cfg.pullerEndpoint advertised
    | none => []) ++
  (match d.oidc with
    | some oidc =>
      if deviceFlow then
        compare "oidc.issuer" cfg.oidc.issuer oidc.issuer ++
        compare "oidc.audience" (some cfg.oidc.audience) oidc.audience ++
        (match oidc.clientId with
          | some clientId => compare "oidc.client_id" cfg.oidc.clientId clientId
          | none => [])
      else []
    | none => [])

end Config

end Garret
