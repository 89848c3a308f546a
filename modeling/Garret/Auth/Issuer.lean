import Garret.Url
import Garret.Auth.Keys

/-!
# Validating a token against an issuer

Model of `IssuerConfig`, `IssuerConfig::validate` and the part of `PusherConfig::validate` that
looks at the issuers (`crates/garret-server/src/config.rs`), and of `Authenticator::check`, `route`,
`verify` and `authorize` (`crates/garret-server/src/auth.rs`).

* `Jwt` holds what the token libraries do: base64 and JSON of the payload's `iss`, `decode_header`,
  and `decode` with its signature and claim checks. What the code asks of `decode` is a
  `Validation`.
* An `Issuer` is a configured entry with what one call of `verify` finds there: the cached keys,
  whether they are expired, what `refresh` gives, and the keys cached after it.
* Times, labels and counters of the metrics are left out; a refusal is its outcome and the reason
  for the log.
-/

namespace Garret.Auth

open Garret.Jwks (KeySet)

/-! ## The configuration -/

/-- `IssuerConfig`, less `client_id`, which only discovery reads. -/
structure IssuerConfig where
  issuer : String
  audience : String
  extraAudiences : List String := []
  jwksUrl : Option String := none
  githubOwnerId : Option String := none
  refPatterns : List String := []
  refProtected : Option Bool := none
  repositoryIds : List String := []
  eventNames : List String := []
  jobWorkflowRefs : List String := []
  allowedGroups : List String := []
  deriving DecidableEq

/-- `GITHUB_ISSUER`. -/
def githubIssuer : String := "https://token.actions.githubusercontent.com"

/-- `is_remote_url`. -/
def isRemoteUrl (url : String) : Bool := startsWith "http://" url || startsWith "https://" url

/-- `check_remote_url`. -/
def checkRemoteUrl (parse : UrlParser) (url : String) : Except String Unit :=
  match parse url with
  | none => .error ("invalid URL " ++ url)
  | some u =>
    if u.scheme = "https" ∧ u.host.isSome then .ok ()
    else if u.scheme = "http" ∧ u.host ∈ [some "localhost", some "127.0.0.1", some "[::1]"] then
      .ok ()
    else .error (url ++ " must be https (http only for loopback hosts)")

/-- `IssuerConfig::validate`. -/
def IssuerConfig.validate (parse : UrlParser) (c : IssuerConfig) : Except String Unit :=
  if c.audience = "" then .error ("issuer " ++ c.issuer ++ ": audience must not be empty")
  else if c.issuer = githubIssuer ∧ c.githubOwnerId = none ∧ c.repositoryIds = [] then
    .error ("issuer " ++ githubIssuer ++ " needs github_owner_id or repository_ids: " ++
      "any GitHub repository can mint a token for this audience")
  else
    match c.jwksUrl with
    | some url => if isRemoteUrl url then checkRemoteUrl parse url else .ok ()
    | none => checkRemoteUrl parse c.issuer

/-- What `PusherConfig::validate` requires of its `oidc` entries. -/
def validateIssuers (parse : UrlParser) (oidc : List IssuerConfig) : Except String Unit :=
  if oidc = [] then
    .error ("oidc: at least one issuer is required; " ++
      "garret has no auth-disable mode (spec 04)")
  else oidc.forM fun c => c.validate parse

/-! ## The policy of an issuer -/

/-- `Claims`. -/
structure Claims where
  iss : String
  sub : String
  groups : List String := []
  refProtected : Option String := none
  repositoryOwnerId : Option String := none
  gitRef : Option String := none
  repositoryId : Option String := none
  eventName : Option String := none
  jobWorkflowRef : Option String := none
  repository : Option String := none
  deriving DecidableEq

/-- `Gate`. -/
inductive Gate where
  | owner | ref | refProtected | repositoryId | eventName | jobWorkflowRef | group
  deriving DecidableEq

/-- `Gate::as_str`. -/
def Gate.asStr : Gate → String
  | .owner => "owner"
  | .ref => "ref"
  | .refProtected => "ref_protected"
  | .repositoryId => "repository_id"
  | .eventName => "event_name"
  | .jobWorkflowRef => "job_workflow_ref"
  | .group => "group"

/-- Why a gate refused. -/
inductive Reason where
  /-- `token has no {claim}` -/
  | absent (claim : String)
  /-- `{what} {value:?} is not authorized` -/
  | notAuthorized (what value : String)
  /-- `job_workflow_ref {value:?} is not from the token's repository` -/
  | foreign (value : String)
  /-- `subject is not in an allowed group` -/
  | notInGroup
  deriving DecidableEq

/-- `ref_matches`: a trailing `*` matches any rest. -/
def refMatches (pattern gitRef : String) : Bool :=
  if pattern.toList.getLast? = some '*' then
    startsWith (String.ofList pattern.toList.dropLast) gitRef
  else decide (pattern = gitRef)

/-- `allowlisted`: an empty list is off; a configured one refuses an absent claim. -/
def allowlisted (allowed : List String) (claim : Option String) (gate : Gate)
    (test : String → String → Bool) : Except (Gate × Reason) Unit :=
  if allowed = [] then .ok ()
  else
    match claim with
    | none => .error (gate, .absent gate.asStr)
    | some value =>
      if allowed.any fun a => test a value then .ok ()
      else .error (gate, .notAuthorized gate.asStr value)

/-- A claim that must have one value, where the configuration names one. -/
def required (expected claim : Option String) (gate : Gate) (name what : String) :
    Except (Gate × Reason) Unit :=
  match expected with
  | none => .ok ()
  | some e =>
    match claim with
    | none => .error (gate, .absent name)
    | some actual => if actual = e then .ok () else .error (gate, .notAuthorized what actual)

/-- The job's workflow file must be one of the token's own repository. -/
def ownWorkflow (c : IssuerConfig) (claims : Claims) : Except (Gate × Reason) Unit :=
  if c.jobWorkflowRefs = [] then .ok ()
  else
    match claims.jobWorkflowRef with
    | none => .ok ()
    | some jwr =>
      match claims.repository with
      | none => .error (.jobWorkflowRef, .absent "repository")
      | some repository =>
        if ((stripPrefix repository jwr).bind (stripPrefix "/")).isSome then .ok ()
        else .error (.jobWorkflowRef, .foreign jwr)

/-- The subject must be in an allowed group, where any is configured. -/
def inGroup (c : IssuerConfig) (claims : Claims) : Except (Gate × Reason) Unit :=
  if c.allowedGroups ≠ [] ∧ ¬ claims.groups.any (fun g => decide (g ∈ c.allowedGroups)) then
    .error (.group, .notInGroup)
  else .ok ()

/-- `authorize`. -/
def authorize (c : IssuerConfig) (claims : Claims) : Except (Gate × Reason) Unit := do
  required c.githubOwnerId claims.repositoryOwnerId .owner "repository_owner_id" "repository owner"
  allowlisted c.refPatterns claims.gitRef .ref refMatches
  required (c.refProtected.map fun b => if b then "true" else "false") claims.refProtected
    .refProtected "ref_protected" "ref protection status"
  allowlisted c.repositoryIds claims.repositoryId .repositoryId fun a b => decide (a = b)
  allowlisted c.eventNames claims.eventName .eventName fun a b => decide (a = b)
  allowlisted c.jobWorkflowRefs claims.jobWorkflowRef .jobWorkflowRef refMatches
  ownWorkflow c claims
  inGroup c claims

/-! ## Tokens -/

/-- `LEEWAY_SECS`. -/
def leewaySecs : ℕ := 60

/-- The checks `jsonwebtoken::decode` is asked for, RS256 signatures apart. -/
structure Validation where
  iss : List String
  aud : List String
  leeway : ℕ
  requiredSpecClaims : List String
  validateNbf : Bool
  deriving DecidableEq

/-- `validation_for`. -/
def validationFor (c : IssuerConfig) : Validation where
  iss := [c.issuer]
  aud := c.audience :: c.extraAudiences
  leeway := leewaySecs
  requiredSpecClaims := ["exp", "aud", "iss"]
  validateNbf := true

/-- What the token libraries read out of a token. -/
structure Jwt (κ : Type) where
  /-- The `iss` of a base64url payload segment. -/
  onlyIss : String → Except String String
  /-- `decode_header(token)`: its `kid`. -/
  decodeHeader : String → Except String (Option String)
  /-- `decode::<Claims>(token, key, validation)`. -/
  decode : String → κ → Validation → Except String Claims

/-- `Outcome`, of the refusals. -/
inductive Outcome where
  | malformed | untrustedIssuer | unknownKey | jwksUnavailable | invalid
  | unauthorized (gate : Gate)
  deriving DecidableEq

/-- `Refusal`: the outcome, and what the reason for the log says. -/
structure Refusal where
  outcome : Outcome
  error : String ⊕ Reason
  deriving DecidableEq

/-- `Subject`: `<issuer>#<sub>`. -/
structure Subject where
  name : String
  deriving DecidableEq

/-- A configured issuer, with what one call of `verify` finds there. -/
structure Issuer (κ : Type) where
  cfg : IssuerConfig
  /-- The JWKS the issuer publishes. -/
  jwks : KeySet κ
  /-- The cached set, and whether it is expired. -/
  cached : KeySet κ
  expired : Bool
  /-- What `refresh` gives, awaited: nothing while the floor holds. -/
  refresh : Option (Except String Unit)
  /-- The cached set after that. -/
  refreshed : KeySet κ

variable {κ : Type}

/-- `unverified_issuer`. -/
def unverifiedIssuer (jwt : Jwt κ) (token : String) : Except String String :=
  match (token.toList.splitOn '.')[1]? with
  | none => .error "malformed token"
  | some payload => jwt.onlyIss (String.ofList payload)

/-- `Authenticator::route`: the first entry of the token's issuer. -/
def route (jwt : Jwt κ) (issuers : List (Issuer κ)) (token : String) :
    Except Refusal (Issuer κ) :=
  match unverifiedIssuer jwt token with
  | .error e => .error ⟨.malformed, .inl e⟩
  | .ok name =>
    match issuers.find? fun i => decide (i.cfg.issuer = name) with
    | some i => .ok i
    | none => .error ⟨.untrustedIssuer, .inl "untrusted issuer"⟩

/-- The token's `kid`, which it must have. -/
def kidOf (jwt : Jwt κ) (token : String) : Except Refusal String :=
  match jwt.decodeHeader token with
  | .error _ => .error ⟨.malformed, .inl "malformed token header"⟩
  | .ok none => .error ⟨.malformed, .inl "token has no kid"⟩
  | .ok (some kid) => .ok kid

/-- The key `verify` uses: the cached one, or else the one cached after a refetch. -/
def Issuer.key (i : Issuer κ) (kid : String) : Except Refusal κ :=
  match i.cached kid with
  | some key => .ok key
  | none =>
    match i.refresh with
    | some (.error e) => .error ⟨.jwksUnavailable, .inl e⟩
    | _ =>
      match i.refreshed kid with
      | some key => .ok key
      | none => .error ⟨.unknownKey, .inl ("no signing key for kid " ++ kid)⟩

/-- `Authenticator::verify`. -/
def verify (jwt : Jwt κ) (i : Issuer κ) (token : String) : Except Refusal Subject := do
  let kid ← kidOf jwt token
  let key ← i.key kid
  let claims ← (jwt.decode token key (validationFor i.cfg)).mapError
    fun _ => ⟨.invalid, .inl "token failed validation"⟩
  (authorize i.cfg claims).mapError fun e => ⟨.unauthorized e.1, .inr e.2⟩
  return ⟨claims.iss ++ "#" ++ claims.sub⟩

/-- `Authenticator::check`: the verdict, under the issuer's label. -/
def check (jwt : Jwt κ) (issuers : List (Issuer κ)) (token : String) :
    String × Except Refusal Subject :=
  match route jwt issuers token with
  | .ok i => (i.cfg.issuer, verify jwt i token)
  | .error refusal => ("unknown", .error refusal)

end Garret.Auth
