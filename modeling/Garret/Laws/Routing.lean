import Garret.Auth.Issuer

/-!
# The order of the configured issuers

`Authenticator::route` hands a token to the first entry of its issuer, so the verdict is that
entry's alone (`accepts_iff`). The order of the entries is immaterial exactly when the entries of
the token's issuer agree about it (`order_free_iff`), for instance when no two entries name the same
issuer (`order_free_of_distinct`). `PusherConfig::validate` looks at each entry alone, and lets
through two entries of one issuer that disagree (`validated_issuers_depend_on_order`).
-/

namespace Garret.Auth

variable {κ : Type} {jwt : Jwt κ} {issuers : List (Issuer κ)} {token : String} {i : Issuer κ}

/-- The JWKS of the entry does not change: it is what is cached, or nothing is cached yet and the
fetch succeeds. -/
structure Issuer.Fixed (i : Issuer κ) : Prop where
  cached : i.cached = i.jwks ∨ i.cached = (fun _ => none) ∧ i.refresh = some (.ok ())
  refreshed : i.refreshed = i.jwks

/-- The entry is one of the token's issuer. -/
def Routes (jwt : Jwt κ) (token : String) (i : Issuer κ) : Prop :=
  unverifiedIssuer jwt token = .ok i.cfg.issuer

/-- The entry holds a key for the token's kid under which the token validates for the entry's
audiences, and every gate passes. -/
def Admits (jwt : Jwt κ) (token : String) (i : Issuer κ) : Prop :=
  ∃ kid key claims, jwt.decodeHeader token = .ok (some kid) ∧ i.jwks kid = some key ∧
    jwt.decode token key (validationFor i.cfg) = .ok claims ∧ authorize i.cfg claims = .ok ()

/-- `check` accepts the token. -/
def Accepts (jwt : Jwt κ) (issuers : List (Issuer κ)) (token : String) : Prop :=
  ∃ subject, (check jwt issuers token).2 = .ok subject

/-- Whatever the order of the entries, the verdict is the same, and it is acceptance exactly when
some entry of the token's issuer admits the token. -/
def OrderFree (jwt : Jwt κ) (issuers : List (Issuer κ)) (token : String) : Prop :=
  (∀ l, issuers.Perm l → (Accepts jwt issuers token ↔ Accepts jwt l token)) ∧
    (Accepts jwt issuers token ↔ ∃ i ∈ issuers, Routes jwt token i ∧ Admits jwt token i)

/-! ## One entry -/

theorem kidOf_ok_iff {kid : String} :
    kidOf jwt token = .ok kid ↔ jwt.decodeHeader token = .ok (some kid) := by
  unfold kidOf
  cases jwt.decodeHeader token with
  | error e => simp
  | ok o => cases o <;> simp

/-- With a fixed JWKS, the key is the one it holds, fetched again or not. -/
theorem Issuer.key_ok_iff (hf : i.Fixed) {kid : String} {key : κ} :
    i.key kid = .ok key ↔ i.jwks kid = some key := by
  unfold Issuer.key
  rw [hf.refreshed]
  rcases hf.cached with hc | ⟨hc, hr⟩
  · rw [hc]
    cases i.jwks kid with
    | some k => simp
    | none =>
      cases i.refresh with
      | none => simp
      | some r => cases r <;> simp
  · rw [hc, hr]
    cases i.jwks kid <;> simp

/-- **An entry accepts what it admits.** -/
theorem verify_ok_iff (hf : i.Fixed) :
    (∃ subject, verify jwt i token = .ok subject) ↔ Admits jwt token i := by
  constructor
  · rintro ⟨subject, h⟩
    unfold verify at h
    cases hkid : kidOf jwt token with
    | error e => simp [hkid, bind, Except.bind] at h
    | ok kid =>
      cases hkey : i.key kid with
      | error e => simp [hkid, hkey, bind, Except.bind] at h
      | ok key =>
        cases hdec : jwt.decode token key (validationFor i.cfg) with
        | error e => simp [hkid, hkey, hdec, bind, Except.bind, Except.mapError] at h
        | ok claims =>
          cases hauth : authorize i.cfg claims with
          | error e => simp [hkid, hkey, hdec, hauth, bind, Except.bind, Except.mapError] at h
          | ok u =>
            exact ⟨kid, key, claims, kidOf_ok_iff.mp hkid, (i.key_ok_iff hf).mp hkey, hdec, hauth⟩
  · rintro ⟨kid, key, claims, hkid, hkey, hdec, hauth⟩
    refine ⟨⟨claims.iss ++ "#" ++ claims.sub⟩, ?_⟩
    simp [verify, kidOf_ok_iff.mpr hkid, (i.key_ok_iff hf).mpr hkey, hdec, hauth, bind,
      Except.bind, Except.mapError, pure, Except.pure]

/-! ## The list -/

/-- A token is routed to an entry of its issuer. -/
theorem routes_of_route (h : route jwt issuers token = .ok i) :
    i ∈ issuers ∧ Routes jwt token i := by
  unfold route at h
  cases hiss : unverifiedIssuer jwt token with
  | error e => simp [hiss] at h
  | ok name =>
    cases hfind : issuers.find? fun j => decide (j.cfg.issuer = name) with
    | none => simp [hiss, hfind] at h
    | some j =>
      simp only [hiss, hfind, Except.ok.injEq] at h
      subst h
      have hname : j.cfg.issuer = name := by simpa using List.find?_some hfind
      exact ⟨List.mem_of_find?_eq_some hfind, by rw [Routes, hiss, hname]⟩

/-- A token of a configured issuer is routed. -/
theorem route_of_mem (hi : i ∈ issuers) (hr : Routes jwt token i) :
    ∃ j, route jwt issuers token = .ok j := by
  unfold route
  rw [hr]
  cases hfind : issuers.find? fun j => decide (j.cfg.issuer = i.cfg.issuer) with
  | none => exact absurd (decide_eq_true rfl) (List.find?_eq_none.mp hfind i hi)
  | some j => exact ⟨j, by simp [hfind]⟩

/-- An entry of the token's issuer that stands first gets the token. -/
theorem route_cons (hr : Routes jwt token i) : route jwt (i :: issuers) token = .ok i := by
  unfold route
  rw [hr]
  simp

/-- **The verdict is that of the entry the token is routed to.** -/
theorem accepts_iff (hf : ∀ i ∈ issuers, i.Fixed) : Accepts jwt issuers token ↔
    ∃ i, route jwt issuers token = .ok i ∧ Admits jwt token i := by
  unfold Accepts check
  cases hroute : route jwt issuers token with
  | error e => simp
  | ok i => simpa using verify_ok_iff (hf i (routes_of_route hroute).1)

/-- Entries of the token's issuer that agree come in any order. -/
theorem order_free_of_agree (hf : ∀ i ∈ issuers, i.Fixed)
    (hagree : ∀ i ∈ issuers, ∀ j ∈ issuers, Routes jwt token i → Routes jwt token j →
      (Admits jwt token i ↔ Admits jwt token j)) : OrderFree jwt issuers token := by
  have hiff : ∀ l : List (Issuer κ), issuers.Perm l →
      (Accepts jwt l token ↔ ∃ i ∈ issuers, Routes jwt token i ∧ Admits jwt token i) := by
    intro l hp
    have hfl : ∀ i ∈ l, i.Fixed := fun i hi => hf i (hp.mem_iff.mpr hi)
    constructor
    · intro h
      obtain ⟨i, hroute, ha⟩ := (accepts_iff hfl).mp h
      obtain ⟨hi, hr⟩ := routes_of_route hroute
      exact ⟨i, hp.mem_iff.mpr hi, hr, ha⟩
    · rintro ⟨i, hi, hr, ha⟩
      obtain ⟨j, hroute⟩ := route_of_mem (hp.mem_iff.mp hi) hr
      obtain ⟨hj, hrj⟩ := routes_of_route hroute
      exact (accepts_iff hfl).mpr ⟨j, hroute, (hagree i hi j (hp.mem_iff.mpr hj) hr hrj).mp ha⟩
  constructor
  · intro l hp
    rw [hiff issuers (List.Perm.refl _), hiff l hp]
  · exact hiff issuers (List.Perm.refl _)

/-- Entries of pairwise distinct issuers come in any order. -/
theorem order_free_of_distinct (hf : ∀ i ∈ issuers, i.Fixed)
    (hd : (issuers.map fun i => i.cfg.issuer).Nodup) : OrderFree jwt issuers token := by
  refine order_free_of_agree hf fun i hi j hj hri hrj => ?_
  have he : i.cfg.issuer = j.cfg.issuer := Except.ok.inj (hri.symm.trans hrj)
  rw [List.inj_on_of_nodup_map hd hi hj he]

/-- **The order of the issuers does not matter to a token exactly when the entries of its issuer
agree about it.** -/
theorem order_free_iff (jwt : Jwt κ) (issuers : List (Issuer κ)) (token : String)
    (hf : ∀ i ∈ issuers, i.Fixed) : OrderFree jwt issuers token ↔
      ∀ i ∈ issuers, ∀ j ∈ issuers, Routes jwt token i → Routes jwt token j →
        (Admits jwt token i ↔ Admits jwt token j) := by
  constructor
  · rintro ⟨hperm, -⟩ i hi j hj hri hrj
    -- any entry of the token's issuer decides once it stands first
    have hfirst : ∀ k ∈ issuers, Routes jwt token k →
        (Accepts jwt issuers token ↔ Admits jwt token k) := by
      intro k hk hr
      obtain ⟨s, t, rfl⟩ := List.append_of_mem hk
      have hp : (s ++ k :: t).Perm (k :: (s ++ t)) := List.perm_middle
      rw [hperm _ hp, accepts_iff fun m hm => hf m (hp.mem_iff.mpr hm), route_cons hr]
      simp
    rw [← hfirst i hi hri, hfirst j hj hrj]
  · exact order_free_of_agree hf

/-! ## Two entries of one issuer -/

namespace TwoEntries

/-- The token's claims: its subject is in no group. -/
def claims : Claims := { iss := "https://id.example", sub := "me" }

/-- `{"alg":"RS256","kid":"k"}` and `{"iss":"https://id.example","sub":"me","aud":"garret",
"exp":4102444800}`, signed. -/
def idToken : String :=
  "eyJhbGciOiJSUzI1NiIsImtpZCI6ImsifQ.eyJpc3MiOiJodHRwczovL2lkLmV4YW1wbGUiLCJzdWIiOiJtZSIsImF1ZC" ++
    "I6ImdhcnJldCIsImV4cCI6NDEwMjQ0NDgwMH0.c2ln"

/-- The libraries on that token: it validates under the issuer's key for its own audience. -/
def libs : Jwt Unit where
  onlyIss _ := .ok "https://id.example"
  decodeHeader _ := .ok (some "k")
  decode _ _ v :=
    if "https://id.example" ∈ v.iss ∧ "garret" ∈ v.aud then .ok claims else .error "InvalidAudience"

/-- `Url::parse` on the issuer's URL. -/
def parse : UrlParser := fun url =>
  if url = "https://id.example" then some ⟨"https", some "id.example"⟩ else none

/-- An entry of the issuer, its keys cached. -/
def entry (cfg : IssuerConfig) : Issuer Unit where
  cfg := cfg
  jwks kid := if kid = "k" then some () else none
  cached kid := if kid = "k" then some () else none
  expired := false
  refresh := none
  refreshed kid := if kid = "k" then some () else none

/-- Everyone with the audience. -/
def everyone : Issuer Unit := entry { issuer := "https://id.example", audience := "garret" }

/-- The group `admins` only. -/
def admins : Issuer Unit :=
  entry { issuer := "https://id.example", audience := "garret", allowedGroups := ["admins"] }

/-- Everyone with the audience, the second of two. -/
def runners : Issuer Unit :=
  entry { issuer := "https://id.example", audience := "garret-ci", extraAudiences := ["garret"] }

/-- Another issuer. -/
def strangers : Issuer Unit :=
  entry { issuer := "https://other.example", audience := "garret", allowedGroups := ["admins"] }

theorem entry_fixed (cfg : IssuerConfig) : (entry cfg).Fixed := ⟨Or.inl rfl, rfl⟩

theorem fixed : ∀ i ∈ [everyone, admins], i.Fixed := by
  intro i hi
  simp only [List.mem_cons, List.not_mem_nil, or_false] at hi
  rcases hi with rfl | rfl <;> exact entry_fixed _

end TwoEntries

/-- Two entries of the token's issuer that differ and agree about the token, and one of another
issuer that takes nobody: in any order the token is accepted. -/
theorem order_free_iff_agreeing :
    OrderFree TwoEntries.libs [TwoEntries.everyone, TwoEntries.strangers, TwoEntries.runners]
      TwoEntries.idToken ∧
    Accepts TwoEntries.libs [TwoEntries.strangers, TwoEntries.runners, TwoEntries.everyone]
      TwoEntries.idToken := by
  have hfree : OrderFree TwoEntries.libs
      [TwoEntries.everyone, TwoEntries.strangers, TwoEntries.runners] TwoEntries.idToken := by
    refine (order_free_iff TwoEntries.libs
      [TwoEntries.everyone, TwoEntries.strangers, TwoEntries.runners] TwoEntries.idToken
      ?_).mpr ?_
    · simpa using ⟨TwoEntries.entry_fixed _, TwoEntries.entry_fixed _, TwoEntries.entry_fixed _⟩
    · have hboth : ∀ i ∈ [TwoEntries.everyone, TwoEntries.strangers, TwoEntries.runners],
          Routes TwoEntries.libs TwoEntries.idToken i →
            Admits TwoEntries.libs TwoEntries.idToken i := by
        intro i hi hr
        simp only [List.mem_cons, List.not_mem_nil, or_false] at hi
        rcases hi with rfl | rfl | rfl
        · exact ⟨"k", (), TwoEntries.claims, by decide +kernel⟩
        · exact absurd hr (by unfold Routes; decide +kernel)
        · exact ⟨"k", (), TwoEntries.claims, by decide +kernel⟩
      exact fun i hi j hj hri hrj => iff_of_true (hboth i hi hri) (hboth j hj hrj)
  have hrotated : [TwoEntries.everyone, TwoEntries.strangers, TwoEntries.runners].Perm
      [TwoEntries.strangers, TwoEntries.runners, TwoEntries.everyone] :=
    (List.perm_append_comm : ([TwoEntries.everyone] ++ _).Perm _)
  exact ⟨hfree, (hfree.1 _ hrotated).mp ⟨⟨"https://id.example#me"⟩, by decide +kernel⟩⟩

/-- **Two entries of one issuer pass validation, and their order decides.** -/
theorem validated_issuers_depend_on_order :
    ¬ ∀ (issuers : List (Issuer Unit)), (∀ i ∈ issuers, i.Fixed) →
      validateIssuers TwoEntries.parse (issuers.map Issuer.cfg) = .ok () →
      OrderFree TwoEntries.libs issuers TwoEntries.idToken := by
  intro hall
  have hfree := hall [TwoEntries.everyone, TwoEntries.admins] TwoEntries.fixed (by decide +kernel)
  have hswap := hfree.1 [TwoEntries.admins, TwoEntries.everyone] (List.Perm.swap _ _ _)
  have hyes : Accepts TwoEntries.libs [TwoEntries.everyone, TwoEntries.admins]
      TwoEntries.idToken := ⟨⟨"https://id.example#me"⟩, by decide +kernel⟩
  obtain ⟨subject, hno⟩ := hswap.mp hyes
  have hrefused : (check TwoEntries.libs [TwoEntries.admins, TwoEntries.everyone]
      TwoEntries.idToken).2 = .error ⟨.unauthorized .group, .inr .notInGroup⟩ := by
    decide +kernel
  rw [hrefused] at hno
  exact absurd hno (by simp)

end Garret.Auth
