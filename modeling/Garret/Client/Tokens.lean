import Garret.Integer
import Garret.Client.Retry
import Garret.Lib.Tasks

/-!
# The client's token source

Model of `TokenSource` (`crates/garret-client/src/auth.rs`) and of what it asks its issuer: any
number of `get` and `renew` calls on one source, interleaved at their awaits, any of which can be
dropped at an await. The mutex is `World.lock`.

* What a call reads of a token is `peek`, the parameter for `peek_claims`. `exp - iat` and the
  margin wrap as `i64` does in a release build (`declaredMaxAge`).
* The issuer keeps the refresh tokens it will accept (`live`) and the access tokens it has issued,
  with the time on the client's clock. Handling a request and its answer's arrival are two steps; an
  answer later than `tokenTimeout` after its request was sent is not read.
* Writing the token file has no await: `answered` is left in one step, and not dropped.
* Another process may log in, or refresh the stored token (`Event`).

`keeps` is the mutex: a call that mints holds it, and no two do. What the source promises on top of
that is in `Laws.Tokens`.
-/

namespace Garret.Tokens

open Garret.Lib

/-- The claims the client reads from a token it holds. -/
structure Claims where
  sub : Option String
  exp : Option Int
  iat : Option Int
  deriving DecidableEq, Repr

/-- `EXPIRY_MARGIN_SECS`. -/
def expiryMarginSecs : Int := 60

/-- `TOKEN_TIMEOUT`. -/
def tokenTimeout : ℕ := Client.secs 60

/-- A value that left `i64`, wrapped. -/
def wrapI64 (n : Int) : Int := n.bmod (2 ^ 64)

/-- `declared_max_age`, in nanoseconds. -/
def declaredMaxAge (peek : String → Option Claims) (token : String) : Option ℕ := do
  let claims ← peek token
  let exp ← claims.exp
  let iat ← claims.iat
  let usable := wrapI64 (wrapI64 (exp - iat) - expiryMarginSecs)
  some (Client.secs (max usable 0).toNat)

/-- A lifetime that fits an `i64` is held for its length less the margin. -/
theorem declaredMaxAge_eq {peek : String → Option Claims} {token : String} {claims : Claims}
    {exp iat : Int} (hc : peek token = some claims) (he : claims.exp = some exp)
    (hi : claims.iat = some iat) (h₀ : 0 ≤ exp - iat) (h₁ : exp - iat ≤ i64Max) :
    declaredMaxAge peek token = some (Client.secs (exp - iat - 60).toNat) := by
  have hwrap : ∀ n : Int, -60 ≤ n → n ≤ i64Max → wrapI64 n = n := by
    intro n hlo hhi
    unfold i64Max at hhi
    exact Int.bmod_eq_of_le_mul_two (by omega) (by omega)
  unfold declaredMaxAge
  simp only [hc, he, hi, Option.bind_eq_bind, Option.bind_some, expiryMarginSecs]
  rw [hwrap _ (by omega) h₁, hwrap _ (by omega) (by omega)]
  congr 2
  omega

/-- `StoredToken`. -/
structure StoredToken where
  refreshToken : String
  issuer : String
  clientId : String
  deriving DecidableEq, Repr

/-- What the token file holds. -/
inductive TokenFile where
  | absent
  | corrupt
  | stored (t : StoredToken)
  deriving DecidableEq, Repr

/-- Where a source gets its next token. -/
inductive Mint where
  | given (token : String)
  | github
  | stored
  | clientCredentials
  deriving DecidableEq, Repr

/-- `Held`. -/
structure Held where
  token : String
  minted : ℕ
  maxAge : Option ℕ
  deriving DecidableEq, Repr

/-- What calls and the issuer share. -/
structure World where
  /-- The call that holds the mutex. -/
  lock : Option ℕ
  held : Option Held
  file : TokenFile
  /-- The refresh tokens the issuer accepts. -/
  live : List String
  /-- The access tokens it has issued, and when. -/
  issued : List (String × ℕ)
  clock : ℕ

/-- A token endpoint's answer. -/
structure Answer where
  access : Option String
  refresh : Option String
  deriving DecidableEq, Repr

/-- How the issuer handled a request: with an answer, a 400 or 401, or any other failure. -/
inductive Reply where
  | answers (a : Answer)
  | denied
  | fails
  deriving DecidableEq, Repr

namespace World

/-- The issuer issues `a`; a new refresh token retires the one that was spent for it. -/
def issue (w : World) (spent : Option StoredToken) (a : Answer) : World :=
  { w with
    live := match spent, a.refresh with
      | some s, some r => r :: w.live.filter (· ≠ s.refreshToken)
      | _, _ => w.live
    issued := match a.access with
      | some t => (t, w.clock) :: w.issued
      | none => w.issued }

/-- The token file after `store_refresh_token`. -/
def save (w : World) (spent : Option StoredToken) (refresh : Option String) : World :=
  match spent, refresh with
  | some s, some r => { w with file := .stored { s with refreshToken := r } }
  | _, _ => w

/-- The source holds a new token. -/
def hold (w : World) (peek : String → Option Claims) (token : String) : World :=
  { w with held := some ⟨token, w.clock, declaredMaxAge peek token⟩ }

/-- The mutex is given back. -/
def unlock (w : World) : World := { w with lock := none }

end World

/-- What a caller asks for. -/
inductive Call where
  | get
  | renew (rejected : String)
  deriving DecidableEq, Repr

/-- Why a mint failed. -/
inductive Failure where
  /-- The token file cannot be read or written. -/
  | file
  | notLoggedIn
  | corrupt
  /-- Discovery or a request failed, or took too long. -/
  | request
  /-- `stored login expired or revoked; run garret login`. -/
  | expired
  | noAccessToken
  deriving DecidableEq, Repr

/-- How a call ended. -/
inductive Result where
  /-- Nothing can replace a given token. -/
  | stands
  /-- The token the source held already. -/
  | held (token : String)
  | minted (token : String)
  | failed (why : Failure)
  | dropped
  deriving DecidableEq, Repr

/-- Where a call stands; what it spends comes from the token file. -/
inductive Stage where
  | start
  | discover (spends : Option StoredToken)
  | post (spends : Option StoredToken) (sent : ℕ)
  /-- The issuer has handled the request, its answer is on the way. -/
  | replied (spends : Option StoredToken) (sent : ℕ) (reply : Reply)
  /-- The answer is read. -/
  | answered (spends : Option StoredToken) (a : Answer)
  | ended (r : Result)
  deriving DecidableEq, Repr

/-- A call under way. -/
structure Task where
  call : Call
  stage : Stage
  deriving DecidableEq, Repr

/-- What the outside decides in one step. -/
structure Outside where
  /-- The token file can be read and written. -/
  file : Bool
  /-- The request goes through, or the answer comes back. -/
  up : Bool
  /-- The issuer serves a request it need not deny, with this answer. -/
  serves : Bool
  answer : Answer
  /-- The caller drops the call. -/
  dropped : Bool

/-- The held token that settles a call without a mint. -/
def hit (w : World) : Call → Option String
  | .get =>
    w.held.bind fun h => if h.maxAge.all (w.clock - h.minted < ·) then some h.token else none
  | .renew rejected => w.held.bind fun h => if h.token ≠ rejected then some h.token else none

/-- How the issuer handles a token request: a refresh token it does not know is denied. -/
def handle (w : World) (o : Outside) (spends : Option StoredToken) : World × Reply :=
  if spends.all (·.refreshToken ∈ w.live) then
    if o.serves then (w.issue spends o.answer, .answers o.answer) else (w, .fails)
  else (w, .denied)

namespace Task

variable (mint : Mint) (peek : String → Option Claims)

/-- `get`, `renew`, `mint_into` and `refresh`, from one await to the next. -/
def step (me : ℕ) (w : World) (o : Outside) (t : Task) : Option (World × Task) :=
  let goes (w : World) (stage : Stage) := some (w, { t with stage := stage })
  match t.stage with
  | .start =>
    match mint, t.call with
    | .given _, .renew _ => goes w (.ended .stands)
    | _, _ =>
      if w.lock.isSome then none
      else
        match hit w t.call with
        | some token => goes w (.ended (.held token))
        | none =>
          match mint with
          | .given token => goes (w.hold peek token) (.ended (.minted token))
          | .github => goes { w with lock := some me } (.post none w.clock)
          | .clientCredentials => goes { w with lock := some me } (.discover none)
          | .stored =>
            if o.file then
              match w.file with
              | .absent => goes w (.ended (.failed .notLoggedIn))
              | .corrupt => goes w (.ended (.failed .corrupt))
              | .stored s => goes { w with lock := some me } (.discover (some s))
            else goes w (.ended (.failed .file))
  | .discover spends =>
    if o.up then goes w (.post spends w.clock) else goes w.unlock (.ended (.failed .request))
  | .post spends sent =>
    if o.up then
      let (w, reply) := handle w o spends
      goes w (.replied spends sent reply)
    else goes w.unlock (.ended (.failed .request))
  | .replied spends sent reply =>
    if o.up && decide (w.clock ≤ sent + tokenTimeout) then
      match reply with
      | .answers a => goes w (.answered spends a)
      -- only `refresh` reads a 400 or a 401 as the end of the login
      | .denied => goes w.unlock (.ended (.failed (if spends.isSome then .expired else .request)))
      | .fails => goes w.unlock (.ended (.failed .request))
    else goes w.unlock (.ended (.failed .request))
  | .answered spends a =>
    if spends.isSome && a.refresh.isSome && !o.file then goes w.unlock (.ended (.failed .file))
    else
      match a.access with
      | none => goes (w.save spends a.refresh).unlock (.ended (.failed .noAccessToken))
      | some token =>
        goes ((w.save spends a.refresh).hold peek token).unlock (.ended (.minted token))
  | .ended _ => none

/-- A call is dropped at an await; a request that was sent may be handled all the same. -/
def drop (w : World) (o : Outside) (t : Task) : Option (World × Task) :=
  let gone (w : World) := some (w, { t with stage := Stage.ended .dropped })
  match t.stage with
  | .start => gone w
  | .discover _ => gone w.unlock
  | .post spends _ => gone (if o.up then (handle w o spends).1 else w).unlock
  | .replied .. => gone w.unlock
  | .answered .. => none
  | .ended _ => none

end Task

/-- What happens besides the calls. -/
inductive Event where
  /-- Time passes, in nanoseconds. -/
  | tick (n : ℕ)
  /-- `garret login`, in another process. -/
  | login (t : StoredToken)
  /-- Another process refreshes the stored token. -/
  | refreshed (refresh : String)
  /-- The issuer no longer accepts this refresh token. -/
  | revoke (refresh : String)

/-- What an event does. -/
def Event.apply (w : World) : Event → Option World
  | .tick n => some { w with clock := w.clock + n }
  | .login t => some { w with file := .stored t, live := t.refreshToken :: w.live }
  | .refreshed refresh =>
    match w.file with
    | .stored s =>
      if s.refreshToken ∈ w.live then
        some ((w.issue (some s) ⟨none, some refresh⟩).save (some s) (some refresh))
      else none
    | _ => none
  | .revoke refresh => some { w with live := w.live.filter (· ≠ refresh) }

/-- One token source, its callers and its issuer. -/
def program (mint : Mint) (peek : String → Option Claims) : Program World Task Outside Event where
  initial t := decide (t.stage = .start)
  run me w o t := if o.dropped then t.drop w o else t.step mint peek me w o
  outside w e := e.apply w
  restart w _ := { w with lock := none, held := none }

/-- The states of a source. -/
abbrev State := Tasks World Task

/-- Its actions. -/
abbrev Act := Tasks.Act Task Outside Event

/-- A process that has just started. -/
def World.boot (file : TokenFile) (live : List String) : World := ⟨none, none, file, live, [], 0⟩

/-! ## The steps of a call -/

/-- The token a call came back with. -/
def Result.token? : Result → Option String
  | held token => some token
  | minted token => some token
  | _ => none

namespace Stage

/-- The token a call has come back with. -/
def token? : Stage → Option String
  | ended r => r.token?
  | _ => none

/-- The call holds the mutex. -/
def locked : Stage → Bool
  | start => false
  | ended _ => false
  | _ => true

/-- The stored token a call has read and not spent. -/
def unspent? : Stage → Option StoredToken
  | discover spends => spends
  | post spends _ => spends
  | _ => none

/-- The answer a call is to be given. -/
def answer? : Stage → Option (Option StoredToken × Answer)
  | replied spends _ (.answers a) => some (spends, a)
  | answered spends a => some (spends, a)
  | _ => none

/-- The refresh token that replaces the one spent, while it is in no file. -/
def rotated? (stage : Stage) : Option String :=
  stage.answer?.bind fun x => if x.1.isSome then x.2.refresh else none

/-- The access token on its way to the source. -/
def access? (stage : Stage) : Option String := stage.answer?.bind fun x => x.2.access

/-- In a step with `o`, no refresh token is lost between the issuer and the file. -/
def keeps (w : World) (o : Outside) : Stage → Bool
  | post spends _ => !(o.dropped && o.up && spends.isSome && o.answer.refresh.isSome)
  | replied spends sent reply => (replied spends sent reply).rotated?.isNone ||
    (!o.dropped && o.up && decide (w.clock ≤ sent + tokenTimeout))
  | answered spends a => (answered spends a).rotated?.isNone || o.file
  | _ => true

end Stage

/-- The steps of a call, one constructor each. -/
inductive Task.Stepped (mint : Mint) (peek : String → Option Claims) (me : ℕ) (w : World)
    (o : Outside) (t : Task) : World → Stage → Prop
  /-- The call is over before it takes the mutex. -/
  | leaves {r : Result} (hs : t.stage = .start) (hr : r.token? = none)
    (he : r ≠ .failed .expired) : Stepped mint peek me w o t w (.ended r)
  | hits {token : String} (hs : t.stage = .start) (hl : w.lock = none)
    (hh : hit w t.call = some token) : Stepped mint peek me w o t w (.ended (.held token))
  | gives {token : String} (hs : t.stage = .start) (hl : w.lock = none) (hm : mint = .given token)
    (hc : t.call = .get) : Stepped mint peek me w o t (w.hold peek token) (.ended (.minted token))
  | begins {stage : Stage} (hs : t.stage = .start) (hl : w.lock = none) (hh : hit w t.call = none)
    (hg : stage.locked = true) (hn : stage.answer? = none)
    (hu : ∀ s, stage.unspent? = some s → w.file = .stored s)
    (hp : ∀ spends sent, stage = .post spends sent → sent = w.clock)
    (hr : ∀ spends sent reply, stage ≠ .replied spends sent reply) :
    Stepped mint peek me w o t { w with lock := some me } stage
  | asks {spends : Option StoredToken} (hs : t.stage = .discover spends) :
    Stepped mint peek me w o t w (.post spends w.clock)
  | handled {spends : Option StoredToken} {sent : ℕ} (hs : t.stage = .post spends sent) :
    Stepped mint peek me w o t (w.issue spends o.answer) (.replied spends sent (.answers o.answer))
  | unserved {spends : Option StoredToken} {sent : ℕ} {reply : Reply}
    (hs : t.stage = .post spends sent) (ha : ∀ a, reply ≠ .answers a)
    (hd : reply = .denied → ¬ spends.all (·.refreshToken ∈ w.live)) :
    Stepped mint peek me w o t w (.replied spends sent reply)
  | reads {spends : Option StoredToken} {sent : ℕ} {a : Answer}
    (hs : t.stage = .replied spends sent (.answers a)) (ht : w.clock ≤ sent + tokenTimeout) :
    Stepped mint peek me w o t w (.answered spends a)
  /-- The call gives up, its request unhandled or its answer unread. -/
  | fails {r : Result} (hs : t.stage.locked = true)
    (hr : r.token? = none)
    (hk : t.stage.keeps w o = true → t.stage.rotated? = none)
    (he : r = .failed .expired → ∃ s sent, t.stage = .replied (some s) sent .denied) :
    Stepped mint peek me w o t w.unlock (.ended r)
  /-- It is dropped, and its request is handled. -/
  | strays {spends : Option StoredToken} {sent : ℕ} (hs : t.stage = .post spends sent)
    (hk : t.stage.keeps w o = true → spends = none ∨ o.answer.refresh = none) :
    Stepped mint peek me w o t (w.issue spends o.answer).unlock (.ended .dropped)
  /-- The answer holds no access token. -/
  | saves {spends : Option StoredToken} {a : Answer} (hs : t.stage = .answered spends a) :
    Stepped mint peek me w o t (w.save spends a.refresh).unlock (.ended (.failed .noAccessToken))
  | mints {spends : Option StoredToken} {a : Answer} {token : String}
    (hs : t.stage = .answered spends a) (ha : a.access = some token) :
    Stepped mint peek me w o t ((w.save spends a.refresh).hold peek token).unlock
      (.ended (.minted token))

section
variable {mint : Mint} {peek : String → Option Claims} {me : ℕ} {w w' : World} {o : Outside}
  {t t' : Task}

theorem handle_cases (w : World) (o : Outside) (spends : Option StoredToken) :
    handle w o spends = (w.issue spends o.answer, .answers o.answer) ∨
    ∃ reply, handle w o spends = (w, reply) ∧ (∀ a, reply ≠ .answers a) ∧
      (reply = .denied → ¬ spends.all (·.refreshToken ∈ w.live)) := by
  unfold handle
  split
  · split
    · exact Or.inl rfl
    · exact Or.inr ⟨_, rfl, by simp, by simp⟩
  · rename_i hall
    exact Or.inr ⟨_, rfl, by simp, fun _ => hall⟩

theorem Task.drop_cases (hd : o.dropped = true) (h : t.drop w o = some (w', t')) :
    t'.call = t.call ∧ Stepped mint peek me w o t w' t'.stage := by
  obtain ⟨call, stage⟩ := t
  cases stage with
  | start =>
    obtain ⟨rfl, rfl⟩ := Prod.mk.inj (Option.some.inj h)
    exact ⟨rfl, .leaves rfl rfl (by simp)⟩
  | discover spends =>
    obtain ⟨rfl, rfl⟩ := Prod.mk.inj (Option.some.inj h)
    exact ⟨rfl, .fails rfl rfl (fun _ => rfl) (by simp)⟩
  | post spends sent =>
    simp only [drop] at h
    obtain ⟨rfl, rfl⟩ := Prod.mk.inj (Option.some.inj h)
    refine ⟨rfl, ?_⟩
    split
    · rename_i hup
      rcases handle_cases w o spends with heq | ⟨reply, heq, -⟩
      · rw [heq]
        refine .strays rfl fun hk => ?_
        simp only [Stage.keeps, hd, hup, Bool.true_and, Bool.not_and, Bool.or_eq_true,
          Bool.not_eq_true', Option.isSome_eq_false_iff, Option.isNone_iff_eq_none] at hk
        exact hk
      · rw [heq]
        exact .fails rfl rfl (fun _ => rfl) (by simp)
    · exact .fails rfl rfl (fun _ => rfl) (by simp)
  | replied spends sent reply =>
    obtain ⟨rfl, rfl⟩ := Prod.mk.inj (Option.some.inj h)
    exact ⟨rfl, .fails rfl rfl (fun hk => by simpa [Stage.keeps, hd] using hk) (by simp)⟩
  | answered spends a => exact absurd h (by simp [drop])
  | ended r => exact absurd h (by simp [drop])

theorem Task.step_cases (h : t.step mint peek me w o = some (w', t')) :
    t'.call = t.call ∧ Stepped mint peek me w o t w' t'.stage := by
  obtain ⟨call, stage⟩ := t
  cases stage with
  | start =>
    simp only [step] at h
    split at h
    · obtain ⟨rfl, rfl⟩ := Prod.mk.inj (Option.some.inj h)
      exact ⟨rfl, .leaves rfl rfl (by simp)⟩
    · rename_i hno
      split at h
      · exact absurd h (by simp)
      · rename_i hlock
        have hl : w.lock = none := by simpa using hlock
        split at h
        · rename_i token hhit
          obtain ⟨rfl, rfl⟩ := Prod.mk.inj (Option.some.inj h)
          exact ⟨rfl, .hits rfl hl hhit⟩
        · rename_i hmiss
          split at h
          · rename_i token
            obtain ⟨rfl, rfl⟩ := Prod.mk.inj (Option.some.inj h)
            cases call with
            | get => exact ⟨rfl, .gives rfl hl rfl rfl⟩
            | renew r => exact absurd rfl (hno token r rfl)
          · obtain ⟨rfl, rfl⟩ := Prod.mk.inj (Option.some.inj h)
            refine ⟨rfl, .begins rfl hl hmiss rfl rfl (by simp [Stage.unspent?]) ?_ (by simp)⟩
            intro spends sent he
            exact (Stage.post.inj he).2.symm
          · obtain ⟨rfl, rfl⟩ := Prod.mk.inj (Option.some.inj h)
            exact ⟨rfl, .begins rfl hl hmiss rfl rfl (by simp [Stage.unspent?]) (by simp) (by simp)⟩
          · split at h
            · split at h
              · obtain ⟨rfl, rfl⟩ := Prod.mk.inj (Option.some.inj h)
                exact ⟨rfl, .leaves rfl rfl (by simp)⟩
              · obtain ⟨rfl, rfl⟩ := Prod.mk.inj (Option.some.inj h)
                exact ⟨rfl, .leaves rfl rfl (by simp)⟩
              · rename_i s hfile
                obtain ⟨rfl, rfl⟩ := Prod.mk.inj (Option.some.inj h)
                refine ⟨rfl, .begins rfl hl hmiss rfl rfl (fun x hx => ?_) (by simp) (by simp)⟩
                rw [← Option.some.inj hx]
                exact hfile
            · obtain ⟨rfl, rfl⟩ := Prod.mk.inj (Option.some.inj h)
              exact ⟨rfl, .leaves rfl rfl (by simp)⟩
  | discover spends =>
    simp only [step] at h
    split at h
    · obtain ⟨rfl, rfl⟩ := Prod.mk.inj (Option.some.inj h)
      exact ⟨rfl, .asks rfl⟩
    · obtain ⟨rfl, rfl⟩ := Prod.mk.inj (Option.some.inj h)
      exact ⟨rfl, .fails rfl rfl (fun _ => rfl) (by simp)⟩
  | post spends sent =>
    simp only [step] at h
    split at h
    · rcases handle_cases w o spends with heq | ⟨reply, heq, ha, hd⟩
      · rw [heq] at h
        obtain ⟨rfl, rfl⟩ := Prod.mk.inj (Option.some.inj h)
        exact ⟨rfl, .handled rfl⟩
      · rw [heq] at h
        obtain ⟨rfl, rfl⟩ := Prod.mk.inj (Option.some.inj h)
        exact ⟨rfl, .unserved rfl ha hd⟩
    · obtain ⟨rfl, rfl⟩ := Prod.mk.inj (Option.some.inj h)
      exact ⟨rfl, .fails rfl rfl (fun _ => rfl) (by simp)⟩
  | replied spends sent reply =>
    simp only [step] at h
    split at h
    · rename_i hup
      split at h
      · obtain ⟨rfl, rfl⟩ := Prod.mk.inj (Option.some.inj h)
        exact ⟨rfl, .reads rfl (of_decide_eq_true (Bool.and_eq_true_iff.mp hup).2)⟩
      · obtain ⟨rfl, rfl⟩ := Prod.mk.inj (Option.some.inj h)
        refine ⟨rfl, .fails rfl rfl (fun _ => rfl) fun hr => ?_⟩
        cases spends with
        | none => exact absurd hr (by simp)
        | some s => exact ⟨s, sent, rfl⟩
      · obtain ⟨rfl, rfl⟩ := Prod.mk.inj (Option.some.inj h)
        exact ⟨rfl, .fails rfl rfl (fun _ => rfl) (by simp)⟩
    · rename_i hup
      obtain ⟨rfl, rfl⟩ := Prod.mk.inj (Option.some.inj h)
      refine ⟨rfl, .fails rfl rfl (fun hk => ?_) (by simp)⟩
      rcases Bool.or_eq_true_iff.mp hk with hk | hk
      · exact Option.isNone_iff_eq_none.mp hk
      · rw [Bool.and_assoc] at hk
        exact absurd (Bool.and_eq_true_iff.mp hk).2 hup
  | answered spends a =>
    simp only [step] at h
    split at h
    · rename_i hfile
      obtain ⟨rfl, rfl⟩ := Prod.mk.inj (Option.some.inj h)
      refine ⟨rfl, .fails rfl rfl (fun hk => ?_) (by simp)⟩
      rcases Bool.or_eq_true_iff.mp hk with hk | hk
      · exact Option.isNone_iff_eq_none.mp hk
      · simp [hk] at hfile
    · split at h
      · obtain ⟨rfl, rfl⟩ := Prod.mk.inj (Option.some.inj h)
        exact ⟨rfl, .saves rfl⟩
      · rename_i token ha
        obtain ⟨rfl, rfl⟩ := Prod.mk.inj (Option.some.inj h)
        exact ⟨rfl, .mints rfl ha⟩
  | ended r => exact absurd h (by simp [step])

/-- A call's step or its end. -/
theorem run_cases (h : (program mint peek).run me w o t = some (w', t')) :
    t'.call = t.call ∧ Task.Stepped mint peek me w o t w' t'.stage := by
  simp only [program] at h
  split at h
  · rename_i hd
    exact Task.drop_cases hd h
  · exact Task.step_cases h

/-- What a step does to the mutex. -/
theorem Task.Stepped.lock {stage : Stage} (h : Stepped mint peek me w o t w' stage) :
    (w'.lock = w.lock ∧ stage.locked = t.stage.locked) ∨
      (w.lock = none ∧ w'.lock = some me ∧ stage.locked = true ∧ hit w t.call = none) ∨
      (w'.lock = none ∧ t.stage.locked = true ∧ stage.locked = false) := by
  cases h with
  | leaves hs => exact Or.inl ⟨rfl, by rw [hs]; rfl⟩
  | hits hs => exact Or.inl ⟨rfl, by rw [hs]; rfl⟩
  | gives hs => exact Or.inl ⟨rfl, by rw [hs]; rfl⟩
  | begins hs hl hh hg => exact Or.inr (Or.inl ⟨hl, rfl, hg, hh⟩)
  | asks hs => exact Or.inl ⟨rfl, by rw [hs]; rfl⟩
  | handled hs => exact Or.inl ⟨rfl, by rw [hs]; rfl⟩
  | unserved hs => exact Or.inl ⟨rfl, by rw [hs]; rfl⟩
  | reads hs => exact Or.inl ⟨rfl, by rw [hs]; rfl⟩
  | fails hs => exact Or.inr (Or.inr ⟨rfl, hs, rfl⟩)
  | strays hs => exact Or.inr (Or.inr ⟨rfl, by rw [hs]; rfl, rfl⟩)
  | saves hs => exact Or.inr (Or.inr ⟨rfl, by rw [hs]; rfl, rfl⟩)
  | mints hs => exact Or.inr (Or.inr ⟨rfl, by rw [hs]; rfl, rfl⟩)

end

/-! ## The mutex -/

/-- The mutex is held by a call that mints, if it is held. -/
def Owned (s : State) : Prop :=
  ∀ i, s.shared.lock = some i → ∃ t, s.task? i = some t ∧ t.stage.locked = true

/-- A call that mints holds the mutex. -/
def Holds (me : ℕ) (w : World) (t : Task) : Prop := t.stage.locked = true → w.lock = some me

/-- An event leaves the mutex and the access tokens. -/
theorem Event.lock {w w' : World} {e : Event} (h : e.apply w = some w') :
    w'.lock = w.lock ∧ w'.held = w.held ∧ w'.issued = w.issued := by
  cases e with
  | refreshed refresh =>
    simp only [apply] at h
    split at h
    · split at h
      · obtain rfl := Option.some.inj h
        exact ⟨rfl, rfl, rfl⟩
      · exact absurd h (by simp)
    · exact absurd h (by simp)
  | _ =>
    obtain rfl := Option.some.inj h
    exact ⟨rfl, rfl, rfl⟩

/-- **A call that mints holds the mutex**, whatever the callers and the issuer do. -/
theorem keeps (mint : Mint) (peek : String → Option Claims) :
    (program mint peek).Keeps (fun _ _ => True) Owned Holds (fun _ _ => True) where
  spawn {s i t} _ hI hnone hi := by
    have hs : t.stage = .start := of_decide_eq_true hi
    refine ⟨fun j hj => ?_, fun hl => absurd hl (by simp [hs, Stage.locked])⟩
    obtain ⟨u, hu, hul⟩ := hI.whole j hj
    refine ⟨u, ?_, hul⟩
    rw [Tasks.task?_put, if_neg, hu]
    rintro rfl
    exact absurd (hnone.symm.trans hu) (by simp)
  spawnPair _ _ _ _ := ⟨trivial, trivial⟩
  self {s i o t w' t'} _ hI ht h := by
    obtain ⟨-, hs⟩ := run_cases h
    refine ⟨fun j hj => ?_, fun hl => ?_⟩
    · simp only [Tasks.shared_put] at hj
      rcases hs.lock with ⟨hsame, hstage⟩ | ⟨-, hmine, hlocked, -⟩ | ⟨hnone, -, -⟩
      · obtain ⟨u, hu, hul⟩ := hI.whole j (hsame ▸ hj)
        by_cases hji : j = i
        · subst hji
          obtain rfl := Option.some.inj (hu.symm.trans ht)
          exact ⟨t', by rw [Tasks.task?_put, if_pos rfl], hstage.trans hul⟩
        · exact ⟨u, by rw [Tasks.task?_put, if_neg hji, hu], hul⟩
      · obtain rfl := Option.some.inj (hmine.symm.trans hj)
        exact ⟨t', by rw [Tasks.task?_put, if_pos rfl], hlocked⟩
      · exact absurd (hnone.symm.trans hj) (by simp)
    · rcases hs.lock with ⟨hsame, hstage⟩ | ⟨-, hmine, -, -⟩ | ⟨-, -, hno⟩
      · exact hsame.trans (hI.task i t ht (hstage ▸ hl))
      · exact hmine
      · exact absurd (hno.symm.trans hl) (by simp)
  other {s i o t w' t' j u} _ hI ht h hji hu := by
    obtain ⟨-, hs⟩ := run_cases h
    refine ⟨fun hl => ?_, trivial, trivial⟩
    have hlock := hI.task j u hu hl
    rcases hs.lock with ⟨hsame, -⟩ | ⟨hfree, -⟩ | ⟨-, hlocked, -⟩
    · exact hsame.trans hlock
    · exact absurd (hfree.symm.trans hlock) (by simp)
    · have := hI.task i t ht hlocked
      exact absurd (Option.some.inj (hlock.symm.trans this)) hji
  outside _ hI h := by
    have hlock := (Event.lock h).1
    exact ⟨fun i hi => hI.whole i (hlock ▸ hi), fun i t ht hl => hlock.trans (hI.task i t ht hl)⟩
  restart _ _ := fun i hi => absurd hi (by simp [program])

/-- The mutex, in a state of a run. -/
abbrev Mutex : State → Prop := Program.Invariant Owned Holds (fun _ _ => True)

section
variable {mint : Mint} {peek : String → Option Claims} {ok : State → Act → Prop} {s s' : State}
  {a : Act}

theorem mutex_boot (file : TokenFile) (live : List String) : Mutex (.boot (.boot file live)) :=
  Program.Invariant.boot fun _ h => absurd h (by simp [World.boot])

theorem mutex_step (hm : Mutex s) (h : (program mint peek).step s a = some s') : Mutex s' :=
  (keeps mint peek).step hm trivial h

/-- In a run the mutex may be assumed. -/
theorem assume_mutex {file : TokenFile} {live : List String}
    (h : Reach (program mint peek).step ok (.boot (.boot file live)) s) :
    Reach (program mint peek).step (fun s a => ok s a ∧ Mutex s) (.boot (.boot file live)) s :=
  (h.assume (I := Mutex) (fun _ _ _ hm _ hs => mutex_step hm hs) (mutex_boot file live)).1

/-- While one call mints no other does. -/
theorem Mutex.alone {i j : ℕ} {t u : Task} (hm : Mutex s) (ht : s.task? i = some t)
    (hu : s.task? j = some u) (hji : j ≠ i) (hl : t.stage.locked = true) :
    u.stage.locked = false := by
  by_contra hul
  have htl := hm.task i t ht hl
  have hul := hm.task j u hu (by simpa using hul)
  exact hji (Option.some.inj (hul.symm.trans htl))

/-- While the mutex is free no call mints. -/
theorem Mutex.free {j : ℕ} {u : Task} (hm : Mutex s) (hl : s.shared.lock = none)
    (hu : s.task? j = some u) : u.stage.locked = false := by
  by_contra hul
  exact absurd (hl.symm.trans (hm.task j u hu (by simpa using hul))) (by simp)

end

end Garret.Tokens
