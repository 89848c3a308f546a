import Garret.Client.Batch
import Garret.Pusher.Clock

/-!
# Pushing a closure

Model of `push_closure`, `missing`, `push_all` and `push_one` (`crates/garret-client/src/push.rs`)
against the Pusher. A `Session` is one run of the client and the server it talks to; the server's
own actions (`Move.server`), other clients included, fall between any two of the client's.

A request that reaches its handler is a task of the server (`Move.send`), and only the answer of
that task can acknowledge it (`Move.answer`). What else can end an attempt (no connection, a stall,
a refusal by a proxy or the token check) is `Move.fault`, with any error. When the server dies every
connection is cut.
-/

namespace Garret

open Garret.Lib

/-- The answer of the upload handler as it is sent; `id` is what an internal error is logged under.
A dropped handler sends nothing. -/
def Reply.response (id : String) : Reply → Option Client.HttpResponse
  | .created => some ⟨201, none, some .created, ""⟩
  | .exists => some ⟨200, none, some .exists, ""⟩
  | .inProgress => some ⟨200, none, some .inProgress, ""⟩
  | .shed => some ⟨429, some "1", none, "too many concurrent uploads"⟩
  | .retry message => some ⟨503, some "1", none, message⟩
  | .failed (.refused message) => some ⟨400, none, none, message⟩
  | .failed (.store (.overLimit message)) => some ⟨400, none, none, message⟩
  | .failed _ => some ⟨500, none, none, "internal error (id " ++ id ++ ")"⟩
  | .internal _ => some ⟨500, none, none, "internal error (id " ++ id ++ ")"⟩
  | .dropped => none

theorem Reply.response_acks {id : String} {r : Reply} {response : Client.HttpResponse}
    (h : r.response id = some response)
    (ha : response.ack = some .created ∨ response.ack = some .exists) : r.acks = true := by
  cases r with
  | created => rfl
  | «exists» => rfl
  | dropped => exact absurd h (by simp [Reply.response])
  | failed e =>
    rcases e with m | (m | m | m | m) | m
    all_goals
      obtain rfl := Option.some.inj h
      exact absurd ha (by simp)
  | _ =>
    obtain rfl := Option.some.inj h
    exact absurd ha (by simp)

namespace Client

/-! ## `push_all` -/

/-- Where one path of the batch stands. -/
inductive Phase where
  /-- About to make an attempt, or waiting before it. -/
  | ready
  /-- The request is with the server, as this task. -/
  | waiting (task : ℕ)
  /-- The connection is gone. -/
  | cut
  deriving DecidableEq, Repr

/-- One `push_one` under way. -/
structure Job where
  info : PathInfo
  attempt : Try
  phase : Phase
  deriving DecidableEq, Repr

/-- One `push_all` under way: the paths not started yet, those under way, and how the others
ended. -/
structure Pool where
  todo : List PathInfo
  jobs : List Job
  outcomes : List (String × Outcome)
  narBytes : ℕ
  deriving DecidableEq, Repr

namespace Pool

/-- `push_all` before its first path; `none` if ordering the batch panics. -/
def start (paths : List PathInfo) : Option Pool :=
  (referencesFirst paths).map fun order => ⟨order, [], [], Client.narBytes paths⟩

/-- The next path is started, if there is a free worker. -/
def launch (p : Pool) (workers maxRetries now : ℕ) : Option Pool :=
  match p.todo with
  | [] => none
  | info :: todo =>
    if p.jobs.length < workers then
      some { p with todo := todo, jobs := p.jobs ++ [⟨info, .new maxRetries now, .ready⟩] }
    else none

/-- Job `k` ends its round. -/
def settle (p : Pool) (k : ℕ) (job : Job) : Turn → Pool
  | .done (.ok outcome) =>
    { p with jobs := p.jobs.eraseIdx k, outcomes := p.outcomes ++ [(job.info.path, outcome)] }
  | .done (.error e) =>
    { p with jobs := p.jobs.eraseIdx k, outcomes := p.outcomes ++ [(job.info.path, .failed e)] }
  | .again _ t => { p with jobs := p.jobs.set k { job with attempt := t, phase := .ready } }

/-- Job `k` is in another phase. -/
def setPhase (p : Pool) (k : ℕ) (job : Job) (phase : Phase) : Pool :=
  { p with jobs := p.jobs.set k { job with phase := phase } }

/-- Every connection is cut. -/
def cut (p : Pool) : Pool :=
  { p with jobs := p.jobs.map fun job => match job.phase with
    | .waiting _ => { job with phase := .cut }
    | _ => job }

/-- Every path of the batch has ended. -/
def finished (p : Pool) : Bool := p.todo.isEmpty && p.jobs.isEmpty

end Pool

/-! ## `push_closure` -/

/-- What `push_closure` is given, and the configuration of the client. -/
structure Setup where
  closure : List PathInfo
  upstreamKeys : List String
  dryRun : Bool
  jobs : ℕ
  maxRetries : ℕ
  /-- Whom the server takes the client for. -/
  subject : String

/-- The paths to push: the closure, less what an upstream key signs. -/
def Setup.own (c : Setup) : List PathInfo := (partitionUpstream c.closure c.upstreamKeys).1

/-- What a Negotiation asks. -/
def Setup.hashes (c : Setup) : List String := c.own.map PathInfo.hash

/-- Where `push_closure` stands. -/
inductive Pc where
  | negotiate
  | push (pushedAny : Bool) (pool : Pool)
  | recheck (summary : Summary)
  | repush (summary : Summary) (pool : Pool)
  | done (result : Except String Summary)

namespace Pc

/-- The batch under way. -/
def pool? : Pc → Option Pool
  | push _ pool => some pool
  | repush _ pool => some pool
  | _ => none

/-- The batch goes on as `pool`. -/
def setPool (pool : Pool) : Pc → Pc
  | push pushedAny _ => push pushedAny pool
  | repush summary _ => repush summary pool
  | pc => pc

/-- The first batch starts. -/
def startPush (missing : List PathInfo) : Pc :=
  match Pool.start missing with
  | none => done (.error "panicked")
  | some pool => push (!missing.isEmpty) pool

/-- The second Negotiation is answered. -/
def startRepush (summary : Summary) (gone : List PathInfo) : Pc :=
  if gone.isEmpty then done (.ok summary)
  else match Pool.start gone with
    | none => done (.error "panicked")
    | some pool => repush summary pool

/-- The batch is over. -/
def collect : Pc → Option Pc
  | push pushedAny pool =>
    if pool.finished then
      let summary := tally pool.outcomes pool.narBytes
      if pushedAny && summary.failed == 0 then some (recheck summary)
      else some (done (.ok summary))
    else none
  | repush summary pool =>
    if pool.finished then
      some (done (.ok (summary.add (tally pool.outcomes pool.narBytes))))
    else none
  | _ => none

/-- The server has died. -/
def cut (pc : Pc) : Pc :=
  match pc.pool? with
  | some pool => pc.setPool pool.cut
  | none => pc

/-- After an action of the server: when it dies, every connection is cut. -/
def after (pc : Pc) : Act → Pc
  | .crash => pc.cut
  | _ => pc

theorem after_of_ne {a : Act} (h : a ≠ .crash) (pc : Pc) : pc.after a = pc := by
  cases a with
  | crash => exact absurd rfl h
  | _ => rfl

end Pc

/-- One run of the client, and the server. `negotiatedAt` is the server's clock at the first
Negotiation. -/
structure Session where
  sys : Sys
  pc : Pc
  negotiatedAt : Option Int

/-- What the outside decides when an attempt ends: the client's clock, a random number, and what the
token source answers. -/
structure Luck where
  now : ℕ
  rand : ℕ
  renewal : Except String Bool

/-- What can happen next. -/
inductive Move where
  /-- The server acts on its own. -/
  | server (a : Act)
  /-- The server handles the client's Negotiation. -/
  | ask (io : Faults)
  /-- The client's Negotiation fails: no connection, a timeout, a refusal. -/
  | unasked (message : String)
  /-- The next path of the batch is started. -/
  | launch (now : ℕ)
  /-- The token source fails job `k`. -/
  | tokenless (k : ℕ) (message : String)
  /-- Job `k` sends its request, and the server starts `task` for it. -/
  | send (k task : ℕ)
  /-- Job `k` reads the answer of its task. -/
  | answer (k : ℕ) (id : String) (luck : Luck)
  /-- The attempt of job `k` ends otherwise. -/
  | fault (k : ℕ) (e : PushError) (luck : Luck)
  /-- The batch is over. -/
  | collect

/-- The response that waits for a job. -/
def Phase.response (id : String) (s : Sys) : Phase → Option HttpResponse
  | .waiting task =>
    match s.task? task with
    | some (.upload (.done _ reply)) => reply.response id
    | _ => none
  | _ => none

namespace Session

variable {δ : Type} (env : Env δ) (c : Setup)

/-- A client about to push to a server. -/
def start (sys : Sys) : Session := ⟨sys, .negotiate, none⟩

/-- Job `k` of the batch under way goes on. -/
def withJob (s : Session) (k : ℕ) (f : Pool → Job → Option Session) : Option Session :=
  s.pc.pool?.bind fun pool => pool.jobs[k]?.bind (f pool)

/-- One move; `none` when it is not possible. -/
def step (s : Session) : Move → Option Session
  | .server a =>
    (s.sys.step env a).map fun sys => { s with sys := sys, pc := s.pc.after a }
  | .ask io =>
    let answered := (missing io c.hashes s.sys.world.clock s.sys.world.db).1
    match s.pc with
    | .negotiate => (s.sys.step env (.negotiate c.hashes io)).map fun sys =>
      match answered with
      | .error _ => { s with sys := sys, pc := .done (.error "negotiation rejected") }
      | .ok ms =>
        { sys := sys
          negotiatedAt := some s.sys.world.clock
          pc := if c.dryRun then .done (.ok .default) else .startPush (retainMissing c.own ms) }
    | .recheck summary => (s.sys.step env (.negotiate c.hashes io)).map fun sys =>
      match answered with
      | .error _ =>
        { s with sys := sys, pc := .done (.error "re-checking the closure after pushing") }
      | .ok ms => { s with sys := sys, pc := .startRepush summary (retainMissing c.own ms) }
    | _ => none
  | .unasked message =>
    match s.pc with
    | .negotiate => some { s with pc := .done (.error message) }
    | .recheck _ =>
      some { s with pc := .done (.error ("re-checking the closure after pushing: " ++ message)) }
    | _ => none
  | .launch now =>
    (s.pc.pool?.bind fun pool => pool.launch c.jobs c.maxRetries now).map fun pool =>
      { s with pc := s.pc.setPool pool }
  | .tokenless k message =>
    s.withJob k fun pool job => match job.phase with
      | .ready =>
        some { s with pc := s.pc.setPool (pool.settle k job (.done (.error (.other message)))) }
      | _ => none
  | .send k task =>
    s.withJob k fun pool job => match job.phase with
      | .ready =>
        (s.sys.step env (.spawn task (.upload (.start job.info.hash c.subject)))).map fun sys =>
          { s with sys := sys, pc := s.pc.setPool (pool.setPhase k job (.waiting task)) }
      | _ => none
  | .answer k id luck =>
    s.withJob k fun pool job => (job.phase.response id s.sys).map fun response =>
      { s with pc := s.pc.setPool (pool.settle k job
        (job.attempt.settle luck.now luck.rand luck.renewal response.read)) }
  | .fault k e luck =>
    s.withJob k fun pool job =>
      some { s with pc := s.pc.setPool (pool.settle k job
        (job.attempt.settle luck.now luck.rand luck.renewal (.error e))) }
  | .collect => s.pc.collect.map fun pc => { s with pc := pc }

end Session

end Client

end Garret
