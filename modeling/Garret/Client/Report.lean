import Garret.Client.Session
import Garret.Lib.Json

/-!
# What a push reports

Model of `Report` under `--json`, `path_event` and `Outcome` (`crates/garret-client/src/push.rs`).
`Reported` is a session of `push_closure` with the events it has written so far: an event is written
in the move that comes to it, so the events of a batch's paths come in the order these end.

`{e:#}` of an error is the parameter `text`, and how `serde_json` writes an object the parameter
`json`. Bars and the lines for people are left out.
-/

namespace Garret.Client.Report

open Garret.Lib

/-! ## Events -/

/-- `Outcome`, the two that no upload ends in and the text of a failure included. -/
inductive Outcome where
  | pushed
  | deduped
  | failed (error : String)
  | upstream
  | wouldPush
  deriving DecidableEq, Repr

/-- `as_str`. -/
def Outcome.asStr : Outcome → String
  | pushed => "pushed"
  | deduped => "deduped"
  | failed _ => "failed"
  | upstream => "upstream"
  | wouldPush => "would-push"

/-- How a push of one path ended. -/
def Outcome.ofEnd (text : PushError → String) : Client.Outcome → Outcome
  | .pushed => pushed
  | .deduped => deduped
  | .failed e => failed (text e)

/-- What is reported. -/
inductive Event where
  | negotiated (total upstream missing narBytes : ℕ)
  | path (path : String) (narSize : Int) (outcome : Outcome)
  | rechecked (missing narBytes : ℕ)
  | done (summary : Summary)
  deriving DecidableEq, Repr

/-- `path_event`. -/
def pathEvent (path : String) (narSize : Int) (outcome : Outcome) : Json.Object :=
  let event : List (String × Json.Value) :=
    [("event", .str "path"), ("path", .str path), ("status", .str outcome.asStr),
      ("nar_size", .num narSize)]
  match outcome with
  | .failed error => Json.object (event ++ [("error", .str error)])
  | _ => Json.object event

namespace Event

/-- The value an event is written as. -/
def toJson : Event → Json.Object
  | .negotiated total upstream missing narBytes =>
    Json.object [("event", .str "negotiated"), ("closure", .num total), ("upstream", .num upstream),
      ("missing", .num missing), ("nar_bytes", .num narBytes)]
  | .path name narSize outcome => pathEvent name narSize outcome
  | .rechecked missing narBytes =>
    Json.object [("event", .str "rechecked"), ("missing", .num missing), ("nar_bytes", .num narBytes)]
  | .done summary =>
    Json.object [("event", .str "done"), ("pushed", .num summary.pushed),
      ("deduped", .num summary.deduped), ("failed", .num summary.failed),
      ("nar_bytes", .num summary.narBytes)]

/-- `event`: the line of an event. -/
def line (json : Format Json.Object) (e : Event) : List Char := json.print e.toJson

end Event

/-- What standard output holds after these events. -/
def stdout (json : Format Json.Object) (es : List Event) : List Char :=
  es.flatMap fun e => e.line json ++ ['\n']

/-! ## Writing them -/

/-- `path`. -/
def path (info : PathInfo) (outcome : Outcome) : Event := .path info.path info.narSize outcome

/-- `negotiated`. -/
def negotiated (c : Setup) (missing : List PathInfo) : List Event :=
  let upstream := (partitionUpstream c.closure c.upstreamKeys).2
  .negotiated c.closure.length upstream.length missing.length (narBytes missing) ::
    upstream.map fun info => path info .upstream

/-- `dry_run`. -/
def dryRun (c : Setup) (missing : List PathInfo) : List Event :=
  negotiated c missing ++ missing.map (fun info => path info .wouldPush) ++
    [.done { Summary.default with narBytes := narBytes missing }]

/-- `rechecked`. -/
def rechecked (gone : List PathInfo) : Event := .rechecked gone.length (narBytes gone)

variable (text : PushError → String)

/-- The paths of a batch that have ended, as they are reported. -/
def paths (ended : List (PathInfo × Client.Outcome)) : List Event :=
  ended.map fun e => path e.1 (.ofEnd text e.2)

/-- What ends with a round of a job. -/
def ends (job : Job) : Turn → List (PathInfo × Client.Outcome)
  | .done (.ok outcome) => [(job.info, outcome)]
  | .done (.error e) => [(job.info, .failed e)]
  | .again _ _ => []

/-- What ends with a round of job `k`, if it is over with `turn`. -/
def settled (pc : Pc) (k : ℕ) (turn : Job → Option Turn) : List (PathInfo × Client.Outcome) :=
  match pc.pool?.bind fun pool => pool.jobs[k]? with
  | some job => ((turn job).map (ends job)).getD []
  | none => []

variable (c : Setup)

/-- What is written when a Negotiation is answered. -/
def answered (pc : Pc) : Except String (List PathInfo) → List Event
  | .ok missing =>
    match pc with
    | .negotiate => if c.dryRun then dryRun c missing else negotiated c missing
    | .recheck summary => if missing.isEmpty then [.done summary] else [rechecked missing]
    | _ => []
  | .error _ =>
    match pc with
    | .recheck summary => [.done summary]
    | _ => []

/-- What is written when a batch is over. -/
def collected : Pc → List Event
  | .push pushedAny pool =>
    let summary := tally pool.outcomes pool.narBytes
    if pushedAny && summary.failed == 0 then [] else [.done summary]
  | .repush summary pool => [.done (summary.add (tally pool.outcomes pool.narBytes))]
  | _ => []

/-- What a move writes. -/
def written (s : Session) : Move → List Event
  | .ask io =>
    answered c s.pc <| (missing io c.hashes s.sys.world.clock s.sys.world.db).1.map
      (retainMissing c.own) |>.mapError fun _ => "negotiation rejected"
  | .unasked message => answered c s.pc (.error message)
  | .tokenless k message =>
    paths text (settled s.pc k fun _ => some (.done (.error (.other message))))
  | .answer k id luck =>
    paths text (settled s.pc k fun job => (job.phase.response id s.sys).map fun response =>
      job.attempt.settle luck.now luck.rand luck.renewal response.read)
  | .fault k e luck =>
    paths text (settled s.pc k fun job =>
      some (job.attempt.settle luck.now luck.rand luck.renewal (.error e)))
  | .collect => collected s.pc
  | .server _ => []
  | .launch _ => []
  | .send _ _ => []

end Garret.Client.Report

namespace Garret.Client

/-- A session, and what it has written. -/
structure Reported where
  session : Session
  events : List Report.Event

namespace Reported

variable {δ : Type} (text : PushError → String) (env : Env δ) (c : Setup)

/-- Nothing is written before the first Negotiation. -/
def start (sys : Sys) : Reported := ⟨.start sys, []⟩

/-- One move, and what it writes. -/
def step (s : Reported) (m : Move) : Option Reported :=
  (s.session.step env c m).map fun next =>
    ⟨next, s.events ++ Report.written text c s.session m⟩

end Reported

end Garret.Client
