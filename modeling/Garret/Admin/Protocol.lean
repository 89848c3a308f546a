import Garret.Lib.Format
import Garret.Pusher.Fsck

/-!
# The admin protocol

Model of the Pusher's end of an admin connection (`handle` and `dispatch`,
`crates/garret-pusher/src/admin.rs`), of the client's (`request`, `crates/garret-admin/src/main.rs`)
and of what goes between them (`crates/garret-common/src/admin.rs`).

* The commands themselves are `Handlers`, over whatever state the Pusher has: what one answers is a
  parameter here. Each takes and gives what its arm of `dispatch` does, and what the outside decides.
* The rest of the Pusher goes on meanwhile: before each line it has made of the state what it likes.
* How a request and a response are written is serde's (`Format`), and so is what it says of a text
  that is no request (`reason`).
* A connection is the characters one end has written. It can break: in a reply, or before all of a
  request or a reply has come (`Link`). A text that is not UTF-8 ends it as well.

`session_replies` is one line back for each line in, whatever the lines are; `request_dispatch` is
both ends.
-/

namespace Garret.Admin

open Garret.Lib

/-! ## Requests and responses -/

/-- `Request`. -/
inductive Request where
  | status
  | gcRun
  | resign
  | delete (hashes : List String) (dryRun : Bool)
  | pin (name hash : String) (expiresAt : Option Int64)
  | unpin (name : String)
  | fsck (verifySizes : Bool) (repair : Repair)
  | prune (before : Int64) (dryRun : Bool)
  | backup (path : String)
  | deletePushedBy (subject : String) (since : Option Int64) (dryRun : Bool)
  deriving DecidableEq

/-- `FsckRow`. -/
structure FsckRow where
  storePathHash : String
  name : String
  deriving DecidableEq

/-- `FsckSizeMismatch`. -/
structure FsckSizeMismatch where
  storePathHash : String
  name : String
  dbSize : Int64
  s3Size : Int64
  deriving DecidableEq

/-- `FsckReport`. -/
structure FsckReport where
  dangling : List FsckRow
  sizeMismatches : List FsckSizeMismatch
  orphans : List String
  repaired : UInt64
  quiesceDrained : Option Bool
  deriving DecidableEq

/-- `Response`. -/
inductive Response where
  | status (objects totalBytes : Int64) (quotaBytes : Option UInt64) (uploadsInFlight : UInt64)
  | gc (evicted : UInt64) (bytesFreed : Int64) (candidatesExhausted : Bool)
  | resign (resigned refused : UInt64)
  | delete (deleted : UInt64) (bytesFreed : Int64) (missing : List String)
  | pin
  | unpin (removed : Bool)
  | fsck (report : FsckReport)
  | prune (pruned : List String) (bytesFreed : Int64)
  | backup (bytes : UInt64)
  | deletePushedBy (objects : List String) (bytesFreed : Int64)
  | error (message : String)
  deriving DecidableEq

/-- Whether a response is the one named after a command: `garret-admin` calls any other but an
error `unexpected`. -/
def Named : Request → Response → Prop
  | .status, .status .. => True
  | .gcRun, .gc .. => True
  | .resign, .resign .. => True
  | .delete .., .delete .. => True
  | .pin .., .pin => True
  | .unpin _, .unpin _ => True
  | .fsck .., .fsck _ => True
  | .prune .., .prune .. => True
  | .backup _, .backup _ => True
  | .deletePushedBy .., .deletePushedBy .. => True
  | _, _ => False

/-! ## The Pusher's end -/

/-- An arm of `dispatch`: what it answers and the state it leaves. -/
abbrev Handler (ο σ α : Type) := ο → σ → Except String α × σ

/-- The arms that need the `[gc]` section. -/
structure GcHandlers (ο σ : Type) where
  /-- The objects evicted, the bytes freed and `candidates_exhausted`. -/
  run : Handler ο σ (UInt64 × Int64 × Bool)
  fsck : Bool → Repair → Handler ο σ FsckReport

/-- The arms of `dispatch`. -/
structure Handlers (ο σ : Type) where
  /-- Objects, bytes, quota and uploads in flight. -/
  status : Handler ο σ (Int64 × Int64 × Option UInt64 × UInt64)
  gc : Option (GcHandlers ο σ)
  resign : Handler ο σ (UInt64 × UInt64)
  delete : List String → Bool → Handler ο σ (UInt64 × Int64 × List String)
  pin : String → String → Option Int64 → Handler ο σ Unit
  unpin : String → Handler ο σ Bool
  prune : Int64 → Bool → Handler ο σ (List String × Int64)
  backup : String → Handler ο σ UInt64
  deletePushedBy : String → Option Int64 → Bool → Handler ο σ (List String × Int64)

/-- The Pusher, as a connection meets it. -/
structure Pusher (ο σ : Type) extends Handlers ο σ where
  requests : Format Request
  responses : Format Response
  /-- What `serde_json` says of a text that is no request. -/
  reason : List Char → String
  /-- What everybody else does until a line is taken up. -/
  meanwhile : ο → σ → σ

/-- One line of a connection: what the outside does until it is answered, and whether the connection
breaks in the reply, after how many characters. -/
structure Turn (ο : Type) where
  outside : ο
  breaks : Option ℕ

/-- `no_gc`. -/
def noGc : Response := .error "no [gc] section is configured"

/-- What a text that is no request is answered. -/
def badRequest (reason : String) : Response := .error ("bad request: " ++ reason)

section

variable {ο σ α : Type}

/-- `result.unwrap_or_else(..)`, over what an arm makes of its value. -/
def respond (make : α → Response) : Except String α × σ → Response × σ
  | (.ok a, s) => (make a, s)
  | (.error e, s) => (.error e, s)

/-- `dispatch`. -/
def dispatch (h : Handlers ο σ) (r : Request) (o : ο) (s : σ) : Response × σ :=
  match r with
  | .status => respond (fun x => .status x.1 x.2.1 x.2.2.1 x.2.2.2) (h.status o s)
  | .gcRun =>
    match h.gc with
    | some gc => respond (fun x => .gc x.1 x.2.1 x.2.2) (gc.run o s)
    | none => (noGc, s)
  | .resign => respond (fun x => .resign x.1 x.2) (h.resign o s)
  | .delete hashes dryRun =>
    respond (fun x => .delete x.1 x.2.1 x.2.2) (h.delete hashes dryRun o s)
  | .pin name hash expiresAt => respond (fun _ => .pin) (h.pin name hash expiresAt o s)
  | .unpin name => respond .unpin (h.unpin name o s)
  | .fsck verifySizes repair =>
    match h.gc with
    | some gc => respond .fsck (gc.fsck verifySizes repair o s)
    | none => (noGc, s)
  | .prune before dryRun => respond (fun x => .prune x.1 x.2) (h.prune before dryRun o s)
  | .deletePushedBy subject since dryRun =>
    respond (fun x => .deletePushedBy x.1 x.2) (h.deletePushedBy subject since dryRun o s)
  | .backup path => respond .backup (h.backup path o s)

variable (p : Pusher ο σ)

/-- What one line is answered. -/
def answer (line : List Char) (o : ο) (s : σ) : Response × σ :=
  match p.requests.parse line with
  | some r => dispatch p.toHandlers r o s
  | none => (badRequest (p.reason line), s)

/-- What a response is on the connection. -/
def written (r : Response) : List Char := p.responses.print r ++ ['\n']

/-- The loop of `handle`, over the lines still to come: what it writes and the state it leaves. -/
def serveLines (turns : ℕ → Turn ο) : ℕ → List (List Char) → σ → List Char × σ
  | _, [], s => ([], s)
  | n, line :: rest, s =>
    let (response, s) :=
      answer p line (turns n).outside (p.meanwhile (turns n).outside s)
    match (turns n).breaks with
    | some k => ((written p response).take k, s)
    | none =>
      let (out, s) := serveLines turns (n + 1) rest s
      (written p response ++ out, s)

/-- `handle`: a connection from what the client writes on it. -/
def handle (turns : ℕ → Turn ο) (input : List Char) (s : σ) : List Char × σ :=
  serveLines p turns 0 (Lines.cut input) s

/-! ## The client's end -/

/-- Why `request` failed. -/
inductive RequestError where
  /-- Connecting, writing or reading failed. -/
  | io
  /-- `the Pusher closed the connection without answering`. -/
  | closed
  /-- `parsing the admin response`. -/
  | malformed
  /-- `Response::Error`, its message. -/
  | answered (message : String)
  deriving DecidableEq

/-- What becomes of a connection. -/
inductive Link where
  /-- There is none. -/
  | refused
  /-- It is accepted, and ends before anybody reads from it. -/
  | unserved
  /-- The client fails, or is killed, when `n` characters of its line are through. -/
  | cut (n : ℕ)
  /-- The line is served and `n` characters of the reply come through; then the connection is reset,
  or it ends. -/
  | served (n : ℕ) (reset : Bool)

/-- What `request` writes. -/
def sent (r : Request) : List Char := p.requests.print r ++ ['\n']

/-- What `request` makes of what has come when nothing more comes. -/
def receive (seen : List Char) (reset : Bool) : Except RequestError Response :=
  let line := Lines.readLine seen
  if reset ∧ '\n' ∉ line then .error .io
  else if line.isEmpty then .error .closed
  else
    match p.responses.parse line with
    | none => .error .malformed
    | some (.error message) => .error (.answered message)
    | some response => .ok response

/-- `request`, against a Pusher in a state: what it returns, and the state the Pusher is left in. -/
def request (turns : ℕ → Turn ο) (link : Link) (r : Request) (s : σ) :
    Except RequestError Response × σ :=
  match link with
  | .refused => (.error .io, s)
  | .unserved => (receive p [] false, s)
  | .cut n => (.error .io, (handle p turns ((sent p r).take n) s).2)
  | .served n reset =>
    let (out, s) := handle p turns (sent p r) s
    (receive p (out.take n) reset, s)

end

end Garret.Admin
