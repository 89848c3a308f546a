import Garret.Lib.Run
import Garret.Lib.Table
import Garret.Lib.Graph
import Garret.Lib.Acyclic
import Garret.Lib.Ownership
import Garret.Lib.Utf8
import Garret.Lib.Lossy
import Garret.Lib.Keyset
import Garret.Lib.Text
import Garret.Lib.Nix
import Garret.Lib.Toml
import Garret.Lib.Potential
import Garret.Lib.Semaphore
import Garret.Lib.Calendar
import Garret.Lib.Dfs
import Garret.Lib.Radix
import Garret.Lib.Base64
import Garret.Lib.Wildcard
import Garret.Lib.Tasks
import Garret.Lib.Register
import Garret.Lib.Lines
import Garret.Lib.Format
import Garret.Lib.Json
import Garret.Lib.Pipe
import Garret.Common
import Garret.Wire
import Garret.Integer
import Garret.Url
import Garret.Db.Schema
import Garret.Db.Ops
import Garret.Db.Prune
import Garret.Db.Quota
import Garret.Narinfo
import Garret.Spelling
import Garret.Db.Evict
import Garret.Db.Read
import Garret.Db.Browse
import Garret.Db.Tree
import Garret.Upload.Verify
import Garret.Upload.Exact
import Garret.Upload.Storage
import Garret.Upload.Requests
import Garret.Upload.Store
import Garret.Upload.Built
import Garret.Upload.Framing
import Garret.Upload.Offload
import Garret.Upload.Budget
import Garret.Upload.Slots
import Garret.InFlight
import Garret.Gate
import Garret.Auth.Keys
import Garret.Auth.Issuer
import Garret.Pusher.World
import Garret.Pusher.Effect
import Garret.Pusher.Upload
import Garret.Pusher.Gc
import Garret.Pusher.Admin
import Garret.Pusher.Fsck
import Garret.Pusher.System
import Garret.Pusher.Clock
import Garret.Pusher.Late
import Garret.Pusher.Pass
import Garret.Pusher.Multiparts
import Garret.Puller.Bumps
import Garret.Puller.Probe
import Garret.Client.Retry
import Garret.Client.Rounds
import Garret.Client.Batch
import Garret.Client.Session
import Garret.Client.Report
import Garret.Client.Nar
import Garret.Client.Watcher
import Garret.Client.Discovery
import Garret.Client.Nixconf
import Garret.Client.Config
import Garret.Client.Tokens
import Garret.Client.Files
import Garret.Admin.Cutoff
import Garret.Admin.Protocol
import Garret.Laws.RowBlob
import Garret.Laws.Integrity
import Garret.Laws.Negotiation
import Garret.Laws.Closure
import Garret.Laws.Drift
import Garret.Laws.Incident
import Garret.Laws.Resign
import Garret.Laws.Push
import Garret.Laws.Report
import Garret.Puller.Route
import Garret.Laws.Pulling
import Garret.Laws.Rendered
import Garret.Laws.Memory
import Garret.Laws.Watching
import Garret.Laws.Late
import Garret.Laws.Keys
import Garret.Laws.Routing
import Garret.Laws.Pruning
import Garret.Laws.Paging
import Garret.Laws.Access
import Garret.Laws.NixSyntax
import Garret.Laws.Login
import Garret.Laws.Eviction
import Garret.Laws.Cutoff
import Garret.Laws.Order
import Garret.Laws.Tree
import Garret.Laws.Use
import Garret.Laws.Retrying
import Garret.Laws.Cutting
import Garret.Laws.Rehearsal
import Garret.Laws.Checking
import Garret.Laws.Names
import Garret.Laws.Search
import Garret.Laws.Orphans
import Garret.Laws.Claims
import Garret.Laws.Multiparts
import Garret.Laws.Tokens
import Garret.Laws.Admin
