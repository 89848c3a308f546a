import Garret.Common
import Garret.InFlight
import Garret.Lib.Tasks

/-!
# Multipart uploads and those who close them

Model of the multipart part of `put_streaming` and of `abort_stale_multiparts`
(`crates/garret-server/src/storage.rs`), with the claims an upload handler holds around them
(`crates/garret-pusher/src/main.rs`). What the parts hold is not modelled here
(`Upload.Storage`, `Upload.Requests`): an open multipart is its key and when it was initiated.

* A handler (`Put`) claims its path, opens a multipart when the body outgrows one part, and then
  completes it, or aborts it once and whatever comes of it gives up. It can be dropped at any await,
  and a request it was waiting for may or may not have reached S3.
* A pass (`Pass`) lists page by page, as each page finds the uploads at its time, and aborts one
  after the other what is old enough and not in flight. The sweep of the GC looks at the process's
  in-flight map (`consults`); the passes of `serve_until_stopped` do not, and have no grace.
* Upload ids are never given twice. A request of a handler that is gone, or another writer, may open
  a multipart at any time (`Event.stray`).

`invariant` is what every interleaving keeps: a handler that streams holds its path and finds its
multipart open, and no pass that consults the map is about to abort it.
-/

namespace Garret.Multiparts

open Garret.Lib

/-! ## The bucket's multipart uploads -/

/-- An open multipart upload. -/
structure Entry where
  key : String
  initiated : Int
  deriving DecidableEq, Repr

/-- What the tasks share. -/
structure World where
  /-- The open multiparts by upload id. -/
  uploads : Table ℕ Entry
  /-- The id S3 gives next. -/
  nextId : ℕ
  inFlight : InFlight
  clock : Int

namespace World

/-- Nothing is open and nothing in flight. -/
def boot (clock : Int) : World := ⟨∅, 0, .new, clock⟩

/-- The multipart of this id, while it is open. -/
def upload? (w : World) (id : ℕ) : Option Entry := w.uploads.lookup id

/-- `CreateMultipartUpload`. -/
def create (w : World) (key : String) : World :=
  { w with uploads := w.uploads.insert w.nextId ⟨key, w.clock⟩, nextId := w.nextId + 1 }

/-- `AbortMultipartUpload` and `CompleteMultipartUpload`, to the multipart itself. -/
def close (w : World) (id : ℕ) : World := { w with uploads := w.uploads.erase id }

/-- A claim is dropped. -/
def release (w : World) (hash : String) : World := { w with inFlight := w.inFlight.release hash }

@[simp] theorem upload?_release (w : World) (hash : String) (id : ℕ) :
    (w.release hash).upload? id = w.upload? id := rfl

@[simp] theorem nextId_release (w : World) (hash : String) : (w.release hash).nextId = w.nextId :=
  rfl

@[simp] theorem nextId_close (w : World) (id : ℕ) : (w.close id).nextId = w.nextId := rfl

@[simp] theorem inFlight_close (w : World) (id : ℕ) : (w.close id).inFlight = w.inFlight := rfl

@[simp] theorem inFlight_create (w : World) (key : String) : (w.create key).inFlight = w.inFlight :=
  rfl

theorem upload?_create (w : World) (key : String) (id : ℕ) :
    (w.create key).upload? id = if id = w.nextId then some ⟨key, w.clock⟩ else w.upload? id :=
  Table.lookup_insert_eq

theorem upload?_close (w : World) (id x : ℕ) :
    (w.close id).upload? x = if x = id then none else w.upload? x := Table.lookup_erase_eq

end World

/-- How a request to S3 ended: done and answered, done with the answer lost, or not done. -/
inductive Reply where
  | done
  | lost
  | refused
  deriving DecidableEq, Repr

/-- S3 did what it was asked. -/
def Reply.applied : Reply → Bool
  | .refused => false
  | _ => true

/-- Where a listing continues: `next_key_marker` and `next_upload_id_marker`. -/
structure Marker where
  key : String
  id : Option ℕ
  deriving DecidableEq, Repr

/-- The upload is listed after the marker. -/
def Marker.before (m : Marker) (key : String) (id : ℕ) : Prop :=
  m.key < key ∨ m.key = key ∧ ∃ i, m.id = some i ∧ i < id

instance (m : Marker) (key : String) (id : ℕ) : Decidable (m.before key id) :=
  decidable_of_iff (m.key < key ∨ m.key = key ∧ (m.id.any fun i => decide (i < id)) = true) (by
    unfold Marker.before
    simp [Option.any_eq_true])

/-- What the body gives next: enough for a part, its end, or an error (a failed part included). -/
inductive Body where
  | part
  | ends
  | fails
  deriving DecidableEq, Repr

/-- What the outside decides in one step. `upTo` is the last upload of a truncated page, which the
answer names unless it is `unmarked`. -/
structure Outside where
  reply : Reply
  body : Body
  upTo : Option Marker
  unmarked : Bool
  /-- The handler is dropped in this step. -/
  dropped : Bool

/-- One upload of a listing. -/
structure Listed where
  id : ℕ
  key : String
  initiated : Int
  deriving DecidableEq, Repr

/-- Where a truncated page says the listing continues: `some none` when it does not. -/
def Outside.next (o : Outside) : Option (Option Marker) :=
  o.upTo.map fun m => if o.unmarked then none else some m

/-- What a page between two markers lists. -/
def onPage (marker upTo : Option Marker) (key : String) (id : ℕ) : Prop :=
  (∀ m ∈ marker, m.before key id) ∧ ∀ m ∈ upTo, ¬ m.before key id

instance (marker upTo : Option Marker) (key : String) (id : ℕ) :
    Decidable (onPage marker upTo key id) := inferInstanceAs (Decidable (_ ∧ _))

/-- One page of `list_multipart_uploads`, by key and then by id. -/
def listPage (w : World) (marker upTo : Option Marker) : List Listed :=
  ((w.uploads.entries.filter fun e => decide (onPage marker upTo e.2.key e.1)).map fun e =>
      (⟨e.1, e.2.key, e.2.initiated⟩ : Listed)).insertionSort
    fun a b => a.key < b.key ∨ a.key = b.key ∧ a.id ≤ b.id

/-- `age`: zero for a time in the future. -/
def age (w : World) (e : Listed) : Int := max 0 (w.clock - e.initiated)

/-! ## The tasks -/

/-- Where an upload handler stands in `put_streaming`. -/
inductive Put where
  | start (hash : String)
  /-- The path is claimed and the first part is being read. -/
  | claimed (hash : String)
  /-- Parts go up. -/
  | streaming (hash : String) (id : ℕ)
  /-- Something failed: the parts are stopped, and the abort is sent. -/
  | aborting (hash : String) (id : ℕ)
  /-- The blob is complete; the claim is held until the row is in. -/
  | stored (hash : String)
  | ended
  deriving DecidableEq, Repr

/-- Where a pass stands. -/
inductive Pc where
  | list (marker : Option Marker)
  | entries (todo : List Listed) (next : Option (Option Marker))
  | abort (id : ℕ) (todo : List Listed) (next : Option (Option Marker))
  | done (result : Except String Unit)
  deriving DecidableEq

/-- `abort_stale_multiparts` under way. -/
structure Pass where
  /-- The map it was given is the process's own. -/
  consults : Bool
  grace : Int
  aborted : ℕ
  pc : Pc
  deriving DecidableEq

/-- A deletion (GC, an admin command, the blob sweep), as far as its claim goes. -/
inductive Deleting where
  | start (hash : String)
  | held (hash : String)
  | ended
  deriving DecidableEq, Repr

inductive Task where
  | put (p : Put)
  | pass (p : Pass)
  | deletion (d : Deleting)
  deriving DecidableEq

namespace Put

/-- The path a handler holds. -/
def held? : Put → Option String
  | claimed hash => some hash
  | streaming hash _ => some hash
  | aborting hash _ => some hash
  | stored hash => some hash
  | _ => none

/-- A handler is dropped: what it waits for may be done all the same. -/
def drop (w : World) (o : Outside) : Put → Option (World × Put)
  | start _ => some (w, ended)
  | claimed hash =>
    some ((if o.reply.applied then w.create (keyFor hash) else w).release hash, ended)
  | streaming hash id => some ((if o.reply.applied then w.close id else w).release hash, ended)
  | aborting hash id => some ((if o.reply.applied then w.close id else w).release hash, ended)
  | stored hash => some (w.release hash, ended)
  | ended => none

/-- One step of `put_streaming`. -/
def step (w : World) (o : Outside) : Put → Option (World × Put)
  | start hash =>
    match w.inFlight.claim hash with
    | .ok f => some ({ w with inFlight := f }, claimed hash)
    | .error _ => some (w, ended)
  | claimed hash =>
    match o.body with
    -- the body fits one `PutObject`, or its first part cannot be read
    | .ends => some (w, stored hash)
    | .fails => some (w.release hash, ended)
    | .part =>
      match o.reply with
      | .done => some (w.create (keyFor hash), streaming hash w.nextId)
      | .lost => some ((w.create (keyFor hash)).release hash, ended)
      | .refused => some (w.release hash, ended)
  | streaming hash id =>
    match o.body with
    | .part => some (w, streaming hash id)
    | .fails => some (w, aborting hash id)
    | .ends =>
      -- S3 refuses to complete a multipart that is not open
      if (w.upload? id).isNone then some (w, aborting hash id)
      else
        match o.reply with
        | .done => some (w.close id, stored hash)
        | .lost => some (w.close id, aborting hash id)
        | .refused => some (w, aborting hash id)
  | aborting hash id => some ((if o.reply.applied then w.close id else w).release hash, ended)
  | stored hash => some (w.release hash, ended)
  | ended => none

/-- The steps of a handler, one constructor each. -/
inductive Stepped (w : World) : Put → World → Put → Prop
  | refused {hash : String} : Stepped w (start hash) w ended
  | claims {hash : String} {f : InFlight} (hf : w.inFlight.take hash .upload = .ok f) :
    Stepped w (start hash) { w with inFlight := f } (claimed hash)
  /-- The blob is stored in one request. -/
  | puts {hash : String} : Stepped w (claimed hash) w (stored hash)
  | opens {hash : String} :
    Stepped w (claimed hash) (w.create (keyFor hash)) (streaming hash w.nextId)
  /-- Nobody knows the multipart that was opened. -/
  | strays {hash : String} : Stepped w (claimed hash) ((w.create (keyFor hash)).release hash) ended
  | sends {hash : String} {id : ℕ} : Stepped w (streaming hash id) w (streaming hash id)
  | completes {hash : String} {id : ℕ} : Stepped w (streaming hash id) (w.close id) (stored hash)
  /-- The completion reached S3, its answer did not come back. -/
  | loses {hash : String} {id : ℕ} :
    Stepped w (streaming hash id) (w.close id) (aborting hash id)
  | fails {hash : String} {id : ℕ} : Stepped w (streaming hash id) w (aborting hash id)
  /-- The handler gives up its path, with or without its multipart. -/
  | leaves {p : Put} {hash : String} (hp : p.held? = some hash) : Stepped w p (w.release hash) ended
  | closes {p : Put} {hash : String} {id : ℕ} (hp : p = streaming hash id ∨ p = aborting hash id) :
    Stepped w p ((w.close id).release hash) ended

variable {w w' : World} {o : Outside} {p p' : Put}

theorem drop_cases (h : p.drop w o = some (w', p')) : Stepped w p w' p' := by
  cases p with
  | start hash =>
    obtain ⟨rfl, rfl⟩ := Prod.mk.inj (Option.some.inj h)
    exact .refused
  | claimed hash =>
    simp only [drop] at h
    obtain ⟨rfl, rfl⟩ := Prod.mk.inj (Option.some.inj h)
    split
    · exact .strays
    · exact .leaves rfl
  | streaming hash id =>
    simp only [drop] at h
    obtain ⟨rfl, rfl⟩ := Prod.mk.inj (Option.some.inj h)
    split
    · exact .closes (Or.inl rfl)
    · exact .leaves rfl
  | aborting hash id =>
    simp only [drop] at h
    obtain ⟨rfl, rfl⟩ := Prod.mk.inj (Option.some.inj h)
    split
    · exact .closes (Or.inr rfl)
    · exact .leaves rfl
  | stored hash =>
    obtain ⟨rfl, rfl⟩ := Prod.mk.inj (Option.some.inj h)
    exact .leaves rfl
  | ended => exact absurd h (by simp [drop])

theorem step_cases (h : p.step w o = some (w', p')) : Stepped w p w' p' := by
  cases p with
  | start hash =>
    simp only [step] at h
    split at h
    · rename_i f hf
      obtain ⟨rfl, rfl⟩ := Prod.mk.inj (Option.some.inj h)
      exact .claims (InFlight.claim_ok hf)
    · obtain ⟨rfl, rfl⟩ := Prod.mk.inj (Option.some.inj h)
      exact .refused
  | claimed hash =>
    simp only [step] at h
    split at h
    · obtain ⟨rfl, rfl⟩ := Prod.mk.inj (Option.some.inj h)
      exact .puts
    · obtain ⟨rfl, rfl⟩ := Prod.mk.inj (Option.some.inj h)
      exact .leaves rfl
    · split at h
      · obtain ⟨rfl, rfl⟩ := Prod.mk.inj (Option.some.inj h)
        exact .opens
      · obtain ⟨rfl, rfl⟩ := Prod.mk.inj (Option.some.inj h)
        exact .strays
      · obtain ⟨rfl, rfl⟩ := Prod.mk.inj (Option.some.inj h)
        exact .leaves rfl
  | streaming hash id =>
    simp only [step] at h
    split at h
    · obtain ⟨rfl, rfl⟩ := Prod.mk.inj (Option.some.inj h)
      exact .sends
    · obtain ⟨rfl, rfl⟩ := Prod.mk.inj (Option.some.inj h)
      exact .fails
    · split at h
      · obtain ⟨rfl, rfl⟩ := Prod.mk.inj (Option.some.inj h)
        exact .fails
      · split at h
        · obtain ⟨rfl, rfl⟩ := Prod.mk.inj (Option.some.inj h)
          exact .completes
        · obtain ⟨rfl, rfl⟩ := Prod.mk.inj (Option.some.inj h)
          exact .loses
        · obtain ⟨rfl, rfl⟩ := Prod.mk.inj (Option.some.inj h)
          exact .fails
  | aborting hash id =>
    simp only [step] at h
    obtain ⟨rfl, rfl⟩ := Prod.mk.inj (Option.some.inj h)
    split
    · exact .closes (Or.inr rfl)
    · exact .leaves rfl
  | stored hash =>
    obtain ⟨rfl, rfl⟩ := Prod.mk.inj (Option.some.inj h)
    exact .leaves rfl
  | ended => exact absurd h (by simp [step])

end Put

namespace Pass

/-- What a pass has still to look at. -/
def listed (p : Pass) : List Listed :=
  match p.pc with
  | .entries todo _ => todo
  | .abort _ todo _ => todo
  | _ => []

/-- The multipart a pass is about to abort. -/
def aborts? (p : Pass) : Option ℕ :=
  match p.pc with
  | .abort id _ _ => some id
  | _ => none

/-- A pass over `map`, before its first request. -/
def start (consults : Bool) (grace : Int) : Pass := ⟨consults, grace, 0, .list none⟩

/-- One step of `abort_stale_multiparts`. -/
def step (w : World) (o : Outside) (p : Pass) : Option (World × Pass) :=
  match p.pc with
  | .list marker =>
    if o.reply = .done then some (w, { p with pc := .entries (listPage w marker o.upTo) o.next })
    else some (w, { p with pc := .done (.error "listing multipart uploads") })
  | .entries [] none => some (w, { p with pc := .done (.ok ()) })
  | .entries [] (some none) =>
    some (w, { p with pc := .done (.error
      "listing multipart uploads: truncated page without a next marker") })
  | .entries [] (some (some m)) => some (w, { p with pc := .list (some m) })
  | .entries (e :: todo) next =>
    match hashFor e.key with
    | none => some (w, { p with pc := .entries todo next })
    | some hash =>
      if (p.consults && w.inFlight.contains hash) || decide (age w e < p.grace) then
        some (w, { p with pc := .entries todo next })
      else some (w, { p with pc := .abort e.id todo next })
  | .abort id todo next =>
    match o.reply with
    | .done => some (w.close id, { p with pc := .entries todo next, aborted := p.aborted + 1 })
    | .lost => some (w.close id, { p with pc := .done (.error "aborting stale multipart") })
    | .refused => some (w, { p with pc := .done (.error "aborting stale multipart") })
  | .done _ => none

/-- The steps of a pass, one constructor each. -/
inductive Stepped (w : World) (p : Pass) : World → Pass → Prop
  /-- The next page is read. -/
  | lists {marker upTo : Option Marker} {next : Option (Option Marker)} (hp : p.pc = .list marker) :
    Stepped w p w { p with pc := .entries (listPage w marker upTo) next }
  /-- Where it stands changes, and it has no more to look at than before. -/
  | moves {pc : Pc} (hl : ∀ e ∈ listed { p with pc := pc }, e ∈ p.listed)
    (ha : aborts? { p with pc := pc } = none) : Stepped w p w { p with pc := pc }
  | chooses {e : Listed} {todo : List Listed} {next : Option (Option Marker)} {hash : String}
    (hp : p.pc = .entries (e :: todo) next) (hh : hashFor e.key = some hash)
    (hf : p.consults = true → w.inFlight.contains hash = false) (hg : p.grace ≤ age w e) :
    Stepped w p w { p with pc := .abort e.id todo next }
  | closes {pc : Pc} {id n : ℕ} (hp : p.aborts? = some id)
    (hl : ∀ e ∈ listed { p with pc := pc }, e ∈ p.listed)
    (ha : aborts? { p with pc := pc } = none) :
    Stepped w p (w.close id) { p with pc := pc, aborted := n }

variable {w w' : World} {o : Outside} {p p' : Pass}

theorem step_cases (h : p.step w o = some (w', p')) : Stepped w p w' p' := by
  obtain ⟨consults, grace, aborted, pc⟩ := p
  cases pc with
  | list marker =>
    simp only [step] at h
    split at h
    · obtain ⟨rfl, rfl⟩ := Prod.mk.inj (Option.some.inj h)
      exact .lists rfl
    · obtain ⟨rfl, rfl⟩ := Prod.mk.inj (Option.some.inj h)
      exact .moves (by simp [listed]) rfl
  | entries todo next =>
    cases todo with
    | nil =>
      rcases next with _ | _ | m
      all_goals
        obtain ⟨rfl, rfl⟩ := Prod.mk.inj (Option.some.inj h)
        exact .moves (by simp [listed]) rfl
    | cons e todo =>
      have hsub : ∀ x ∈ todo, x ∈ listed ⟨consults, grace, aborted, .entries (e :: todo) next⟩ :=
        fun x hx => List.mem_cons_of_mem _ hx
      simp only [step] at h
      split at h
      · obtain ⟨rfl, rfl⟩ := Prod.mk.inj (Option.some.inj h)
        exact .moves hsub rfl
      · rename_i hash hh
        split at h
        · obtain ⟨rfl, rfl⟩ := Prod.mk.inj (Option.some.inj h)
          exact .moves hsub rfl
        · rename_i hskip
          obtain ⟨rfl, rfl⟩ := Prod.mk.inj (Option.some.inj h)
          simp only [Bool.or_eq_true, Bool.and_eq_true, decide_eq_true_eq, not_or, not_and,
            Bool.not_eq_true, not_lt] at hskip
          exact .chooses rfl hh hskip.1 hskip.2
  | abort id todo next =>
    simp only [step] at h
    split at h
    · obtain ⟨rfl, rfl⟩ := Prod.mk.inj (Option.some.inj h)
      exact .closes rfl (fun _ h => h) rfl
    · obtain ⟨rfl, rfl⟩ := Prod.mk.inj (Option.some.inj h)
      exact .closes (n := aborted) rfl (by simp [listed]) rfl
    · obtain ⟨rfl, rfl⟩ := Prod.mk.inj (Option.some.inj h)
      exact .moves (by simp [listed]) rfl
  | done r => exact absurd h (by simp [step])

end Pass

namespace Deleting

/-- The path a deletion holds. -/
def held? : Deleting → Option String
  | held hash => some hash
  | _ => none

/-- The claim is taken, and given back. -/
def step (w : World) : Deleting → Option (World × Deleting)
  | start hash =>
    match w.inFlight.claimDelete hash with
    | .ok f => some ({ w with inFlight := f }, held hash)
    | .error _ => some (w, ended)
  | held hash => some (w.release hash, ended)
  | ended => none

/-- A deletion opens and closes no multipart. -/
theorem upload?_step {w w' : World} {d d' : Deleting} (h : d.step w = some (w', d')) (id : ℕ) :
    w'.upload? id = w.upload? id := by
  cases d with
  | start hash =>
    simp only [step] at h
    split at h
    all_goals
      obtain ⟨rfl, rfl⟩ := Prod.mk.inj (Option.some.inj h)
      rfl
  | held hash =>
    obtain ⟨rfl, rfl⟩ := Prod.mk.inj (Option.some.inj h)
    rfl
  | ended => exact absurd h (by simp [step])

end Deleting

/-! ## The system -/

/-- What comes from outside the tasks. -/
inductive Event where
  | tick (now : Int)
  /-- A request of a handler that is gone, or of another writer, opens a multipart. -/
  | stray (key : String)

/-- A task before its first step. -/
def Task.initial : Task → Bool
  | .put (.start _) => true
  | .pass ⟨_, _, 0, .list none⟩ => true
  | .deletion (.start _) => true
  | _ => false

/-- One step of a task. -/
def Task.step (w : World) (o : Outside) : Task → Option (World × Task)
  | .put p => ((if o.dropped then p.drop w o else p.step w o)).map (Prod.map id .put)
  | .pass p => (p.step w o).map (Prod.map id .pass)
  | .deletion d => (d.step w).map (Prod.map id .deletion)

/-- An event from outside. -/
def Event.apply (w : World) : Event → World
  | .tick now => { w with clock := now }
  | .stray key => w.create key

/-- The Pusher and its bucket, as far as multiparts go. -/
def program : Program World Task Outside Event where
  initial := Task.initial
  run _ w o t := t.step w o
  outside w e := some (e.apply w)
  restart w _ := { w with inFlight := .new }

/-- The states of the system. -/
abbrev State := Tasks World Task

/-- Its actions. -/
abbrev Act := Tasks.Act Task Outside Event

/-- Task `i`, a handler. -/
def put? (s : State) (i : ℕ) : Option Put :=
  match s.task? i with
  | some (.put p) => some p
  | _ => none

/-- Task `i`, a pass. -/
def pass? (s : State) (i : ℕ) : Option Pass :=
  match s.task? i with
  | some (.pass p) => some p
  | _ => none

theorem put?_eq {s : State} {i : ℕ} {p : Put} (h : s.task? i = some (.put p)) :
    put? s i = some p := by
  simp [put?, h]

theorem pass?_eq {s : State} {i : ℕ} {p : Pass} (h : s.task? i = some (.pass p)) :
    pass? s i = some p := by
  simp [pass?, h]

/-- The steps of a task, by kind. -/
inductive Task.Stepped (w : World) : Task → World → Task → Prop
  | put {p p' : Put} {w' : World} (h : Put.Stepped w p w' p') : Stepped w (.put p) w' (.put p')
  | pass {p p' : Pass} {w' : World} (h : Pass.Stepped w p w' p') : Stepped w (.pass p) w' (.pass p')
  | refused {hash : String} : Stepped w (.deletion (.start hash)) w (.deletion .ended)
  | claims {hash : String} {f : InFlight} (hf : w.inFlight.take hash .delete = .ok f) :
    Stepped w (.deletion (.start hash)) { w with inFlight := f } (.deletion (.held hash))
  | leaves {hash : String} :
    Stepped w (.deletion (.held hash)) (w.release hash) (.deletion .ended)

theorem Task.step_cases {w w' : World} {o : Outside} {t t' : Task}
    (h : t.step w o = some (w', t')) : Stepped w t w' t' := by
  cases t with
  | put p =>
    simp only [Task.step] at h
    obtain ⟨⟨w₁, p'⟩, hp, he⟩ := Option.map_eq_some_iff.mp h
    obtain ⟨rfl, rfl⟩ := Prod.mk.inj he
    split at hp
    · exact .put (Put.drop_cases hp)
    · exact .put (Put.step_cases hp)
  | pass p =>
    obtain ⟨⟨w₁, p'⟩, hp, he⟩ := Option.map_eq_some_iff.mp h
    obtain ⟨rfl, rfl⟩ := Prod.mk.inj he
    exact .pass (Pass.step_cases hp)
  | deletion d =>
    obtain ⟨⟨w₁, d'⟩, hd, he⟩ := Option.map_eq_some_iff.mp h
    obtain ⟨rfl, rfl⟩ := Prod.mk.inj he
    cases d with
    | start hash =>
      simp only [Deleting.step] at hd
      split at hd
      · rename_i f hf
        obtain ⟨rfl, rfl⟩ := Prod.mk.inj (Option.some.inj hd)
        exact .claims hf
      · obtain ⟨rfl, rfl⟩ := Prod.mk.inj (Option.some.inj hd)
        exact .refused
    | held hash =>
      obtain ⟨rfl, rfl⟩ := Prod.mk.inj (Option.some.inj hd)
      exact .leaves
    | ended => exact absurd hd (by simp [Deleting.step])

/-- The claim a task holds. -/
def Task.held? : Task → Option (String × Kind)
  | .put p => p.held?.map (·, .upload)
  | .deletion d => d.held?.map (·, .delete)
  | .pass _ => none

/-- The multipart a task may yet close. -/
def Task.touches? : Task → Option ℕ
  | .put (.streaming _ id) => some id
  | .put (.aborting _ id) => some id
  | .pass p => p.aborts?
  | _ => none

/-- The path and the multipart a task streams to. -/
def Task.streams? : Task → Option (String × ℕ)
  | .put (.streaming hash id) => some (hash, id)
  | _ => none

/-- What a task has of a listing. -/
def Task.listed : Task → List Listed
  | .pass p => p.listed
  | _ => []

/-! ## What every interleaving keeps -/

/-- What S3 promises of the ids it gave. -/
def World.Fresh (w : World) : Prop := ∀ id x, w.upload? id = some x → id < w.nextId

/-- A listed multipart was given its id, and is under the same key while it is open. -/
def Listed.Agrees (w : World) (e : Listed) : Prop :=
  e.id < w.nextId ∧ ∀ x, w.upload? e.id = some x → x.key = e.key

/-- A task and the shared state. -/
structure Task.Well (w : World) (t : Task) : Prop where
  holds : ∀ hash k, t.held? = some (hash, k) → w.inFlight.kind hash = some k
  touches : ∀ id, t.touches? = some id → id < w.nextId
  /-- A handler that streams holds its path and finds its multipart open. -/
  streams : ∀ hash id, t.streams? = some (hash, id) →
    t.held? = some (hash, .upload) ∧ ∃ x, w.upload? id = some x ∧ x.key = keyFor hash
  listed : ∀ e ∈ t.listed, e.Agrees w
  consults : ∀ p, t = .pass p → p.consults = true

/-- Two tasks: no path is held twice, and what one streams to the other will not close. -/
structure Task.Apart (t u : Task) : Prop where
  held : ∀ hash k k', t.held? = some (hash, k) → u.held? ≠ some (hash, k')
  closes : ∀ hash id, t.touches? = some id → u.streams? ≠ some (hash, id)

/-- What a step of a task can do to the shared state. -/
structure Task.Moves (t : Task) (w w' : World) : Prop where
  kind : ∀ hash k, w.inFlight.kind hash = some k → (∀ k', t.held? ≠ some (hash, k')) →
    w'.inFlight.kind hash = some k
  nextId : w.nextId ≤ w'.nextId
  kept : ∀ id x, w.upload? id = some x → t.touches? ≠ some id → w'.upload? id = some x
  old : ∀ id x, id < w.nextId → w'.upload? id = some x → w.upload? id = some x
  fresh : w'.Fresh

namespace World

variable {w : World} {t : Task} {hash : String} {k : Kind} {f : InFlight}

theorem moves_refl (hw : w.Fresh) : t.Moves w w :=
  ⟨fun _ _ h _ => h, Nat.le_refl _, fun _ _ h _ => h, fun _ _ _ h => h, hw⟩

theorem moves_take (hw : w.Fresh) (hf : w.inFlight.take hash k = .ok f) :
    t.Moves w { w with inFlight := f } where
  kind x k' hx _ := by
    obtain ⟨hfree, hk⟩ := InFlight.take_ok hf
    have hne : x ≠ hash := by
      rintro rfl
      rw [hfree] at hx
      exact absurd hx (by simp)
    rw [hk x, if_neg hne]
    exact hx
  nextId := Nat.le_refl _
  kept _ _ h _ := h
  old _ _ _ h := h
  fresh := hw

theorem moves_release {w' : World} (h : t.Moves w w') (ht : t.held? = some (hash, k)) :
    t.Moves w (w'.release hash) where
  kind x k' hx hn := by
    have hne : x ≠ hash := by
      rintro rfl
      exact hn k ht
    exact (InFlight.kind_release _ _ _).trans ((if_neg hne).trans (h.kind x k' hx hn))
  nextId := h.nextId
  kept := h.kept
  old := h.old
  fresh := h.fresh

theorem moves_create (hw : w.Fresh) (key : String) : t.Moves w (w.create key) where
  kind _ _ h _ := h
  nextId := Nat.le_succ _
  kept id x h _ := by
    rw [upload?_create, if_neg (Nat.ne_of_lt (hw id x h))]
    exact h
  old id x hid h := by
    rw [upload?_create, if_neg (Nat.ne_of_lt hid)] at h
    exact h
  fresh id x h := by
    rw [upload?_create] at h
    split at h
    · rename_i hid
      exact hid ▸ Nat.lt_succ_self _
    · exact Nat.lt_succ_of_lt (hw id x h)

theorem moves_close {id : ℕ} (hw : w.Fresh) (ht : t.touches? = some id) :
    t.Moves w (w.close id) where
  kind _ _ h _ := h
  nextId := Nat.le_refl _
  kept x u h hx := by
    have hne : x ≠ id := by
      rintro rfl
      exact hx ht
    rw [upload?_close, if_neg hne]
    exact h
  old x u _ h := by
    rw [upload?_close] at h
    split at h
    · exact absurd h (by simp)
    · exact h
  fresh x u h := by
    rw [upload?_close] at h
    split at h
    · exact absurd h (by simp)
    · exact hw x u h

end World

namespace Task

variable {w w' : World} {t t' u : Task}

theorem held_put {p : Put} {hash : String} (h : p.held? = some hash) :
    (Task.put p).held? = some (hash, .upload) := by
  simp [held?, h]

theorem touches_put {p : Put} {hash : String} {id : ℕ}
    (h : p = .streaming hash id ∨ p = .aborting hash id) :
    (Task.put p).touches? = some id ∧ p.held? = some hash := by
  rcases h with rfl | rfl
  · exact ⟨rfl, rfl⟩
  · exact ⟨rfl, rfl⟩

/-- **A step of a task leaves alone what the task neither holds nor touches.** -/
theorem Stepped.moves (hw : w.Fresh) (h : Stepped w t w' t') : t.Moves w w' := by
  cases h with
  | put h =>
    cases h with
    | refused => exact World.moves_refl hw
    | claims hf => exact World.moves_take hw hf
    | puts => exact World.moves_refl hw
    | opens => exact World.moves_create hw _
    | strays => exact World.moves_release (World.moves_create hw _) (held_put rfl)
    | sends => exact World.moves_refl hw
    | completes => exact World.moves_close hw rfl
    | loses => exact World.moves_close hw rfl
    | fails => exact World.moves_refl hw
    | leaves hp => exact World.moves_release (World.moves_refl hw) (held_put hp)
    | closes hp =>
      obtain ⟨ht, hh⟩ := touches_put hp
      exact World.moves_release (World.moves_close hw ht) (held_put hh)
  | pass h =>
    cases h with
    | lists => exact World.moves_refl hw
    | moves => exact World.moves_refl hw
    | chooses => exact World.moves_refl hw
    | closes hp => exact World.moves_close hw hp
  | refused => exact World.moves_refl hw
  | claims hf => exact World.moves_take hw hf
  | leaves => exact World.moves_release (World.moves_refl hw) rfl

/-- What a task holds after its step it held before, or has just claimed. -/
theorem Stepped.held (h : Stepped w t w' t') {hash : String} {k : Kind}
    (hh : t'.held? = some (hash, k)) :
    t.held? = some (hash, k) ∧ (∀ x, w'.inFlight.kind x = w.inFlight.kind x) ∨
      w.inFlight.kind hash = none ∧ w'.inFlight.kind hash = some k := by
  have hclaims : ∀ {x : String} {f : InFlight} {k₀ : Kind}, w.inFlight.take x k₀ = .ok f →
      some (x, k₀) = some (hash, k) → w.inFlight.kind hash = none ∧ f.kind hash = some k := by
    intro x f k₀ hf hx
    obtain ⟨rfl, rfl⟩ := Prod.mk.inj (Option.some.inj hx)
    obtain ⟨hfree, hk⟩ := InFlight.take_ok hf
    exact ⟨hfree, by rw [hk, if_pos rfl]⟩
  cases h with
  | put h =>
    cases h with
    | refused => exact absurd hh (by simp [held?, Put.held?])
    | claims hf => exact Or.inr (hclaims hf hh)
    | puts => exact Or.inl ⟨hh, fun _ => rfl⟩
    | opens => exact Or.inl ⟨hh, fun _ => rfl⟩
    | strays => exact absurd hh (by simp [held?, Put.held?])
    | sends => exact Or.inl ⟨hh, fun _ => rfl⟩
    | completes => exact Or.inl ⟨hh, fun _ => rfl⟩
    | loses => exact Or.inl ⟨hh, fun _ => rfl⟩
    | fails => exact Or.inl ⟨hh, fun _ => rfl⟩
    | leaves => exact absurd hh (by simp [held?, Put.held?])
    | closes => exact absurd hh (by simp [held?, Put.held?])
  | pass => exact absurd hh (by simp [held?])
  | refused => exact absurd hh (by simp [held?, Deleting.held?])
  | claims hf => exact Or.inr (hclaims hf hh)
  | leaves => exact absurd hh (by simp [held?, Deleting.held?])

/-- What a task streams to after its step it streamed to before, or has just opened. -/
theorem Stepped.streams (h : Stepped w t w' t') {hash : String} {id : ℕ}
    (hs : t'.streams? = some (hash, id)) :
    t'.held? = some (hash, .upload) ∧
      (w' = w ∧ t.streams? = some (hash, id) ∨ id = w.nextId ∧ w' = w.create (keyFor hash)) := by
  cases h with
  | put h =>
    cases h with
    | opens =>
      obtain ⟨rfl, rfl⟩ := Prod.mk.inj (Option.some.inj hs)
      exact ⟨rfl, Or.inr ⟨rfl, rfl⟩⟩
    | sends =>
      obtain ⟨rfl, rfl⟩ := Prod.mk.inj (Option.some.inj hs)
      exact ⟨rfl, Or.inl ⟨rfl, rfl⟩⟩
    | _ => exact absurd hs (by simp [streams?])
  | _ => exact absurd hs (by simp [streams?])

/-- What a task may close after its step: what it might close before, what it has just opened, or
what a pass has found on its list with its path not in flight. -/
theorem Stepped.touches (h : Stepped w t w' t') {id : ℕ} (hs : t'.touches? = some id) :
    t.touches? = some id ∨ id = w.nextId ∧ w.nextId < w'.nextId ∨
      w' = w ∧ ∃ p e hash, t = .pass p ∧ e ∈ p.listed ∧ e.id = id ∧ hashFor e.key = some hash ∧
        (p.consults = true → w.inFlight.contains hash = false) := by
  cases h with
  | put h =>
    cases h with
    | opens =>
      obtain rfl := Option.some.inj hs
      exact Or.inr (Or.inl ⟨rfl, Nat.lt_succ_self _⟩)
    | sends => exact Or.inl hs
    | loses => exact Or.inl hs
    | fails => exact Or.inl hs
    | _ => exact absurd hs (by simp [touches?])
  | @pass p p' w' h =>
    cases h with
    | lists => exact absurd hs (by simp [touches?, Pass.aborts?])
    | moves hl ha => exact absurd (ha.symm.trans hs) (by simp)
    | @chooses e todo next hash hp hh hf hg =>
      refine Or.inr (Or.inr ⟨rfl, p, e, hash, rfl, ?_, Option.some.inj hs, hh, hf⟩)
      rw [Pass.listed, hp]
      exact List.mem_cons_self
    | closes hp hl ha => exact absurd (ha.symm.trans hs) (by simp)
  | _ => exact absurd hs (by simp [touches?])

/-- A pass looks at what it has listed before, or at a page of what is open now. -/
theorem Stepped.listed (h : Stepped w t w' t') {e : Listed} (he : e ∈ t'.listed) :
    e ∈ t.listed ∨ w' = w ∧ ∃ x, w.upload? e.id = some x ∧ x.key = e.key := by
  cases h with
  | pass h =>
    cases h with
    | lists =>
      obtain ⟨⟨id, x⟩, hx, rfl⟩ := List.mem_map.mp ((List.mem_insertionSort _).mp he)
      exact Or.inr ⟨rfl, x, Table.lookup_eq_some_iff.mpr (List.mem_filter.mp hx).1, rfl⟩
    | moves hl ha => exact Or.inl (hl e he)
    | chooses hp =>
      refine Or.inl ?_
      rw [Task.listed, Pass.listed, hp]
      exact List.mem_cons_of_mem _ he
    | closes hp hl ha => exact Or.inl (hl e he)
  | _ => exact absurd he List.not_mem_nil

theorem Stepped.consults (h : Stepped w t w' t') (hc : ∀ p, t = .pass p → p.consults = true)
    {p : Pass} (hp : t' = .pass p) : p.consults = true := by
  cases h with
  | @pass p₀ p₁ w₁ h =>
    obtain rfl := Task.pass.inj hp
    have hsame : p₁.consults = p₀.consults := by
      cases h with
      | _ => rfl
    rw [hsame]
    exact hc p₀ rfl
  | _ => exact absurd hp (by simp)

end Task

/-- A task that has not begun holds, touches and lists nothing. -/
theorem Task.initial_cases {t : Task} (h : t.initial = true) :
    t.held? = none ∧ t.touches? = none ∧ t.streams? = none ∧ t.listed = [] := by
  unfold Task.initial at h
  split at h
  · exact ⟨rfl, rfl, rfl, rfl⟩
  · exact ⟨rfl, rfl, rfl, rfl⟩
  · exact ⟨rfl, rfl, rfl, rfl⟩
  · exact absurd h (by simp)

/-- The process serves: no pass is started that does not consult the in-flight map. -/
def Serving (_ : State) : Act → Prop
  | .spawn _ (.pass p) => p.consults = true
  | _ => True

theorem Listed.Agrees.moves {t : Task} {w w' : World} {e : Listed} (h : e.Agrees w)
    (hm : t.Moves w w') : e.Agrees w' :=
  ⟨Nat.lt_of_lt_of_le h.1 hm.nextId, fun x hx => h.2 x (hm.old e.id x h.1 hx)⟩

/-- What a task has, another one's step leaves to it. -/
theorem Task.Well.moves {t u : Task} {w w' : World} (h : u.Well w) (hm : t.Moves w w')
    (ha : t.Apart u) : u.Well w' where
  holds hash k hh := hm.kind hash k (h.holds hash k hh) fun k' ht => ha.held hash k' k ht hh
  touches id hid := Nat.lt_of_lt_of_le (h.touches id hid) hm.nextId
  streams hash id hs :=
    have ⟨hheld, x, hx, hkey⟩ := h.streams hash id hs
    ⟨hheld, x, hm.kept id x hx fun ht => ha.closes hash id ht hs, hkey⟩
  listed e he := (h.listed e he).moves hm
  consults := h.consults

/-- A task's own step. -/
theorem Task.Well.step {t t' : Task} {w w' : World} (hw : w.Fresh) (h : t.Well w)
    (hs : Stepped w t w' t') : t'.Well w' where
  holds hash k hh := by
    rcases hs.held hh with ⟨hheld, hsame⟩ | ⟨-, hnew⟩
    · rw [hsame hash]
      exact h.holds hash k hheld
    · exact hnew
  touches id hid := by
    have hmono := (hs.moves hw).nextId
    rcases hs.touches hid with ht | ⟨rfl, hlt⟩ | ⟨-, p, e, hash, rfl, he, rfl, -, -⟩
    · exact Nat.lt_of_lt_of_le (h.touches id ht) hmono
    · exact hlt
    · exact Nat.lt_of_lt_of_le (h.listed e he).1 hmono
  streams hash id hst := by
    obtain ⟨hheld, ⟨rfl, hold⟩ | ⟨rfl, rfl⟩⟩ := hs.streams hst
    · exact ⟨hheld, (h.streams hash id hold).2⟩
    · exact ⟨hheld, ⟨keyFor hash, w.clock⟩, by rw [World.upload?_create, if_pos rfl], rfl⟩
  listed e he := by
    rcases hs.listed he with hold | ⟨rfl, x, hx, hkey⟩
    · exact (h.listed e hold).moves (hs.moves hw)
    · refine ⟨hw e.id x hx, fun y hy => ?_⟩
      rw [← Option.some.inj (hx.symm.trans hy)]
      exact hkey
  consults p hp := hs.consults h.consults hp

/-- A task's step, against another task. -/
theorem Task.Apart.step {t t' u : Task} {w w' : World} (ht : t.Well w) (hu : u.Well w)
    (htu : t.Apart u) (hut : u.Apart t) (hs : Stepped w t w' t') :
    t'.Apart u ∧ u.Apart t' := by
  have hheld : ∀ hash k k', t'.held? = some (hash, k) → u.held? ≠ some (hash, k') := by
    intro hash k k' hh hk'
    rcases hs.held hh with ⟨hold, -⟩ | ⟨hfree, -⟩
    · exact htu.held hash k k' hold hk'
    · rw [hu.holds hash k' hk'] at hfree
      exact absurd hfree (by simp)
  have hcloses : ∀ hash id, t'.touches? = some id → u.streams? ≠ some (hash, id) := by
    intro hash id hid hst
    obtain ⟨hheldu, x, hx, hkey⟩ := hu.streams hash id hst
    rcases hs.touches hid with hold | ⟨rfl, -⟩ | ⟨-, p, e, hash', rfl, he, rfl, hhash, hfree⟩
    · exact htu.closes hash id hold hst
    · have : u.touches? = some w.nextId := by
        cases u with
        | put q =>
          cases q with
          | streaming h i => rw [(Prod.mk.inj (Option.some.inj hst)).2.symm]; rfl
          | _ => exact absurd hst (by simp [Task.streams?])
        | _ => exact absurd hst (by simp [Task.streams?])
      exact absurd (hu.touches _ this) (Nat.lt_irrefl _)
    · -- the multipart is under the handler's path, which is in flight
      have hsame : hash' = hash := by
        have hk := (ht.listed e he).2 x hx
        rw [hkey, hashFor_eq_some hhash] at hk
        exact (keyFor_injective hk).symm
      have hc := hfree (ht.consults p rfl)
      rw [hsame, InFlight.contains, hu.holds hash .upload hheldu] at hc
      exact absurd hc (by simp)
  refine ⟨⟨hheld, hcloses⟩, fun hash k k' hk hh => hheld hash k' k hh hk,
    fun hash id hid hst => ?_⟩
  obtain ⟨-, ⟨-, hold⟩ | ⟨rfl, -⟩⟩ := hs.streams hst
  · exact hut.closes hash id hid hold
  · exact absurd (hu.touches _ hid) (Nat.lt_irrefl _)

/-- **What every step of a serving process keeps.** -/
theorem keeps : program.Keeps Serving (fun s => s.shared.Fresh) (fun _ => Task.Well) Task.Apart where
  spawn {s i t} hok hI _ hi := by
    obtain ⟨hheld, htouch, hstream, hlist⟩ := Task.initial_cases hi
    refine ⟨hI.whole, by simp [hheld], by simp [htouch], by simp [hstream], by simp [hlist],
      fun p hp => ?_⟩
    subst hp
    exact hok
  spawnPair _ _ hi _ := by
    obtain ⟨hheld, htouch, hstream, -⟩ := Task.initial_cases hi
    exact ⟨⟨by simp [hheld], by simp [htouch]⟩, ⟨by simp [hheld], by simp [hstream]⟩⟩
  self _ hI ht h :=
    have hs := Task.step_cases h
    ⟨(hs.moves hI.whole).fresh, (hI.task _ _ ht).step hI.whole hs⟩
  other _ hI ht h hji hu :=
    have hs := Task.step_cases h
    have htu := hI.pair _ _ _ _ (Ne.symm hji) ht hu
    ⟨(hI.task _ _ hu).moves (hs.moves hI.whole) htu,
      htu.step (hI.task _ _ ht) (hI.task _ _ hu) (hI.pair _ _ _ _ hji hu ht) hs⟩
  outside {s e w'} _ hI h := by
    obtain rfl := Option.some.inj h
    -- an event moves the shared state as a task would that holds and touches nothing
    have hm : (Task.deletion .ended).Moves s.shared (e.apply s.shared) := by
      cases e with
      | tick now =>
        exact ⟨fun _ _ h _ => h, Nat.le_refl _, fun _ _ h _ => h, fun _ _ _ h => h, hI.whole⟩
      | stray key => exact World.moves_create hI.whole key
    exact ⟨hm.fresh, fun i t ht => (hI.task i t ht).moves hm
      ⟨by simp [Task.held?, Deleting.held?], by simp [Task.touches?]⟩⟩
  restart _ hI := hI.whole

/-- The invariant of a serving process. -/
abbrev Inv : State → Prop :=
  Program.Invariant (fun s => s.shared.Fresh) (fun _ => Task.Well) Task.Apart

/-- **Every run of a serving process has it.** -/
theorem invariant {clock : Int} {s : State}
    (h : Reach program.step Serving (.boot (.boot clock)) s) : Inv s :=
  keeps.reach h (Program.Invariant.boot fun _ _ h => absurd h (by simp [World.upload?, World.boot]))

end Garret.Multiparts
