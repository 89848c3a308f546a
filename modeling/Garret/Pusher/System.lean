import Garret.Lib.Run
import Garret.Pusher.Admin
import Garret.Pusher.Fsck
import Garret.Pusher.Gc
import Garret.Pusher.Upload

/-!
# The Pusher as a whole

Any number of tasks over one shared state (`Sys`). An action (`Act`) starts a task, runs one step of
one, drops an upload handler, answers a Negotiation, sets or drops a pin, bumps access times, moves
the clock, loses a blob, or crashes the process and starts it again. Runs are `Lib.Reach` over
`Sys.step`; what a claim assumes of its environment is a guard on actions.

* `Sys.step_effect`: every action has one `Effect`, and only the tasks and actions `Causes` names
  have it. `Inv.causes_inserted`, `causes_put` and `causes_unlinked` read off the claim behind it.
* `Sys.Inv` is what every claim builds on: the in-flight map agrees with what the tasks hold, an
  upload past its second check has no row, a queued blob has no row, a prune's plan is current.
  `Sys.inv_step` shows that every action keeps it.
-/

namespace Garret

open Garret.Lib

/-! ## Tasks -/

/-- What the Pusher runs. -/
inductive Task where
  | upload (u : Upload)
  | gc (g : Gc)
  | sweep (s : Sweep)
  | delete (d : Delete)
  | prune (p : Prune)
  | resign (r : Resign)
  | fsck (f : Fsck)

namespace Task

/-- A task before its first step. -/
def initial : Task → Bool
  | upload (.start _ _) => true
  | gc .start => true
  | sweep .start => true
  | delete (.start _ _ none) => true
  | delete (.list _ _ _) => true
  | prune (.start _ _) => true
  | resign .start => true
  | fsck (.start _ _) => true
  | _ => false

/-- The claims a task holds. -/
def holds : Task → List (String × Kind)
  | upload u => u.holds
  | gc g => g.holds
  | sweep s => s.holds
  | delete d => d.holds
  | prune p => p.holds
  | _ => []

/-- The deletion a task has under way. -/
def deletion : Task → Deletion
  | gc g => g.deletion
  | sweep s => s.deletion
  | delete d => d.deletion
  | prune p => p.deletion
  | _ => ⟨[], []⟩

/-- The task keeps the connection. -/
def locked : Task → Bool
  | sweep s => s.locked
  | prune p => p.locked
  | _ => false

/-- The hashes a task relies on having no row. -/
def absent : Task → List String
  | upload u => u.absent
  | _ => []

/-- The object a task is going to insert. -/
def object? : Task → Option (String × Object)
  | upload u => u.object?
  | _ => none

/-- What a task knows from its own steps about what it deletes next. -/
def Planned (db : Db) : Task → Prop
  | delete d => d.Wf
  | prune p => p.Planned db
  | _ => True

variable {δ : Type} (env : Env δ)

/-- One step of a task. -/
def step (me : ℕ) (w : World) (o : Oracle) : Task → Option (World × Task)
  | upload u => (u.step env me w o).map (Prod.map id upload)
  | gc g => (g.step env me w o).map (Prod.map id gc)
  | sweep s => (s.step env me w o).map (Prod.map id sweep)
  | delete d => (d.step me w o).map (Prod.map id delete)
  | prune p => (p.step me w o).map (Prod.map id prune)
  | resign r => (r.step env me w o).map (Prod.map id resign)
  | fsck f => (f.step env me w o).map (Prod.map id fsck)

/-- An upload handler is dropped; nothing cancels the other tasks. -/
def drop (w : World) : Task → Option (World × Task)
  | upload u => (u.drop w).map (Prod.map id upload)
  | _ => none

/-- The steps of a task, by kind. -/
inductive Stepped (me : ℕ) (w : World) (o : Oracle) : Task → World → Task → Prop
  | upload {u u' : Upload} {w' : World} (h : Upload.Stepped env me w o u w' u') :
    Stepped me w o (upload u) w' (upload u')
  | gc {g g' : Gc} {w' : World} (h : Gc.Stepped me w o g w' g') : Stepped me w o (gc g) w' (gc g')
  | sweep {s s' : Sweep} {w' : World} (h : Sweep.Stepped me w o s w' s') :
    Stepped me w o (sweep s) w' (sweep s')
  | delete {d d' : Delete} {w' : World} (h : Delete.Stepped me w o d w' d') :
    Stepped me w o (delete d) w' (delete d')
  | prune {p p' : Prune} {w' : World} (h : Prune.Stepped me w o p w' p') :
    Stepped me w o (prune p) w' (prune p')
  | resign {r r' : Resign} {w' : World} (h : Resign.Stepped env me w o r w' r') :
    Stepped me w o (resign r) w' (resign r')
  | fsck {f f' : Fsck} {w' : World} (h : Fsck.Stepped env me w o f w' f') :
    Stepped me w o (fsck f) w' (fsck f')
  /-- The handler of an upload is dropped. -/
  | dropped {u u' : Upload} {w' : World} (h : u.drop w = some (w', u')) :
    Stepped me w o (upload u) w' (upload u')

variable {env} {me : ℕ} {w w' : World} {o : Oracle} {t t' : Task}

theorem lift_cases {σ : Type} {f : σ → Task} {x : Option (World × σ)}
    (h : x.map (Prod.map id f) = some (w', t')) : ∃ s', x = some (w', s') ∧ t' = f s' := by
  obtain ⟨⟨w₁, s'⟩, hx, he⟩ := Option.map_eq_some_iff.mp h
  obtain ⟨rfl, rfl⟩ := Prod.mk.inj he
  exact ⟨s', hx, rfl⟩

theorem step_cases (h : t.step env me w o = some (w', t')) : Stepped env me w o t w' t' := by
  cases t with
  | upload u =>
    obtain ⟨u', hu, rfl⟩ := lift_cases h
    exact .upload (Upload.step_cases hu)
  | gc g =>
    obtain ⟨g', hg, rfl⟩ := lift_cases h
    exact .gc (Gc.step_cases hg)
  | sweep s =>
    obtain ⟨s', hs, rfl⟩ := lift_cases h
    exact .sweep (Sweep.step_cases hs)
  | delete d =>
    obtain ⟨d', hd, rfl⟩ := lift_cases h
    exact .delete (Delete.step_cases hd)
  | prune p =>
    obtain ⟨p', hp, rfl⟩ := lift_cases h
    exact .prune (Prune.step_cases hp)
  | resign r =>
    obtain ⟨r', hr, rfl⟩ := lift_cases h
    exact .resign (Resign.step_cases hr)
  | fsck f =>
    obtain ⟨f', hf, rfl⟩ := lift_cases h
    exact .fsck (Fsck.step_cases hf)

theorem drop_cases (h : t.drop w = some (w', t')) : Stepped env me w o t w' t' := by
  cases t with
  | upload u =>
    obtain ⟨u', hu, rfl⟩ := lift_cases h
    exact .dropped hu
  | _ => exact absurd h (by simp [drop])

/-- The effects a task's next step may have. -/
def Allows (w : World) : Task → Effect → Prop
  | upload u => u.Allows
  | gc g => g.Allows w
  | sweep s => s.Allows
  | delete d => d.Allows
  | prune p => p.Allows
  | resign r => r.Allows
  | fsck f => f.Allows

theorem allows_put {hash : String} {blob : Bytes} (h : t.Allows w (.put hash blob)) :
    ∃ subject, t = upload (.store hash subject) := by
  cases t with
  | upload u =>
    obtain ⟨subject, rfl⟩ := h
    exact ⟨subject, rfl⟩
  | _ => exact absurd h id

theorem allows_negotiated {hashes ms : List String} {now : Int}
    (h : t.Allows w (.negotiated hashes ms now)) : False := by
  cases t <;> exact h

theorem allows_unlinked {keys : List String} (h : t.Allows w (.unlinked keys)) :
    ∀ k ∈ keys, k ∈ t.deletion.keys := by
  cases t with
  | gc g => exact h
  | sweep s => exact h
  | delete d => exact h
  | prune p =>
    obtain ⟨f, pruned, rfl, hk⟩ := h
    exact hk
  | upload u => exact absurd h id
  | resign r => exact absurd h id
  | fsck f => exact absurd h id

/-! ## What a step of a task does -/

theorem step_effect (h : Stepped env me w o t w' t') (hp : t.Planned w.db) :
    ∃ e, Step me w w' t.holds t'.holds e ∧ t.Allows w e := by
  cases h with
  | upload h => exact Upload.step_effect h
  | gc h => exact Gc.step_effect h
  | sweep h => exact Sweep.step_effect h
  | delete h => exact Delete.step_effect h
  | prune h => exact Prune.step_effect h hp
  | resign h => exact Resign.step_effect h
  | fsck h => exact Fsck.step_effect h
  | dropped h => exact ⟨.quiet, Upload.drop_effect h, trivial⟩

theorem step_planned (h : Stepped env me w o t w' t') (hp : t.Planned w.db) :
    t'.Planned w'.db := by
  cases h with
  | delete h => exact Delete.step_wf h hp
  | prune h => exact Prune.step_planned h hp
  | _ => trivial

theorem step_ready (h : Stepped env me w o t w' t') (hp : t.Planned w.db)
    (hd : t.deletion.Ready w) : t'.deletion.Ready w' := by
  cases h with
  | gc h => exact Gc.step_ready h hd
  | sweep h => exact Sweep.step_ready h hd
  | delete h => exact Delete.step_ready h hp hd
  | prune h => exact Prune.step_ready h hd
  | _ => exact .nil _ _

theorem step_locked (h : Stepped env me w o t w' t') (hl : t.locked = true → w.conn = some me)
    (hl' : t'.locked = true) : w'.conn = some me := by
  cases h with
  | sweep h => exact Sweep.step_locked h hl hl'
  | prune h => exact Prune.step_locked h hl hl'
  | _ => exact absurd hl' (by simp [locked])

theorem step_absent (h : Stepped env me w o t w' t') (ha : ∀ k ∈ t.absent, w.row? k = none) :
    ∀ k ∈ t'.absent, w'.row? k = none := by
  cases h with
  | upload h => exact Upload.step_absent h ha
  | @dropped u u' w' h =>
    rcases Upload.drop_cases h with ⟨-, rfl, hash, rfl⟩ | ⟨hash, -, rfl, rfl⟩ |
      ⟨hash, obj, at', attached, rfl, rfl, rfl⟩
    · simp [absent, Upload.absent]
    · simp [absent, Upload.absent]
    · exact ha
  | _ => simp [absent]

/-- The object a task will insert was there before, or a transfer has just stored it. -/
theorem step_object (h : Stepped env me w o t w' t') {hash : String} {obj : Object}
    (ho : t'.object? = some (hash, obj)) :
    (t.object? = some (hash, obj) ∧ w'.bucket = w.bucket) ∨
    ((∃ subject, t = .upload (.store hash subject)) ∧ Upload.Prepared env hash obj ∧
      ∃ blob, w'.blob? hash = some blob ∧ Upload.Backs env blob obj.fileHash obj.fileSize) := by
  cases h with
  | upload h =>
    rcases Upload.step_object h ho with ⟨hold, hb⟩ | ⟨⟨subject, rfl⟩, hprep, hblob⟩
    · exact Or.inl ⟨hold, hb⟩
    · exact Or.inr ⟨⟨subject, rfl⟩, hprep, hblob⟩
  | @dropped u u' w' h =>
    rcases Upload.drop_cases h with ⟨-, rfl, k, rfl⟩ | ⟨k, -, rfl, rfl⟩ |
      ⟨k, ob, at', attached, rfl, rfl, rfl⟩
    · exact absurd ho (by simp [object?, Upload.object?])
    · exact absurd ho (by simp [object?, Upload.object?])
    · exact Or.inl ⟨ho, rfl⟩
  | _ => exact absurd ho (by simp [object?])

/-! ## Claims behind what a task relies on -/

theorem absent_held {hash : String} (h : hash ∈ t.absent) : (hash, Kind.upload) ∈ t.holds := by
  cases t with
  | upload u =>
    cases u with
    | store k subject => exact List.mem_singleton.mpr (by rw [List.mem_singleton.mp h])
    | stored k result => exact List.mem_singleton.mpr (by rw [List.mem_singleton.mp h])
    | insert k obj at' attached => exact List.mem_singleton.mpr (by rw [List.mem_singleton.mp h])
    | _ => exact absurd h List.not_mem_nil
  | _ => exact absurd h List.not_mem_nil

theorem object_absent {hash : String} {obj : Object} (h : t.object? = some (hash, obj)) :
    hash ∈ t.absent := by
  cases t with
  | upload u =>
    cases u with
    | stored k result =>
      cases result with
      | error e => exact absurd h (by simp [object?, Upload.object?])
      | ok ob =>
        obtain ⟨rfl, -⟩ := Prod.mk.inj (Option.some.inj h)
        exact List.mem_singleton.mpr rfl
    | insert k ob at' attached =>
      obtain ⟨rfl, -⟩ := Prod.mk.inj (Option.some.inj h)
      exact List.mem_singleton.mpr rfl
    | _ => exact absurd h (by simp [object?, Upload.object?])
  | _ => exact absurd h (by simp [object?])

theorem claims_held {hash : String} (h : hash ∈ t.deletion.claims) :
    (hash, Kind.delete) ∈ t.holds := by
  have hdel : ∀ {claims : List String}, hash ∈ claims → (hash, Kind.delete) ∈ deleting claims :=
    fun hc => List.mem_map.mpr ⟨hash, hc, rfl⟩
  cases t with
  | gc g =>
    cases g with
    | pick usage at' candidates settled d res => exact hdel h
    | evict usage at' k candidates d res => exact List.mem_cons_of_mem _ (hdel h)
    | finish usage settled f res => exact hdel h
    | _ => exact absurd h List.not_mem_nil
  | sweep s =>
    cases s with
    | pick orphans d => exact hdel h
    | look k orphans d => exact List.mem_cons_of_mem _ (hdel h)
    | finish f count => exact hdel h
    | _ => exact absurd h List.not_mem_nil
  | delete d =>
    cases d with
    | rows todo del acc listing =>
      cases del with
      | none => exact absurd h List.not_mem_nil
      | some del => exact hdel h
    | finish f acc listing => exact hdel h
    | _ => exact absurd h List.not_mem_nil
  | prune p =>
    cases p with
    | batches now doomed todo => exact hdel h
    | finish f pruned => exact hdel h
    | _ => exact absurd h List.not_mem_nil
  | _ => exact absurd h List.not_mem_nil

/-- Only a prune inside its closure plans against the database. -/
theorem planned_congr {db db' : Db} (h : t.Planned db) (hl : t.locked = true → db' = db) :
    t.Planned db' := by
  cases t with
  | delete d => exact h
  | prune p =>
    cases p with
    | claims now doomed taken todo => rwa [hl rfl]
    | order now doomed => rwa [hl rfl]
    | batches now doomed todo => rwa [hl rfl]
    | _ => trivial
  | _ => trivial

/-- A new task relies on nothing. -/
theorem initial_idle (h : t.initial = true) : t.holds = [] ∧ t.deletion = ⟨[], []⟩ ∧
    t.locked = false ∧ t.absent = [] ∧ t.object? = none ∧ ∀ db, t.Planned db := by
  cases t with
  | upload u =>
    cases u with
    | start hash subject => exact ⟨rfl, rfl, rfl, rfl, rfl, fun _ => trivial⟩
    | _ => exact absurd h (by simp [initial])
  | gc g =>
    cases g with
    | start => exact ⟨rfl, rfl, rfl, rfl, rfl, fun _ => trivial⟩
    | _ => exact absurd h (by simp [initial])
  | sweep s =>
    cases s with
    | start => exact ⟨rfl, rfl, rfl, rfl, rfl, fun _ => trivial⟩
    | _ => exact absurd h (by simp [initial])
  | delete d =>
    cases d with
    | start hashes dryRun listing => exact ⟨rfl, rfl, rfl, rfl, rfl, fun _ => trivial⟩
    | list subject since dryRun => exact ⟨rfl, rfl, rfl, rfl, rfl, fun _ => trivial⟩
    | _ => exact absurd h (by simp [initial])
  | prune p =>
    cases p with
    | start before dryRun => exact ⟨rfl, rfl, rfl, rfl, rfl, fun _ => trivial⟩
    | _ => exact absurd h (by simp [initial])
  | resign r => exact ⟨rfl, rfl, rfl, rfl, rfl, fun _ => trivial⟩
  | fsck f => exact ⟨rfl, rfl, rfl, rfl, rfl, fun _ => trivial⟩

end Task

/-! ## The system -/

/-- The shared state and the tasks. A finished task stays, with its result. -/
structure Sys where
  world : World
  tasks : Table ℕ Task

/-- What can happen next. -/
inductive Act where
  | spawn (i : ℕ) (t : Task)
  | step (i : ℕ) (o : Oracle)
  /-- The handler of an upload is dropped. -/
  | drop (i : ℕ)
  /-- The process dies and starts again: claims, tasks and the gate are gone. -/
  | crash
  /-- The clock reads `now`. -/
  | tick (now : Int)
  /-- `POST /missing-paths`. -/
  | negotiate (hashes : List String) (io : Faults)
  | pin (name hash : String) (expiresAt : Option Int) (io : Faults)
  | unpin (name : String) (io : Faults)
  /-- The Puller bumps access times, on a connection of its own. -/
  | bump (hashes : List String) (now staleAfter : Int) (io : Faults)
  /-- A blob is lost from the bucket. -/
  | lose (key : String)

/-- The task an action runs. -/
def Act.runs : Act → Option ℕ
  | .step i _ => some i
  | .drop i => some i
  | _ => none

namespace Sys

/-- A started process over a database and a bucket. -/
def boot (db : Db) (bucket : Table String Bytes) (clock : Int) : Sys :=
  ⟨World.boot db bucket clock, ∅⟩

/-- Task `i`. -/
def task? (s : Sys) (i : ℕ) : Option Task := s.tasks.lookup i

/-- The claims task `i` holds. -/
def holds (s : Sys) (i : ℕ) : List (String × Kind) := ((s.task? i).map Task.holds).getD []

/-- Task `i` goes on from `x`. -/
def put (s : Sys) (i : ℕ) (x : World × Task) : Sys := ⟨x.1, s.tasks.insert i x.2⟩

/-- A closure of its own leaves `db`. -/
def setDb (s : Sys) (db : Db) : Sys := { s with world := { s.world with db := db } }

variable {δ : Type} (env : Env δ)

/-- One action; `none` when it is not possible. -/
def step (s : Sys) : Act → Option Sys
  | .spawn i t => if (s.task? i).isNone && t.initial then some (s.put i (s.world, t)) else none
  | .step i o => (s.task? i).bind fun t => (t.step env i s.world o).map (s.put i)
  | .drop i => (s.task? i).bind fun t => (t.drop s.world).map (s.put i)
  | .crash => some (boot s.world.db s.world.bucket s.world.clock)
  | .tick now => some { s with world := { s.world with clock := now } }
  | .negotiate hashes io =>
    if s.world.conn = none then some (s.setDb (missing io hashes s.world.clock s.world.db).2)
    else none
  | .pin name hash expiresAt io =>
    if s.world.conn = none then
      some (s.setDb (Garret.pin io name hash expiresAt s.world.clock s.world.db).2)
    else none
  | .unpin name io =>
    if s.world.conn = none then some (s.setDb (Garret.unpin io name s.world.db).2) else none
  | .bump hashes now staleAfter io =>
    some (s.setDb (bumpLastAccessed io hashes now staleAfter s.world.db).2)
  | .lose key => some { s with world := s.world.unlink [key] }

/-- The actions, one constructor each. -/
inductive Stepped (s : Sys) : Act → Sys → Prop
  | spawned {i : ℕ} {t : Task} (hnone : s.task? i = none) (hi : t.initial = true) :
    Stepped s (.spawn i t) (s.put i (s.world, t))
  | ran {a : Act} {i : ℕ} {o : Oracle} {t t' : Task} {w' : World}
    (ha : a.runs = some i) (ht : s.task? i = some t)
    (h : Task.Stepped env i s.world o t w' t') : Stepped s a (s.put i (w', t'))
  | crashed : Stepped s .crash (boot s.world.db s.world.bucket s.world.clock)
  | ticked {now : Int} : Stepped s (.tick now) { s with world := { s.world with clock := now } }
  /-- The tasks and the clock stay, and the connection was free unless only access times moved. -/
  | outside {a : Act} {w' : World} {e : Effect} (hr : a.runs = none) (hd : e.Does s.world w')
    (hf : w'.inFlight = s.world.inFlight) (hc : w'.clock = s.world.clock)
    (hn : w'.conn = s.world.conn)
    (ha : (e = .quiet ∧ w'.db = s.world.db) ∨
      (∃ key, a = .lose key ∧ e = .unlinked [key]) ∨
      (e = .bumped ∧ ∃ hashes now staleAfter io, a = .bump hashes now staleAfter io) ∨
      (s.world.conn = none ∧ ((∃ hashes io ms, a = .negotiate hashes io ∧
          missing io hashes s.world.clock s.world.db = (.ok ms, w'.db) ∧
          e = .negotiated hashes ms s.world.clock) ∨
        (e = .pins ∧ ((∃ name hash expiresAt io, a = .pin name hash expiresAt io) ∨
          ∃ name io, a = .unpin name io))))) :
    Stepped s a { s with world := w' }

variable {env} {s s' : Sys} {a : Act}

theorem step_cases (h : s.step env a = some s') : Stepped env s a s' := by
  cases a with
  | spawn i t =>
    simp only [step] at h
    split at h
    · rename_i hi
      obtain rfl := Option.some.inj h
      simp only [Bool.and_eq_true, Option.isNone_iff_eq_none] at hi
      exact .spawned hi.1 hi.2
    · exact absurd h (by simp)
  | step i o =>
    obtain ⟨t, ht, h⟩ := Option.bind_eq_some_iff.mp h
    obtain ⟨⟨w', t'⟩, hs, rfl⟩ := Option.map_eq_some_iff.mp h
    exact .ran rfl ht (Task.step_cases hs)
  | drop i =>
    obtain ⟨t, ht, h⟩ := Option.bind_eq_some_iff.mp h
    obtain ⟨⟨w', t'⟩, hs, rfl⟩ := Option.map_eq_some_iff.mp h
    exact .ran (o := .calm) rfl ht (Task.drop_cases hs)
  | crash =>
    obtain rfl := Option.some.inj h
    exact .crashed
  | tick now =>
    obtain rfl := Option.some.inj h
    exact .ticked
  | negotiate hashes io =>
    simp only [step] at h
    split at h
    · rename_i hconn
      obtain rfl := Option.some.inj h
      rcases missing_cases (Prod.mk.eta (p := missing io hashes s.world.clock s.world.db)).symm with
        ⟨ms, hr, hms, ht, hpres⟩ | ⟨-, hdb⟩
      · refine .outside (e := .negotiated hashes ms s.world.clock) rfl ⟨⟨hms, ht, hpres⟩, rfl⟩ rfl
          rfl rfl (Or.inr (Or.inr (Or.inr ⟨hconn, Or.inl ⟨hashes, io, ms, rfl, ?_, rfl⟩⟩)))
        rw [← hr]
      · exact .outside (e := .quiet) rfl ⟨hdb, rfl⟩ rfl rfl rfl (Or.inl ⟨rfl, hdb⟩)
    · exact absurd h (by simp)
  | pin name hash expiresAt io =>
    simp only [step] at h
    split at h
    · rename_i hconn
      obtain rfl := Option.some.inj h
      exact .outside (e := .pins) rfl ⟨pin_row? (Prod.mk.eta (p := Garret.pin _ _ _ _ _ _)).symm, rfl⟩
        rfl rfl rfl (Or.inr (Or.inr (Or.inr ⟨hconn, Or.inr ⟨rfl, Or.inl ⟨_, _, _, _, rfl⟩⟩⟩)))
    · exact absurd h (by simp)
  | unpin name io =>
    simp only [step] at h
    split at h
    · rename_i hconn
      obtain rfl := Option.some.inj h
      exact .outside (e := .pins) rfl ⟨unpin_row? (Prod.mk.eta (p := Garret.unpin _ _ _)).symm, rfl⟩
        rfl rfl rfl (Or.inr (Or.inr (Or.inr ⟨hconn, Or.inr ⟨rfl, Or.inr ⟨_, _, rfl⟩⟩⟩)))
    · exact absurd h (by simp)
  | bump hashes now staleAfter io =>
    obtain rfl := Option.some.inj h
    exact .outside (e := .bumped) rfl
      ⟨bumpLastAccessed_cases (Prod.mk.eta (p := bumpLastAccessed _ _ _ _ _)).symm, rfl⟩
      rfl rfl rfl (Or.inr (Or.inr (Or.inl ⟨rfl, _, _, _, _, rfl⟩)))
  | lose key =>
    obtain rfl := Option.some.inj h
    exact .outside (e := .unlinked [key]) rfl ⟨rfl, rfl⟩ rfl rfl rfl (Or.inr (Or.inl ⟨key, rfl, rfl⟩))

/-- A step of task `i` is that task's. -/
theorem step_runs (h : s.step env a = some s') {i : ℕ} {t : Task} (ha : a.runs = some i)
    (ht : s.task? i = some t) :
    ∃ o t' w', Task.Stepped env i s.world o t w' t' ∧ s' = s.put i (w', t') := by
  cases step_cases h with
  | spawned hnone hinit => exact absurd ha (by simp [Act.runs])
  | crashed => exact absurd ha (by simp [Act.runs])
  | ticked => exact absurd ha (by simp [Act.runs])
  | outside hr => exact absurd ha (by simp [hr])
  | @ran a j o x t' w' haj hxj hrun =>
    obtain rfl := Option.some.inj (ha.symm.trans haj)
    obtain rfl := Option.some.inj (ht.symm.trans hxj)
    exact ⟨o, t', w', hrun, rfl⟩

/-! ## What every run keeps -/

/-- What a task relies on. -/
structure Sound (env : Env δ) (i : ℕ) (w : World) (t : Task) : Prop where
  planned : t.Planned w.db
  ready : t.deletion.Ready w
  locked : t.locked = true → w.conn = some i
  absent : ∀ k ∈ t.absent, w.row? k = none
  prepared : ∀ hash obj, t.object? = some (hash, obj) → Upload.Prepared env hash obj

/-- The in-flight map agrees with what the tasks hold, and every task has what it relies on. -/
structure Inv (env : Env δ) (s : Sys) : Prop where
  owned : Owned s.world.inFlight.kind s.holds
  sound : ∀ i t, s.task? i = some t → Sound env i s.world t

theorem task?_put (s : Sys) (i j : ℕ) (x : World × Task) :
    (s.put i x).task? j = if j = i then some x.2 else s.task? j := Table.lookup_insert_eq

theorem holds_put (s : Sys) (i : ℕ) (x : World × Task) :
    (s.put i x).holds = Function.update s.holds i x.2.holds := by
  funext j
  unfold holds
  rw [task?_put]
  by_cases hj : j = i
  · subst hj
    rw [if_pos rfl, Function.update_self]
    rfl
  · rw [if_neg hj, Function.update_of_ne hj]

theorem holds_of_task {i : ℕ} {t : Task} (h : s.task? i = some t) : s.holds i = t.holds := by
  unfold holds
  rw [h]
  rfl

/-- **Only the upload that holds a path inserts its row**, and there is none before. -/
theorem Inv.inserted {e : Effect} {obj : Object} {at' : Int} {i : ℕ} {t : Task}
    (hi : Inv env s) (ht : s.task? i = some t) (ha : t.Allows s.world e)
    (he : e = .inserted obj at') :
    ∃ hash attached, t = .upload (.insert hash obj at' attached) ∧ obj.storePathHash = hash ∧
      (hash, Kind.upload) ∈ t.holds ∧ s.world.row? hash = none := by
  subst he
  cases t with
  | upload u =>
    obtain ⟨hash, attached, rfl⟩ := ha
    have hs := hi.sound i _ ht
    refine ⟨hash, attached, rfl, (hs.prepared hash obj rfl).hash, List.mem_singleton.mpr rfl,
      hs.absent hash (List.mem_singleton.mpr rfl)⟩
  | _ => exact absurd ha id

/-- A row another task holds a claim for is not inserted by a step of task `i`. -/
theorem Inv.row_none {e : Effect} {i j : ℕ} {t t' : Task} {w' : World} (hi : Inv env s)
    (ht : s.task? i = some t) (hs : Step i s.world w' t.holds t'.holds e) (ha : t.Allows s.world e)
    (hij : j ≠ i) {hash : String} {k : Kind} (hheld : (hash, k) ∈ s.holds j)
    (hnone : s.world.row? hash = none) : w'.row? hash = none := by
  cases hrow : w'.row? hash with
  | none => rfl
  | some row =>
    obtain ⟨obj, at', he, hk, -⟩ := hs.does.row_new hnone hrow
    obtain ⟨h', attached, -, hobj, hin, -⟩ := hi.inserted ht ha he
    have hin' : (hash, Kind.upload) ∈ s.holds i := by
      rw [holds_of_task ht, hk, hobj]
      exact hin
    have hout : hash ∉ (s.holds i).map Prod.fst := hi.owned.disjoint j i hij (hash, k) hheld
    exact absurd (List.mem_map.mpr ⟨_, hin', rfl⟩) hout

/-- A task's step leaves another task with what it relies on. -/
theorem Sound.other {e : Effect} {i j : ℕ} {t t' u : Task} {w' : World} (hi : Inv env s)
    (ht : s.task? i = some t) (hs : Step i s.world w' t.holds t'.holds e) (ha : t.Allows s.world e)
    (hij : j ≠ i) (hu : s.task? j = some u) : Sound env j w' u := by
  have hsu := hi.sound j u hu
  have hheld : ∀ {x}, x ∈ u.holds → x ∈ s.holds j := fun hx => by rwa [holds_of_task hu]
  -- while `j` keeps the connection, task `i` changes nothing in the database
  have hlock : u.locked = true → w'.db = s.world.db ∧ w'.conn = some j := by
    intro hl
    have hconn := hsu.locked hl
    have hnot : ¬ s.world.free i := by
      rintro (h | h)
      · rw [hconn] at h
        exact absurd h (by simp)
      · rw [hconn] at h
        exact hij (Option.some.inj h)
    obtain ⟨hdb, hc⟩ := hs.conn.resolve_left hnot
    exact ⟨hdb, hc.trans hconn⟩
  refine ⟨Task.planned_congr hsu.planned fun hl => (hlock hl).1,
    hsu.ready.mono fun k hk hnone => ?_, fun hl => (hlock hl).2, fun k hk => ?_, hsu.prepared⟩
  · exact hi.row_none ht hs ha hij (hheld (Task.claims_held (Deletion.mem_queued.mp hk).1)) hnone
  · exact hi.row_none ht hs ha hij (hheld (Task.absent_held hk)) (hsu.absent k hk)

/-- A step leaves the task itself with what it relies on. -/
theorem Sound.self {i : ℕ} {o : Oracle} {t t' : Task} {w' : World} (hs : Sound env i s.world t)
    (h : Task.Stepped env i s.world o t w' t') : Sound env i w' t' := by
  refine ⟨Task.step_planned h hs.planned, Task.step_ready h hs.planned hs.ready,
    Task.step_locked h hs.locked, Task.step_absent h hs.absent, fun hash obj ho => ?_⟩
  rcases Task.step_object h ho with ⟨hold, -⟩ | ⟨-, hprep, -⟩
  · exact hs.prepared hash obj hold
  · exact hprep

/-- An action from outside leaves every task with what it relies on. -/
theorem Sound.outside {e : Effect} {i : ℕ} {t : Task} {w w' : World} (hs : Sound env i w t)
    (hd : e.Does w w') (hn : w'.conn = w.conn) (hins : ∀ obj at', e ≠ .inserted obj at')
    (hdb : w'.db = w.db ∨ e = .bumped ∨ w.conn = none) : Sound env i w' t := by
  have hrow : ∀ k, w.row? k = none → w'.row? k = none := by
    intro k hnone
    cases hrow : w'.row? k with
    | none => rfl
    | some row =>
      obtain ⟨obj, at', he, -⟩ := hd.row_new hnone hrow
      exact absurd he (hins obj at')
  refine ⟨?_, hs.ready.mono fun k _ h => hrow k h, fun hl => hn.trans (hs.locked hl),
    fun k hk => hrow k (hs.absent k hk), hs.prepared⟩
  rcases hdb with hdb | rfl | hconn
  · rw [hdb]
    exact hs.planned
  · obtain ⟨hrefs, hpins, hrows⟩ := hd.db
    cases t with
    | delete d => exact hs.planned
    | prune p => exact Prune.Planned.bumped hs.planned hrefs hpins hrows
    | _ => trivial
  · refine Task.planned_congr hs.planned fun hl => ?_
    rw [hs.locked hl] at hconn
    exact absurd hconn (by simp)

theorem inv_boot (db : Db) (bucket : Table String Bytes) (clock : Int) :
    Inv env (boot db bucket clock) :=
  ⟨Owned.empty, fun _ _ h => absurd h (by simp [boot, task?])⟩

/-- **Every action keeps the invariant.** -/
theorem inv_step (hi : Inv env s) (h : s.step env a = some s') : Inv env s' := by
  cases step_cases h with
  | @spawned i t hnone hinit =>
    obtain ⟨hh, hd, hl, habs, ho, hp⟩ := Task.initial_idle hinit
    refine ⟨?_, fun j u hu => ?_⟩
    · have hold : s.holds i = [] := by
        unfold holds
        rw [hnone]
        rfl
      rw [holds_put]
      simp only [hh]
      rw [← hold, Function.update_eq_self]
      exact hi.owned
    · rw [task?_put] at hu
      split at hu
      · obtain rfl := Option.some.inj hu
        refine ⟨hp _, ?_, fun h => absurd (hl ▸ h) (by simp), ?_, ?_⟩
        · simp only [hd]
          exact .nil _ _
        · simp only [habs]
          simp
        · simp only [ho]
          simp
      · exact hi.sound j u hu
  | @ran a i o t t' w' ha ht hrun =>
    have hst := hi.sound i t ht
    obtain ⟨e, hs, hal⟩ := Task.step_effect hrun hst.planned
    refine ⟨?_, fun j u hu => ?_⟩
    · have hm := hs.move (by rw [← holds_of_task ht]; exact hi.owned.holder i)
      rw [← holds_of_task ht] at hm
      rw [holds_put]
      exact hi.owned.move hm
    · rw [task?_put] at hu
      split at hu
      · rename_i hj
        obtain rfl := Option.some.inj hu
        rw [hj]
        exact hst.self hrun
      · rename_i hj
        exact Sound.other hi ht hs hal hj hu
  | crashed => exact inv_boot _ _ _
  | ticked =>
    refine ⟨hi.owned, fun i t ht => ?_⟩
    have hst := hi.sound i t ht
    exact ⟨hst.planned, hst.ready.mono fun _ _ h => h, hst.locked, hst.absent, hst.prepared⟩
  | @outside a w' e hr hd hf hc hn ha =>
    refine ⟨?_, fun i t ht => ?_⟩
    · rw [show (Sys.mk w' s.tasks).world.inFlight.kind = s.world.inFlight.kind by rw [← hf]]
      exact hi.owned
    · refine (hi.sound i t ht).outside hd hn ?_ ?_
      · rcases ha with ⟨rfl, -⟩ | ⟨key, -, rfl⟩ | ⟨rfl, -⟩ | ⟨-, ⟨_, _, _, -, -, rfl⟩ | ⟨rfl, -⟩⟩ <;>
          simp
      · rcases ha with ⟨-, hdb⟩ | ⟨key, -, rfl⟩ | ⟨rfl, -⟩ | ⟨hconn, -⟩
        · exact Or.inl hdb
        · exact Or.inl hd.db
        · exact Or.inr (Or.inl rfl)
        · exact Or.inr (Or.inr hconn)

/-! ## Effects of actions -/

/-- Which actions have which effect. -/
inductive Causes (s : Sys) (a : Act) : Effect → Prop
  | quiet : Causes s a .quiet
  | task {i : ℕ} {t : Task} {e : Effect} (ha : a.runs = some i) (ht : s.task? i = some t)
    (hal : t.Allows s.world e) : Causes s a e
  | lost {key : String} (ha : a = .lose key) : Causes s a (.unlinked [key])
  | bumped : Causes s a .bumped
  | pins : Causes s a .pins
  | negotiated {hashes ms : List String} {io : Faults} {db : Db} (ha : a = .negotiate hashes io)
    (hm : missing io hashes s.world.clock s.world.db = (.ok ms, db)) :
    Causes s a (.negotiated hashes ms s.world.clock)

/-- **Every action has one effect**, and only a tick moves the clock. -/
theorem step_effect (hi : Inv env s) (h : s.step env a = some s') :
    ∃ e, e.Does s.world s'.world ∧ Causes s a e ∧
      (s'.world.clock = s.world.clock ∨ a = .tick s'.world.clock) := by
  cases step_cases h with
  | spawned hnone hinit => exact ⟨.quiet, .quiet rfl rfl, .quiet, Or.inl rfl⟩
  | @ran a i o t t' w' ha ht hrun =>
    obtain ⟨e, hs, hal⟩ := Task.step_effect hrun (hi.sound i t ht).planned
    exact ⟨e, hs.does, .task ha ht hal, Or.inl hs.clock⟩
  | crashed => exact ⟨.quiet, .quiet rfl rfl, .quiet, Or.inl rfl⟩
  | ticked => exact ⟨.quiet, .quiet rfl rfl, .quiet, Or.inr rfl⟩
  | @outside a w' e hr hd hf hc hn ha =>
    refine ⟨e, hd, ?_, Or.inl hc⟩
    rcases ha with ⟨rfl, -⟩ | ⟨key, ha, rfl⟩ | ⟨rfl, -⟩ |
      ⟨-, ⟨hashes, io, ms, ha, hm, rfl⟩ | ⟨rfl, -⟩⟩
    · exact .quiet
    · exact .lost ha
    · exact .bumped
    · exact .negotiated ha hm
    · exact .pins

/-- **An insert is the commit of an upload that holds the path**, which has no row before. -/
theorem Inv.causes_inserted (hi : Inv env s) {obj : Object} {at' : Int}
    (h : Causes s a (.inserted obj at')) :
    ∃ i attached, s.task? i = some (.upload (.insert obj.storePathHash obj at' attached)) ∧
      s.world.row? obj.storePathHash = none := by
  cases h with
  | @task i t e ha ht hal =>
    obtain ⟨hash, attached, rfl, hobj, -, hrow⟩ := hi.inserted ht hal rfl
    exact ⟨i, attached, by rw [hobj]; exact ht, by rw [hobj]; exact hrow⟩

/-- **A blob is stored for a path without a row**, by the task that holds it. -/
theorem Inv.causes_put (hi : Inv env s) {hash : String} {blob : Bytes}
    (h : Causes s a (.put hash blob)) :
    s.world.row? hash = none ∧
      ∃ i, a.runs = some i ∧ (hash, Kind.upload) ∈ s.holds i := by
  cases h with
  | @task i t e ha ht hal =>
    obtain ⟨subject, rfl⟩ := Task.allows_put hal
    refine ⟨(hi.sound i _ ht).absent hash (List.mem_singleton.mpr rfl), i, ha, ?_⟩
    rw [holds_of_task ht]
    exact List.mem_singleton.mpr rfl

/-- **A blob is deleted for a path without a row**, by the task that holds it, unless it is lost. -/
theorem Inv.causes_unlinked (hi : Inv env s) {hash : String} {keys : List String}
    (h : Causes s a (.unlinked keys)) (hk : keyFor hash ∈ keys) :
    (∃ key, a = .lose key) ∨ (s.world.row? hash = none ∧
      ∃ i, a.runs = some i ∧ (hash, Kind.delete) ∈ s.holds i) := by
  cases h with
  | @task i t e ha ht hal =>
    have hkey := Task.allows_unlinked hal _ hk
    have hready := (hi.sound i t ht).ready
    obtain ⟨x, hx, hxk⟩ := hready.wf _ hkey
    obtain rfl := keyFor_injective hxk
    refine Or.inr ⟨hready.gone _ (Deletion.mem_queued.mpr ⟨hx, hkey⟩), i, ha, ?_⟩
    rw [holds_of_task ht]
    exact Task.claims_held hx
  | lost ha => exact Or.inl ⟨_, ha⟩

/-- The step deletes rows for an admin delete or an fsck repair. -/
def adminDeletes (s : Sys) (a : Act) : Bool :=
  match a.runs.bind s.task? with
  | some (.delete (.rows _ (some _) _ _)) => true
  | some (.fsck (.repair _ _ _)) => true
  | _ => false

/-- The action is not an admin delete or an fsck repair deleting a row. -/
def Unforced (s : Sys) (a : Act) : Prop := adminDeletes s a = false

instance (s : Sys) (a : Act) : Decidable (Unforced s a) := by unfold Unforced; infer_instance

/-- Why a row goes, when no admin deletes it: it was evictable inside the transaction that evicts
it, or it is in the next batch of a prune's plan. -/
inductive Collected (s : Sys) (a : Act) (hash : String) : Effect → Prop
  | evicted {i : ℕ} {row : Row} {usage at' : Int} {candidates : List (String × Int)} {d : Deletion}
    {res : PassResult} (ha : a.runs = some i)
    (ht : s.task? i = some (.gc (.evict usage at' hash candidates d res)))
    (hrow : s.world.row? hash = some row)
    (hev : evictableWhere s.world.db hash row at' = true) : Collected s a hash (.removed hash row)
  | pruned {i : ℕ} {now : Int} {doomed batch : List ObjectBrief} {todo : List (List ObjectBrief)}
    (ha : a.runs = some i) (ht : s.task? i = some (.prune (.batches now doomed (batch :: todo))))
    (hp : Prunes s.world.db now (batch ++ todo.flatten))
    (hin : hash ∈ batch.map ObjectBrief.storePathHash) : Collected s a hash (.pruned batch)

/-- **What GC and prune rely on when they remove a row.** -/
theorem Inv.collected (hi : Inv env s) {e : Effect} (hd : e.Does s.world s'.world)
    (hc : Causes s a e) (hno : adminDeletes s a = false) {hash : String} (hr : e.Removes hash) :
    Collected s a hash e := by
  cases hc with
  | @task i t e ha ht hal =>
    have htask : a.runs.bind s.task? = some t := by rw [ha]; exact ht
    cases e with
    | removed k row =>
      obtain rfl : k = hash := hr
      cases t with
      | gc g =>
        obtain ⟨usage, at', candidates, d, res, rfl, hev⟩ := hal
        exact .evicted ha ht hd.db.1 hev
      | delete d =>
        obtain ⟨todo, del, acc, listing, rfl⟩ := hal
        exact absurd hno (by simp [adminDeletes, htask])
      | fsck f =>
        obtain ⟨run, report, f, todo, rfl, -⟩ := hal
        exact absurd hno (by simp [adminDeletes, htask])
      | upload u => exact absurd hal id
      | sweep s => exact absurd hal id
      | prune p => exact absurd hal id
      | resign r => exact absurd hal id
    | pruned batch =>
      cases t with
      | prune p =>
        obtain ⟨now, doomed, todo, rfl⟩ := hal
        exact .pruned ha ht (hi.sound i _ ht).planned hr
      | _ => exact absurd hal id
    | _ => exact absurd hr id
  | _ => exact absurd hr id

/-- **Every state a started process reaches satisfies the invariant.** -/
theorem inv_reach {ok : Sys → Act → Prop} {s₀ s : Sys} (h : Reach (step env) ok s₀ s)
    (h₀ : Inv env s₀) : Inv env s :=
  h.invariant (fun _ _ _ hi _ hs => inv_step hi hs) h₀

end Sys

namespace Sample

/-- The example's server, with a GC configuration. -/
def env : Env Bytes := { server with low := 0, orphanGrace := 86400 }

/-- Task `i` uploads the example's path for `subject`, and nothing fails. -/
def push (i : ℕ) (subject : String) : List Act :=
  .spawn i (.upload (.start hash subject)) ::
    List.replicate 7 (.step i { Oracle.calm with transfer := upload })

/-- An object of the example, as the store signs it. -/
def object (hash name : String) (references : List String) : Object where
  storePathHash := hash
  storePath := "/nix/store/" ++ hash ++ "-" ++ name
  name := name
  narHash := preamble.narHash
  narSize := 6
  fileHash := sha256Nix32 (sha256 frame)
  fileSize := 15
  deriver := none
  ca := none
  references := references
  sigs := []
  pushedBy := some "ci"

/-- The hash of a library the example's path refers to. -/
def libHash : String := "1d8rsm8rlhz2zqg1p4d9c2l04x6imn3f"

/-- A database with `app`, which refers to `lib`, both from time 0. -/
def stored : Db :=
  (insertObject noFaults (object hash "app" [libHash ++ "-lib"]) 0
    (insertObject noFaults (object libHash "lib" []) 0 .empty).2).2

end Sample

end Garret
