import Garret.Pusher.System

/-!
# Requests that S3 applies late

A request that failed, ran into the client's timeout (`Storage::new`) or was given up with its
handler is not taken back: S3 may still apply it, once, at any later moment. `Late` is the Pusher's
system with these requests beside it.

* `Task.sent`: what a task has sent to S3 and waits for. That is the batch `finish` is deleting, or
  the `PutObject` of a transfer.
* `Late.left`: what an action leaves to be applied later. A step leaves the requests it reports
  failed and that have not been applied; a dropped handler and a process that dies leave all they
  had sent.
* `Late.step`: an action of the system, or one such request applied.

Requests are kept key by key, so S3 may apply a `DeleteObjects` in parts. The requests of a
multipart upload take effect in their own step or not at all.
-/

namespace Garret

open Garret.Lib

/-- A request S3 may still apply: one key of a `DeleteObjects`, or a `PutObject`. -/
inductive Pending where
  | delete (key : String)
  | put (hash : String) (blob : Bytes)
  deriving DecidableEq, Repr

namespace Pending

/-- The request is one of an operation on the path `hash`. -/
def isFor (hash : String) : Pending → Bool
  | delete key => key == keyFor hash
  | put h _ => h == hash

/-- S3 applies the request. -/
def apply (w : World) : Pending → World
  | delete key => w.unlink [key]
  | put hash blob => w.putBlob hash (some blob)

/-- A step with this oracle reports the request failed, and S3 has not applied it yet. -/
def unsettled (o : Oracle) : Pending → Bool
  | delete key => !(o.delete.ok && o.delete.errors.isEmpty) && !o.delete.applied.contains key
  | put _ _ => o.transfer.s3.put == .lost

/-- What applying it does to the shared state. -/
def effect : Pending → Effect
  | delete key => .unlinked [key]
  | put hash blob => .put hash blob

theorem apply_does (p : Pending) (w : World) : p.effect.Does w (p.apply w) := by
  cases p with
  | delete key => exact ⟨rfl, rfl⟩
  | put hash blob => exact ⟨rfl, rfl⟩

theorem apply_db (p : Pending) (w : World) : (p.apply w).db = w.db := by
  cases p <;> rfl

theorem apply_row? (p : Pending) (w : World) (k : String) : (p.apply w).row? k = w.row? k := by
  unfold World.row?
  rw [apply_db]

/-- A request for another path leaves the blob alone. -/
theorem apply_blob?_of_not {p : Pending} {w : World} {k : String} (h : p.isFor k = false) :
    (p.apply w).blob? k = w.blob? k := by
  cases p with
  | delete key =>
    have hk : keyFor k ∉ [key] := fun hin => by
      obtain rfl := List.mem_singleton.mp hin
      exact absurd h (by simp [isFor])
    rw [show (delete key).apply w = w.unlink [key] from rfl, World.blob?_unlink, if_neg hk]
  | put hash blob =>
    have hk : k ≠ hash := fun he => by
      rw [he] at h
      exact absurd h (by simp [isFor])
    exact World.blob?_putBlob_ne hk

/-- A late delete takes the blob of its path away. -/
theorem apply_delete {key k : String} {w : World} (h : (delete key).isFor k = true) :
    ((delete key).apply w).blob? k = none := by
  have hk : keyFor k ∈ [key] := List.mem_singleton.mpr (eq_of_beq h).symm
  rw [show (delete key).apply w = w.unlink [key] from rfl, World.blob?_unlink, if_pos hk]

/-- A late put leaves its own bytes. -/
theorem apply_put {hash k : String} {blob : Bytes} {w : World}
    (h : (put hash blob).isFor k = true) :
    ((put hash blob).apply w).blob? k = some blob := by
  obtain rfl : hash = k := eq_of_beq h
  exact World.blob?_putBlob_self

end Pending

/-! ## What a task has sent -/

/-- The same transfer, its `PutObject` ending so. -/
def Transfer.withPut (t : Transfer) (put : Request) : Transfer :=
  { t with s3 := { t.s3 with put := put } }

/-- What the `PutObject` of a transfer carries, if it sends one: the bytes that are visible only
when this request takes effect. -/
def putBody {δ : Type} (srv : Server δ) (hash subject : String) (t : Transfer) : Option Bytes :=
  match (transfer srv hash subject (t.withPut .lost)).visible with
  | some _ => none
  | none => (transfer srv hash subject (t.withPut .applied)).visible

/-- The request `finish` waits for. -/
def Finish.sent (f : Finish) : List Pending := (f.batches.headD []).map .delete

/-- What a task has sent to S3 and waits for, key by key. -/
def Task.sent {δ : Type} (env : Env δ) (o : Oracle) : Task → List Pending
  | .upload (.store hash subject) =>
    (putBody env.toServer hash subject o.transfer).toList.map (.put hash)
  | .gc (.finish _ _ f _) => f.sent
  | .sweep (.finish f _) => f.sent
  | .delete (.finish f _ _) => f.sent
  | .prune (.finish f _) => f.sent
  | _ => []

theorem Finish.sent_ready {f : Finish} {w : World} {p : Pending} {hash : String}
    (hr : f.deletion.Ready w) (hp : p ∈ f.sent) (hon : p.isFor hash = true) :
    w.row? hash = none := by
  obtain ⟨key, hkey, rfl⟩ := List.mem_map.mp hp
  obtain rfl : key = keyFor hash := eq_of_beq hon
  have hin : keyFor hash ∈ f.deletion.keys := by
    unfold Finish.deletion
    cases hb : f.batches with
    | nil =>
      rw [hb] at hkey
      exact absurd hkey List.not_mem_nil
    | cons batch batches =>
      rw [hb] at hkey
      exact List.mem_append_left _ hkey
  obtain ⟨x, hx, he⟩ := hr.wf _ hin
  obtain rfl := keyFor_injective he
  exact hr.gone _ (Deletion.mem_queued.mpr ⟨hx, hin⟩)

/-- **Every request is sent for a path without a row.** -/
theorem Task.sent_absent {δ : Type} {env : Env δ} {i : ℕ} {w : World} {o : Oracle} {t : Task}
    {p : Pending} {hash : String} (hs : Sys.Sound env i w t) (hp : p ∈ t.sent env o)
    (hon : p.isFor hash = true) : w.row? hash = none := by
  cases t with
  | upload u =>
    cases u with
    | store k subject =>
      obtain ⟨blob, -, rfl⟩ := List.mem_map.mp hp
      obtain rfl : k = hash := eq_of_beq hon
      exact hs.absent _ (List.mem_singleton.mpr rfl)
    | _ => exact absurd hp List.not_mem_nil
  | gc g =>
    cases g with
    | finish usage settled f res => exact Finish.sent_ready hs.ready hp hon
    | _ => exact absurd hp List.not_mem_nil
  | sweep s =>
    cases s with
    | finish f count => exact Finish.sent_ready hs.ready hp hon
    | _ => exact absurd hp List.not_mem_nil
  | delete d =>
    cases d with
    | finish f acc listing => exact Finish.sent_ready hs.ready hp hon
    | _ => exact absurd hp List.not_mem_nil
  | prune q =>
    cases q with
    | finish f pruned => exact Finish.sent_ready hs.ready hp hon
    | _ => exact absurd hp List.not_mem_nil
  | resign r => exact absurd hp List.not_mem_nil
  | fsck f => exact absurd hp List.not_mem_nil

/-! ## The system and what it left behind -/

/-- The Pusher, and the requests S3 may still apply. -/
structure Late where
  sys : Sys
  late : List Pending

namespace Late

/-- What can happen next: an action of the system, where `cut i` says how far task `i` had come if
this cancels it, or S3 applies the `k`-th request left behind. -/
inductive Event where
  | act (a : Act) (cut : ℕ → Oracle)
  | apply (k : ℕ)

/-- Nothing is left behind yet. -/
def start (s : Sys) : Late := ⟨s, []⟩

variable {δ : Type} (env : Env δ)

/-- What an action leaves to be applied later. -/
def left (s : Sys) (cut : ℕ → Oracle) : Act → List Pending
  | .step i o => (s.task? i).toList.flatMap fun t => (t.sent env o).filter (Pending.unsettled o)
  | .drop i => (s.task? i).toList.flatMap fun t => t.sent env (cut i)
  | .crash => s.tasks.entries.flatMap fun e => e.2.sent env (cut e.1)
  | _ => []

/-- One event; `none` when it is not possible. -/
def step (s : Late) : Event → Option Late
  | .act a cut => (s.sys.step env a).map fun sys => ⟨sys, s.late ++ left env s.sys cut a⟩
  | .apply k =>
    (s.late[k]?).map fun p => ⟨{ s.sys with world := p.apply s.sys.world }, s.late.eraseIdx k⟩

variable {env} {s s' : Late} {a : Act} {cut : ℕ → Oracle}

theorem step_act (h : s.step env (.act a cut) = some s') :
    s.sys.step env a = some s'.sys ∧ s'.late = s.late ++ left env s.sys cut a := by
  obtain ⟨sys, hsys, rfl⟩ := Option.map_eq_some_iff.mp h
  exact ⟨hsys, rfl⟩

theorem step_apply {k : ℕ} (h : s.step env (.apply k) = some s') :
    ∃ p, s.late[k]? = some p ∧
      s' = ⟨{ s.sys with world := p.apply s.sys.world }, s.late.eraseIdx k⟩ := by
  obtain ⟨p, hp, rfl⟩ := Option.map_eq_some_iff.mp h
  exact ⟨p, hp, rfl⟩

/-- What is left behind was sent by a task, which the action runs unless the process dies. -/
theorem left_sent {sys : Sys} {p : Pending} (h : p ∈ left env sys cut a) :
    ∃ i t o, sys.task? i = some t ∧ p ∈ t.sent env o ∧ (a.runs = some i ∨ a = .crash) := by
  cases a with
  | step i o =>
    obtain ⟨t, ht, hp⟩ := List.mem_flatMap.mp h
    exact ⟨i, t, o, Option.mem_toList.mp ht, (List.mem_filter.mp hp).1, Or.inl rfl⟩
  | drop i =>
    obtain ⟨t, ht, hp⟩ := List.mem_flatMap.mp h
    exact ⟨i, t, cut i, Option.mem_toList.mp ht, hp, Or.inl rfl⟩
  | crash =>
    obtain ⟨⟨i, t⟩, ht, hp⟩ := List.mem_flatMap.mp h
    exact ⟨i, t, cut i, Table.lookup_eq_some_iff.mpr ht, hp, Or.inr rfl⟩
  | _ => exact absurd h List.not_mem_nil

/-- **What is left behind names no row**, before the action and after it. -/
theorem left_absent {sys sys' : Sys} (hi : sys.Inv env) (h : sys.step env a = some sys')
    {p : Pending} (hp : p ∈ left env sys cut a) {hash : String} (hon : p.isFor hash = true) :
    sys.world.row? hash = none ∧ sys'.world.row? hash = none := by
  obtain ⟨i, t, o, ht, hsent, ha⟩ := left_sent hp
  have hnone := Task.sent_absent (hi.sound i t ht) hsent hon
  refine ⟨hnone, ?_⟩
  cases hrow : sys'.world.row? hash with
  | none => rfl
  | some row =>
    -- the action inserts the row: then it is the commit of an upload, which has nothing sent
    obtain ⟨e, hd, hc, -⟩ := Sys.step_effect hi h
    obtain ⟨obj, at', rfl, -⟩ := hd.row_new hnone hrow
    cases hc with
    | @task j u e hruns hu hal =>
      obtain ⟨k, attached, rfl, -⟩ := hi.inserted hu hal rfl
      rcases ha with ha | rfl
      · obtain rfl := Option.some.inj (ha.symm.trans hruns)
        obtain rfl := Option.some.inj (ht.symm.trans hu)
        exact absurd hsent List.not_mem_nil
      · exact absurd hruns (by simp [Act.runs])

/-- **The system's invariant survives late requests**: they change only the bucket. -/
theorem inv_step {e : Event} (hi : s.sys.Inv env) (h : s.step env e = some s') :
    s'.sys.Inv env := by
  cases e with
  | act a cut => exact Sys.inv_step hi (step_act h).1
  | apply k =>
    obtain ⟨p, -, rfl⟩ := step_apply h
    refine ⟨?_, fun i t ht => (hi.sound i t ht).outside (p.apply_does _) ?_ ?_
      (Or.inl (p.apply_db _))⟩
    · cases p <;> exact hi.owned
    · cases p <;> rfl
    · cases p <;> exact fun _ _ h => by cases h

end Late

end Garret
