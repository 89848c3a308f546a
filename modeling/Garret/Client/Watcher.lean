import Garret.Client.Batch
import Garret.Lib.Run
import Mathlib.Data.List.Infix

/-!
# The store watcher

Model of `Watcher::run`, `retry_failed` and `drain`, of `FailedList` and of `push_batch`
(`crates/garret-client/src/watcher.rs`). A `State` is the Nix database, the two files and the
process, if there is one; nix, the Pusher and the disk answer in their own time, and the process may
be killed between any two of its steps (`Act.kill`, which is also what an error it returns does).

* A file is replaced whole (`write_atomic`), so a write is one step.
* The cursor file is its number; the failed list is its text (`FailedList.save`, `FailedList.load`).
* The upload of one path is its outcome: the requests of `push_one` are in `Session`.
* The wake socket only shortens a sleep, and is left out.

`acked` and `gone` record which rows of `ValidPaths` the server acknowledged, or `describe` found
gone, at the time they were in the table.
-/

namespace Garret.Watch

open Garret.Lib Garret.Client

/-- `BATCH_SIZE`. -/
def batchSize : ℕ := 500

/-! ## The Nix database -/

/-- The watcher's files have one path a line; no store path breaks a line. -/
def IsPlain (path : String) : Prop :=
  path ≠ "" ∧ '\n' ∉ path.toList ∧ '\r' ∉ path.toList

instance (path : String) : Decidable (IsPlain path) := inferInstanceAs (Decidable (_ ∧ _))

/-- `ValidPath`: a row of `ValidPaths`. -/
structure ValidPath where
  id : Int
  path : String
  sigs : List String
  plain : IsPlain path
  deriving DecidableEq

/-- More signatures for a row. -/
def ValidPath.sign (id : Int) (sigs : List String) (r : ValidPath) : ValidPath :=
  if r.id = id then { r with sigs := r.sigs ++ sigs } else r

theorem ValidPath.sign_id (id : Int) (sigs : List String) (r : ValidPath) :
    (ValidPath.sign id sigs r).id = r.id := by
  unfold ValidPath.sign
  split <;> rfl

/-- `ValidPaths`. Ids are issued in order and never twice; `seq` is the last one issued. -/
structure NixDb where
  rows : List ValidPath
  seq : Int
  ordered : rows.Pairwise fun a b => a.id < b.id
  issued : ∀ r ∈ rows, r.id ≤ seq
  seq_nonneg : 0 ≤ seq

namespace NixDb

/-- A path becomes valid. -/
def insert (db : NixDb) (r : ValidPath) (h : db.seq < r.id) : NixDb where
  rows := db.rows ++ [r]
  seq := r.id
  ordered := List.pairwise_append.mpr ⟨db.ordered, List.pairwise_singleton _ _, fun a ha b hb => by
    rw [List.mem_singleton.mp hb]
    exact (db.issued a ha).trans_lt h⟩
  issued a ha := by
    rcases List.mem_append.mp ha with ha | ha
    · exact (db.issued a ha).trans h.le
    · rw [List.mem_singleton.mp ha]
  seq_nonneg := db.seq_nonneg.trans h.le

/-- A path is garbage-collected from the local store. -/
def delete (db : NixDb) (id : Int) : NixDb where
  rows := db.rows.filter fun r => decide (r.id ≠ id)
  seq := db.seq
  ordered := db.ordered.sublist List.filter_sublist
  issued r hr := db.issued r (List.mem_of_mem_filter hr)
  seq_nonneg := db.seq_nonneg

/-- Nix adds signatures to a valid path. -/
def sign (db : NixDb) (id : Int) (sigs : List String) : NixDb where
  rows := db.rows.map (ValidPath.sign id sigs)
  seq := db.seq
  ordered := List.pairwise_map.mpr (db.ordered.imp fun h => by
    rw [ValidPath.sign_id, ValidPath.sign_id]
    exact h)
  issued r hr := by
    obtain ⟨r', hr', rfl⟩ := List.mem_map.mp hr
    rw [ValidPath.sign_id]
    exact db.issued r' hr'
  seq_nonneg := db.seq_nonneg

/-- `max_id`. -/
def maxId (db : NixDb) : Int := (db.rows.getLast?.map ValidPath.id).getD 0

/-- `paths_after`: the rows are in the order of their ids. -/
def pathsAfter (db : NixDb) (cursor : Int) (limit : ℕ) : List ValidPath :=
  (db.rows.filter fun r => decide (cursor < r.id)).take limit

end NixDb

namespace NixDb

theorem maxId_le (db : NixDb) : db.maxId ≤ db.seq := by
  unfold maxId
  cases h : db.rows.getLast? with
  | none => exact db.seq_nonneg
  | some r => exact db.issued r (List.mem_of_getLast? h)

theorem mem_pathsAfter {db : NixDb} {cursor : Int} {limit : ℕ} {r : ValidPath}
    (h : r ∈ db.pathsAfter cursor limit) : r ∈ db.rows ∧ cursor < r.id := by
  have hr := List.mem_filter.mp (List.mem_of_mem_take h)
  exact ⟨hr.1, of_decide_eq_true hr.2⟩

/-- **A batch has every row up to its last one.** -/
theorem mem_pathsAfter_of_le {db : NixDb} {cursor : Int} {limit : ℕ} {r newest : ValidPath}
    (hnewest : newest ∈ db.pathsAfter cursor limit) (hr : r ∈ db.rows) (hlt : cursor < r.id)
    (hle : r.id ≤ newest.id) : r ∈ db.pathsAfter cursor limit := by
  unfold pathsAfter at hnewest ⊢
  have hmem : r ∈ db.rows.filter fun r => decide (cursor < r.id) :=
    List.mem_filter.mpr ⟨hr, decide_eq_true hlt⟩
  have hord : (db.rows.filter fun r => decide (cursor < r.id)).Pairwise fun a b => a.id < b.id :=
    db.ordered.sublist List.filter_sublist
  rw [← List.take_append_drop limit (db.rows.filter _), List.mem_append] at hmem
  rw [← List.take_append_drop limit (db.rows.filter _), List.pairwise_append] at hord
  rcases hmem with hmem | hmem
  · exact hmem
  · exact absurd (hord.2.2 newest hnewest r hmem) (Int.not_lt.mpr hle)

end NixDb

/-! ## `Filters` -/

/-- `Filters`. -/
structure Filters where
  upstreamKeys : List String
  excludePatterns : List String
  ownKeys : List String
  deriving DecidableEq, Repr

/-- `should_skip`. -/
def Filters.shouldSkip (f : Filters) (path : ValidPath) : Option String :=
  if ".drv".toList <:+ path.path.toList then some "drv"
  else if f.excludePatterns.any fun p => decide (p.toList <:+: path.path.toList) then
    some "excluded"
  else if signedBy path.sigs f.upstreamKeys then some "upstream"
  else if signedBy path.sigs (f.ownKeys.map keyName) then some "own"
  else none

/-- `select`. -/
def Filters.select (f : Filters) (batch : List ValidPath) : List String :=
  (batch.filter fun entry => (f.shouldSkip entry).isNone).map ValidPath.path

theorem Filters.mem_select {f : Filters} {batch : List ValidPath} {r : ValidPath}
    (hr : r ∈ batch) (h : f.shouldSkip r = none) : r.path ∈ f.select batch :=
  List.mem_map_of_mem (List.mem_filter.mpr ⟨hr, by rw [h]; rfl⟩)

theorem signedBy_append {sigs more keys : List String} (h : signedBy (sigs ++ more) keys = false) :
    signedBy sigs keys = false := by
  simp only [signedBy, List.any_append, Bool.or_eq_false_iff] at h
  exact h.1

theorem Filters.shouldSkip_eq_none {f : Filters} {r : ValidPath} : f.shouldSkip r = none ↔
    ¬".drv".toList <:+ r.path.toList ∧
      (f.excludePatterns.any fun p => decide (p.toList <:+: r.path.toList)) = false ∧
      signedBy r.sigs f.upstreamKeys = false ∧
      signedBy r.sigs (f.ownKeys.map keyName) = false := by
  unfold shouldSkip
  split
  · rename_i hdrv
    exact iff_of_false (by simp) fun h => h.1 hdrv
  · rename_i hdrv
    split
    · rename_i hpat
      exact iff_of_false (by simp) fun h => by simp [hpat] at h
    · rename_i hpat
      split
      · rename_i hup
        exact iff_of_false (by simp) fun h => by simp [hup] at h
      · rename_i hup
        split
        · rename_i hown
          exact iff_of_false (by simp) fun h => by simp [hown] at h
        · rename_i hown
          exact iff_of_true rfl ⟨hdrv, Bool.eq_false_iff.mpr hpat, Bool.eq_false_iff.mpr hup,
            Bool.eq_false_iff.mpr hown⟩

theorem ValidPath.sign_path (id : Int) (sigs : List String) (r : ValidPath) :
    (ValidPath.sign id sigs r).path = r.path := by
  unfold ValidPath.sign
  split <;> rfl

/-- One more signature never makes a path worth pushing. -/
theorem Filters.shouldSkip_of_sign {f : Filters} {id : Int} {sigs : List String} {r : ValidPath}
    (h : f.shouldSkip (ValidPath.sign id sigs r) = none) : f.shouldSkip r = none := by
  rw [shouldSkip_eq_none, ValidPath.sign_path] at h
  obtain ⟨hdrv, hpat, hup, hown⟩ := h
  refine shouldSkip_eq_none.mpr ⟨hdrv, hpat, ?_⟩
  unfold ValidPath.sign at hup hown
  split at hup
  · rename_i hid
    rw [if_pos hid] at hown
    exact ⟨signedBy_append hup, signedBy_append hown⟩
  · rename_i hid
    rw [if_neg hid] at hown
    exact ⟨hup, hown⟩

/-! ## `FailedList` -/

/-- `FailedList`, with its paths in order. -/
structure FailedList where
  paths : List String
  attempts : String → ℕ

namespace FailedList

/-- `BTreeSet::insert`. -/
def insertPath (paths : List String) (path : String) : List String :=
  if path ∈ paths then paths else paths.orderedInsert (· ≤ ·) path

/-- One line of a text, without its line ending. -/
def stripCr (line : List Char) : List Char :=
  if line.getLast? = some '\r' then line.dropLast else line

/-- `str::lines`; what follows the last line feed is a line of its own, if there is anything. -/
def lines (text : String) : List String :=
  let pieces := text.toList.splitOn '\n'
  (pieces.dropLast.map stripCr ++ (pieces.getLast?.toList.filter fun l => !l.isEmpty)).map
    String.ofList

/-- `load`: the paths of the file, and no attempts. -/
def load (file : Option String) : FailedList where
  paths := ((lines (file.getD "")).filter fun l => decide (l ≠ "")).foldl insertPath []
  attempts _ := 0

/-- `record_failure`. -/
def recordFailure (l : FailedList) (path : String) : FailedList where
  paths := insertPath l.paths path
  attempts p := if p = path then l.attempts p + 1 else l.attempts p

/-- `record_success`. -/
def recordSuccess (l : FailedList) (path : String) : FailedList where
  paths := l.paths.filter fun p => decide (p ≠ path)
  attempts p := if p = path then 0 else l.attempts p

/-- `due`. -/
def due (l : FailedList) (max : ℕ) : List String :=
  l.paths.filter fun p => decide (l.attempts p < max)

/-- `apply`, less the count and the log. -/
def apply (l : FailedList) (chunk stillFailed : List String) : FailedList :=
  chunk.foldl
    (fun l path => if path ∈ stillFailed then l.recordFailure path else l.recordSuccess path) l

/-- `save`: the text the file gets, `none` when it is removed. -/
def save (l : FailedList) : Option String :=
  if l.paths = [] then none else some (String.join (l.paths.map (· ++ "\n")))

end FailedList

namespace FailedList

variable {l : FailedList} {path : String}

theorem mem_insertPath {paths : List String} {p : String} :
    p ∈ insertPath paths path ↔ p = path ∨ p ∈ paths := by
  unfold insertPath
  split
  · rename_i h
    exact ⟨Or.inr, fun hp => hp.elim (fun e => e ▸ h) id⟩
  · rw [List.mem_orderedInsert]

theorem mem_foldl_insertPath {p : String} : ∀ {new paths : List String},
    p ∈ new.foldl insertPath paths ↔ p ∈ paths ∨ p ∈ new
  | [], paths => by simp
  | q :: new, paths => by
    rw [List.foldl_cons, mem_foldl_insertPath, mem_insertPath, List.mem_cons]
    tauto

theorem mem_recordFailures {p : String} : ∀ {failed : List String} {l : FailedList},
    p ∈ (failed.foldl recordFailure l).paths ↔ p ∈ l.paths ∨ p ∈ failed
  | [], l => by simp
  | q :: failed, l => by
    rw [List.foldl_cons, mem_recordFailures, recordFailure, mem_insertPath, List.mem_cons]
    tauto

theorem mem_recordSuccess {p : String} :
    p ∈ (l.recordSuccess path).paths ↔ p ∈ l.paths ∧ p ≠ path := by
  simp [recordSuccess]

/-- A path of the chunk is on the list afterwards just if it still failed; the others stay. -/
theorem mem_apply {p : String} {stillFailed : List String} : ∀ {chunk : List String}
    {l : FailedList}, p ∈ (l.apply chunk stillFailed).paths ↔
      (p ∈ chunk ∧ p ∈ stillFailed) ∨ (p ∉ chunk ∧ p ∈ l.paths)
  | [], l => by simp [apply]
  | q :: chunk, l => by
    have ih : p ∈ ((if q ∈ stillFailed then l.recordFailure q else l.recordSuccess q).apply chunk
        stillFailed).paths ↔ _ := mem_apply
    unfold apply at ih ⊢
    rw [List.foldl_cons, ih, List.mem_cons]
    split
    · rename_i hq
      rw [recordFailure, mem_insertPath]
      by_cases hpq : p = q
      · subst hpq
        tauto
      · tauto
    · rename_i hq
      rw [mem_recordSuccess]
      by_cases hpq : p = q
      · subst hpq
        tauto
      · tauto

/-- The text of some paths, cut at its line feeds. -/
theorem splitOn_text : ∀ paths : List String,
    (String.join (paths.map (· ++ "\n"))).toList.splitOn '\n' =
      (paths.flatMap fun p => p.toList.splitOn '\n') ++ [[]]
  | [] => by simp
  | p :: paths => by
    have htext : (String.join ((p :: paths).map (· ++ "\n"))).toList =
        p.toList ++ '\n' :: (String.join (paths.map (· ++ "\n"))).toList := by
      simp
    rw [htext, List.splitOn_append_cons_self, splitOn_text paths, List.flatMap_cons,
      List.append_assoc]

/-- **What is saved is loaded again.** -/
theorem mem_load_save (hplain : IsPlain path) (h : path ∈ l.paths) :
    path ∈ (load l.save).paths := by
  have hsave : l.save = some (String.join (l.paths.map (· ++ "\n"))) :=
    if_neg (List.ne_nil_of_mem h)
  obtain ⟨hne, hfeed, hreturn⟩ := hplain
  have hpiece : path.toList ∈ l.paths.flatMap fun p => p.toList.splitOn '\n' :=
    List.mem_flatMap.mpr ⟨path, h, by simp [List.splitOn_eq_singleton hfeed]⟩
  have hstrip : stripCr path.toList = path.toList := by
    unfold stripCr
    split
    · rename_i hlast
      exact absurd (List.mem_of_getLast? hlast) hreturn
    · rfl
  have hline : path ∈ lines (String.join (l.paths.map (· ++ "\n"))) := by
    unfold lines
    simp only [splitOn_text, List.dropLast_concat, List.map_append, List.mem_append, List.map_map]
    exact Or.inl (List.mem_map.mpr ⟨path.toList, hpiece, by simp [hstrip]⟩)
  rw [hsave, load, mem_foldl_insertPath]
  exact Or.inr (List.mem_filter.mpr ⟨hline, decide_eq_true hne⟩)

end FailedList

/-! ## `push_batch` -/

/-- `negotiation_hashes`. -/
def negotiationHashes (infos : List PathInfo) : List String :=
  ((infos.flatMap fun info => info.path :: info.references).map hashOfStorePath).foldl
    (fun seen hash => if hash ∈ seen then seen else seen ++ [hash]) []

/-- The paths `tally` names. -/
def failedPaths (outcomes : List (String × Outcome)) : List String :=
  outcomes.filterMap fun o => match o.2 with
    | .failed _ => some o.1
    | _ => none

/-- One `push_batch` under way; `failed` is what it will return so far. -/
inductive Push where
  /-- `nix path-info` for the whole batch. -/
  | describe (paths : List String)
  /-- `nix path-info` for each path. -/
  | each (todo : List String) (infos : List PathInfo) (failed : List String)
  | negotiate (infos : List PathInfo) (failed : List String)
  /-- `push_tracked`; the uploads end in any order. -/
  | uploads (todo : List PathInfo) (outcomes : List (String × Outcome)) (failed : List String)
  | done (failed : List String)
  deriving DecidableEq, Repr

/-- What a `push_batch` waits for. -/
inductive Answer where
  /-- `nix path-info` succeeds. -/
  | described (infos : List PathInfo)
  /-- It fails. -/
  | undescribed
  /-- It fails for one path, and the path does not exist. -/
  | vanished
  | negotiated (missing : List String)
  | unnegotiated
  /-- The upload of the `k`-th path left ends. -/
  | uploaded (k : ℕ) (outcome : Outcome)
  deriving DecidableEq, Repr

/-- What an answer settles: the paths the server has, and the paths that are gone. -/
structure Settled where
  acked : List String
  gone : List String
  deriving DecidableEq, Repr

namespace Push

/-- `push_batch` is called. -/
def start (paths : List String) : Push := if paths = [] then done [] else describe paths

/-- `push_described` is called. -/
def described (infos : List PathInfo) (failed : List String) : Push :=
  if infos = [] then done failed else negotiate infos failed

/-- The loop of `describe` goes on. -/
def next (todo : List String) (infos : List PathInfo) (failed : List String) : Push :=
  if todo = [] then described infos failed else each todo infos failed

/-- `push_tracked` goes on. -/
def track (todo : List PathInfo) (outcomes : List (String × Outcome)) (failed : List String) :
    Push :=
  if todo = [] then done (failed ++ failedPaths outcomes) else uploads todo outcomes failed

/-- An answer comes. A successful `nix path-info` describes every path it was asked for. -/
def answer : Push → Answer → Option (Push × Settled)
  | describe paths, .described infos =>
    if ∀ p ∈ paths, p ∈ infos.map PathInfo.path then some (described infos [], ⟨[], []⟩) else none
  | describe paths, .undescribed => some (next paths [] [], ⟨[], []⟩)
  | each (p :: todo) infos failed, .described one =>
    if p ∈ one.map PathInfo.path then some (next todo (infos ++ one) failed, ⟨[], []⟩) else none
  | each (p :: todo) infos failed, .undescribed =>
    some (next todo infos (failed ++ [p]), ⟨[], []⟩)
  | each (p :: todo) infos failed, .vanished => some (next todo infos failed, ⟨[], [p]⟩)
  | negotiate infos failed, .negotiated missing =>
    let present := infos.filter fun info =>
      decide (info.hash ∈ negotiationHashes infos ∧ info.hash ∉ missing)
    some (track (retainMissing infos missing) [] failed, ⟨present.map PathInfo.path, []⟩)
  | negotiate infos failed, .unnegotiated =>
    some (done (failed ++ infos.map PathInfo.path), ⟨[], []⟩)
  | uploads todo outcomes failed, .uploaded k outcome =>
    match todo[k]? with
    | none => none
    | some info =>
      some (track (todo.eraseIdx k) (outcomes ++ [(info.path, outcome)]) failed,
        match outcome with
        | .failed _ => ⟨[], []⟩
        | _ => ⟨[info.path], []⟩)
  | _, _ => none

end Push

/-- Each path is asked for. -/
theorem mem_negotiationHashes {infos : List PathInfo} {info : PathInfo} (h : info ∈ infos) :
    info.hash ∈ negotiationHashes infos := by
  have hseen : ∀ (hashes seen : List String) (x : String), x ∈ seen ∨ x ∈ hashes →
      x ∈ hashes.foldl (fun seen hash => if hash ∈ seen then seen else seen ++ [hash]) seen := by
    intro hashes
    induction hashes with
    | nil => simp
    | cons y ys ih =>
      intro seen x hx
      refine ih _ x ?_
      simp only
      by_cases hy : y ∈ seen
      · rw [if_pos hy]
        rcases hx with hx | hx
        · exact Or.inl hx
        · rcases List.mem_cons.mp hx with rfl | hx
          · exact Or.inl hy
          · exact Or.inr hx
      · rw [if_neg hy, List.mem_append, List.mem_singleton]
        rcases hx with hx | hx
        · exact Or.inl (Or.inl hx)
        · rcases List.mem_cons.mp hx with rfl | hx
          · exact Or.inl (Or.inr rfl)
          · exact Or.inr hx
  refine hseen _ _ _ (Or.inr (List.mem_map.mpr ⟨info.path, ?_, rfl⟩))
  exact List.mem_flatMap.mpr ⟨info, h, List.mem_cons_self⟩

theorem failedPaths_append (a b : List (String × Outcome)) :
    failedPaths (a ++ b) = failedPaths a ++ failedPaths b := List.filterMap_append ..

namespace Push

/-- The paths that a `push_batch` has yet to settle, or that failed in it. -/
def holds : Push → List String
  | describe paths => paths
  | each todo infos failed => todo ++ (infos.map PathInfo.path ++ failed)
  | negotiate infos failed => infos.map PathInfo.path ++ failed
  | uploads todo outcomes failed =>
    todo.map PathInfo.path ++ (failedPaths outcomes ++ failed)
  | done failed => failed

variable {p : String}

theorem mem_start {paths : List String} (h : p ∈ paths) : p ∈ (start paths).holds := by
  rw [start, if_neg (List.ne_nil_of_mem h)]
  exact h

theorem mem_described {infos : List PathInfo} {failed : List String}
    (h : p ∈ infos.map PathInfo.path ++ failed) : p ∈ (described infos failed).holds := by
  unfold described
  split
  · rename_i hnil
    subst hnil
    rwa [List.map_nil, List.nil_append] at h
  · exact h

theorem mem_next {todo : List String} {infos : List PathInfo} {failed : List String}
    (h : p ∈ todo ++ (infos.map PathInfo.path ++ failed)) : p ∈ (next todo infos failed).holds := by
  unfold next
  split
  · rename_i hnil
    subst hnil
    exact mem_described h
  · exact h

theorem mem_track {todo : List PathInfo} {outcomes : List (String × Outcome)}
    {failed : List String} (h : p ∈ todo.map PathInfo.path ++ (failedPaths outcomes ++ failed)) :
    p ∈ (track todo outcomes failed).holds := by
  unfold track
  split
  · rename_i hnil
    subst hnil
    simp only [holds, List.mem_append]
    simp only [List.map_nil, List.nil_append, List.mem_append] at h
    exact h.symm
  · exact h

/-- **No answer loses a path**: it is settled, or it is still held. -/
theorem answer_holds {push push' : Push} {a : Answer} {e : Settled}
    (h : push.answer a = some (push', e)) (hp : p ∈ push.holds) :
    p ∈ push'.holds ∨ p ∈ e.acked ∨ p ∈ e.gone := by
  unfold answer at h
  split at h
  · rename_i paths infos
    split at h
    · rename_i hall
      obtain ⟨rfl, rfl⟩ := Prod.mk.inj (Option.some.inj h)
      exact Or.inl (mem_described (List.mem_append_left _ (hall p hp)))
    · exact absurd h (by simp)
  · obtain ⟨rfl, rfl⟩ := Prod.mk.inj (Option.some.inj h)
    exact Or.inl (mem_next (List.mem_append_left _ hp))
  · rename_i q todo infos failed one
    split at h
    · rename_i hone
      obtain ⟨rfl, rfl⟩ := Prod.mk.inj (Option.some.inj h)
      refine Or.inl (mem_next ?_)
      simp only [holds, List.mem_append, List.mem_cons, List.map_append] at hp ⊢
      rcases hp with (rfl | hp) | hp | hp
      · exact Or.inr (Or.inl (Or.inr hone))
      · exact Or.inl hp
      · exact Or.inr (Or.inl (Or.inl hp))
      · exact Or.inr (Or.inr hp)
    · exact absurd h (by simp)
  · obtain ⟨rfl, rfl⟩ := Prod.mk.inj (Option.some.inj h)
    refine Or.inl (mem_next ?_)
    simp only [holds, List.mem_append, List.mem_cons] at hp ⊢
    tauto
  · rename_i q todo infos failed
    obtain ⟨rfl, rfl⟩ := Prod.mk.inj (Option.some.inj h)
    simp only [holds, List.mem_append, List.mem_cons] at hp
    rcases hp with (rfl | hp) | hp
    · exact Or.inr (Or.inr List.mem_cons_self)
    · exact Or.inl (mem_next (List.mem_append_left _ hp))
    · exact Or.inl (mem_next (List.mem_append_right _ (List.mem_append.mpr hp)))
  · rename_i infos failed missing
    obtain ⟨rfl, rfl⟩ := Prod.mk.inj (Option.some.inj h)
    simp only [holds, List.mem_append] at hp
    rcases hp with hp | hp
    · obtain ⟨info, hinfo, rfl⟩ := List.mem_map.mp hp
      by_cases hmiss : info.hash ∈ missing
      · exact Or.inl (mem_track (List.mem_append_left _
          (List.mem_map_of_mem (mem_retainMissing.mpr ⟨hinfo, hmiss⟩))))
      · refine Or.inr (Or.inl (List.mem_map_of_mem (List.mem_filter.mpr ⟨hinfo, ?_⟩)))
        exact decide_eq_true ⟨mem_negotiationHashes hinfo, hmiss⟩
    · exact Or.inl (mem_track (List.mem_append_right _ (List.mem_append_right _ hp)))
  · rename_i infos failed
    obtain ⟨rfl, rfl⟩ := Prod.mk.inj (Option.some.inj h)
    simp only [holds, List.mem_append] at hp ⊢
    tauto
  · rename_i todo outcomes failed k outcome
    split at h
    · exact absurd h (by simp)
    · rename_i info hk
      obtain ⟨rfl, rfl⟩ := Prod.mk.inj (Option.some.inj h)
      simp only [holds, List.mem_append] at hp
      have htrack : ∀ q, q ∈ (todo.eraseIdx k).map PathInfo.path ∨
          q ∈ failedPaths (outcomes ++ [(info.path, outcome)]) ∨ q ∈ failed →
          q ∈ (track (todo.eraseIdx k) (outcomes ++ [(info.path, outcome)]) failed).holds :=
        fun q hq => mem_track (by simpa only [List.mem_append] using hq)
      rw [failedPaths_append] at htrack
      rcases hp with hp | hp | hp
      · obtain ⟨other, hother, rfl⟩ := List.mem_map.mp hp
        rcases mem_eraseIdx_or hk hother with rfl | hleft
        · -- this upload has just ended: it failed, or the server has the path
          cases outcome with
          | failed e => exact Or.inl (htrack _ (Or.inr (Or.inl (by simp [failedPaths]))))
          | pushed => exact Or.inr (Or.inl List.mem_cons_self)
          | deduped => exact Or.inr (Or.inl List.mem_cons_self)
        · exact Or.inl (htrack _ (Or.inl (List.mem_map_of_mem hleft)))
      · exact Or.inl (htrack _ (Or.inr (Or.inl (List.mem_append_left _ hp))))
      · exact Or.inl (htrack _ (Or.inr (Or.inr hp)))
  · exact absurd h (by simp)

end Push

/-! ## `Watcher` -/

/-- `Watcher`, less its paths and its timer. -/
structure Watcher where
  filters : Filters
  maxAttempts : ℕ
  deriving DecidableEq, Repr

/-- Where the process stands. -/
inductive Daemon where
  /-- There is none. -/
  | idle
  /-- `run` is called. -/
  | runStart (fullSync : Bool)
  | runWrite (cursor : Int)
  | runLoad (cursor : Int)
  /-- At the head of the loop of `run`. -/
  | poll (cursor : Int) (failed : FailedList)
  | batch (newest : Int) (failed : FailedList) (push : Push)
  | batchSave (newest : Int) (failed : FailedList)
  | batchWrite (newest : Int) (failed : FailedList)
  /-- In `retry_failed`. -/
  | retry (cursor : Int) (failed : FailedList) (chunk : List String) (rest : List (List String))
    (push : Push)
  | retrySave (cursor : Int) (failed : FailedList)
  /-- `drain` is called. -/
  | drainStart (fullSync : Bool)
  | drainRead (target : Int) (fullSync : Bool)
  | drainLoad (target cursor : Int)
  | drainScan (target cursor : Int) (failed : FailedList) (todo : List String)
  | drain (cursor : Int) (failed : FailedList) (chunk : List String) (rest : List (List String))
    (push : Push)
  | drainSave (cursor : Int) (failed : FailedList)
  | drainWrite (cursor : Int) (failed : FailedList)

namespace Daemon

/-- The next chunk of `retry_failed`. -/
def retryNext (cursor : Int) (failed : FailedList) : List (List String) → Daemon
  | [] => retrySave cursor failed
  | chunk :: rest => retry cursor failed chunk rest (.start chunk)

/-- `retry_failed` is called. -/
def retryStart (maxAttempts : ℕ) (cursor : Int) (failed : FailedList) : Daemon :=
  let due := failed.due maxAttempts
  if due = [] then poll cursor failed else retryNext cursor failed (chunks batchSize due)

/-- The next chunk of `drain`. -/
def drainNext (cursor : Int) (failed : FailedList) : List (List String) → Daemon
  | [] => drainSave cursor failed
  | chunk :: rest => drain cursor failed chunk rest (.start chunk)

/-- The push under way. -/
def push? : Daemon → Option Push
  | batch _ _ push | retry _ _ _ _ push | drain _ _ _ _ push => some push
  | _ => none

/-- The push goes on as `push`. -/
def setPush (push : Push) : Daemon → Daemon
  | batch newest failed _ => batch newest failed push
  | retry cursor failed chunk rest _ => retry cursor failed chunk rest push
  | drain cursor failed chunk rest _ => drain cursor failed chunk rest push
  | d => d

end Daemon

/-- The database, the files and the process. `first` is the cursor that was recorded first. -/
structure State where
  db : NixDb
  cursor : Option Int
  failed : Option String
  daemon : Daemon
  first : Option Int
  acked : List Int
  gone : List Int

/-- What may happen next. -/
inductive Act where
  /-- A path becomes valid. -/
  | valid (r : ValidPath)
  /-- A row leaves the database. -/
  | collect (id : Int)
  | sign (id : Int) (sigs : List String)
  | run (fullSync : Bool)
  | drain (fullSync : Bool)
  | kill
  /-- The process goes on: it reads, writes or computes. -/
  | proceed
  /-- It is answered. -/
  | answer (a : Answer)

namespace State

/-- No cursor was ever recorded. -/
def init (db : NixDb) (failed : Option String) : State :=
  ⟨db, none, failed, .idle, none, [], []⟩

/-- `write_cursor`. -/
def writeCursor (s : State) (cursor : Int) : State :=
  { s with cursor := some cursor, first := s.first <|> some cursor }

/-- The ids of the rows with one of these paths. -/
def ids (s : State) (paths : List String) : List Int :=
  (s.db.rows.filter fun r => decide (r.path ∈ paths)).map ValidPath.id

/-- What an answer settles, row by row. -/
def settle (s : State) (e : Settled) : State :=
  { s with acked := s.acked ++ s.ids e.acked, gone := s.gone ++ s.ids e.gone }

/-- The process goes on as `d`. -/
def goTo (s : State) (d : Daemon) : State := { s with daemon := d }

end State

/-- What the process does by itself. -/
def Watcher.proceed (w : Watcher) (s : State) : Option State :=
  match s.daemon with
  | .idle => none
  | .runStart fullSync =>
    match s.cursor with
    | some cursor => some (s.goTo (.runWrite cursor))
    | none => some (s.goTo (.runWrite (if fullSync then 0 else s.db.maxId)))
  | .runWrite cursor => some ((s.writeCursor cursor).goTo (.runLoad cursor))
  | .runLoad cursor => some (s.goTo (.poll cursor (.load s.failed)))
  | .poll cursor failed =>
    let batch := s.db.pathsAfter cursor batchSize
    match batch.getLast? with
    | none => some (s.goTo (.retryStart w.maxAttempts cursor failed))
    | some newest => some (s.goTo (.batch newest.id failed (.start (w.filters.select batch))))
  | .batch newest failed (.done paths) =>
    some (s.goTo (.batchSave newest (paths.foldl FailedList.recordFailure failed)))
  | .batch _ _ _ => none
  | .batchSave newest failed =>
    some ({ s with failed := failed.save }.goTo (.batchWrite newest failed))
  | .batchWrite newest failed => some ((s.writeCursor newest).goTo (.poll newest failed))
  | .retry cursor failed chunk rest (.done paths) =>
    some (s.goTo (.retryNext cursor (failed.apply chunk paths) rest))
  | .retry _ _ _ _ _ => none
  | .retrySave cursor failed =>
    some ({ s with failed := failed.save }.goTo (.poll cursor failed))
  | .drainStart fullSync => some (s.goTo (.drainRead s.db.maxId fullSync))
  | .drainRead target fullSync =>
    match s.cursor with
    | some cursor => some (s.goTo (.drainLoad target cursor))
    | none => if fullSync then some (s.goTo (.drainLoad target 0)) else some (s.goTo .idle)
  | .drainLoad target cursor =>
    let failed := FailedList.load s.failed
    some (s.goTo (.drainScan target cursor failed failed.paths))
  | .drainScan target cursor failed todo =>
    let batch := (s.db.pathsAfter cursor batchSize).filter fun r => decide (r.id ≤ target)
    match if cursor < target then batch.getLast? else none with
    | none => some (s.goTo (.drainNext cursor failed (chunks batchSize todo)))
    | some newest =>
      let selected := (w.filters.select batch).filter fun p => decide (p ∉ failed.paths)
      some (s.goTo (.drainScan target newest.id failed (todo ++ selected)))
  | .drain cursor failed chunk rest (.done paths) =>
    some (s.goTo (.drainNext cursor (failed.apply chunk paths) rest))
  | .drain _ _ _ _ _ => none
  | .drainSave cursor failed =>
    some ({ s with failed := failed.save }.goTo (.drainWrite cursor failed))
  | .drainWrite cursor _ => some ((s.writeCursor cursor).goTo .idle)

/-- One step. There is one process at a time. -/
def Watcher.step (w : Watcher) (s : State) : Act → Option State
  | .valid r => if h : s.db.seq < r.id then some { s with db := s.db.insert r h } else none
  | .collect id => some { s with db := s.db.delete id }
  | .sign id sigs => some { s with db := s.db.sign id sigs }
  | .run fullSync =>
    match s.daemon with
    | .idle => some (s.goTo (.runStart fullSync))
    | _ => none
  | .drain fullSync =>
    match s.daemon with
    | .idle => some (s.goTo (.drainStart fullSync))
    | _ => none
  | .kill => some (s.goTo .idle)
  | .proceed => w.proceed s
  | .answer a =>
    match s.daemon.push? with
    | none => none
    | some push => (push.answer a).map fun r => (s.settle r.2).goTo (s.daemon.setPush r.1)

end Garret.Watch
