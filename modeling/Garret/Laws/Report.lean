import Garret.Client.Report
import Garret.Laws.Order
import Garret.Laws.Push

/-!
# The report of a push

What a consumer of `garret push --json` may rely on, whatever the server answers, in whatever order
the uploads end, and however much of the output has come.

* `Transcript`: the events of a push that has returned. Every path of a batch is in it once, with
  how it ended, after the Negotiation that found it missing; `done` is the last event, and there is
  one as soon as the first Negotiation was answered, also when the second fails.
* `Event.ofJson` reads an event back; `read` the whole lines of what has come of the output.
* `recount` counts the paths of a transcript anew.
-/

namespace Garret.Client.Report

open Garret.Lib

/-! ## Reading -/

/-- A text of an event. -/
def str? (j : Json.Object) (key : String) : Option String :=
  match Json.find key j with
  | some (.str s) => some s
  | _ => none

/-- A number of an event. -/
def int? (j : Json.Object) (key : String) : Option Int :=
  match Json.find key j with
  | some (.num n) => some n
  | _ => none

/-- A count of an event. -/
def nat? (j : Json.Object) (key : String) : Option ℕ :=
  (int? j key).bind fun n => if 0 ≤ n then some n.toNat else none

/-- How the path of an event ended. -/
def outcome? (j : Json.Object) : Option Outcome :=
  (str? j "status").bind fun status =>
    if status = "pushed" then some .pushed
    else if status = "deduped" then some .deduped
    else if status = "upstream" then some .upstream
    else if status = "would-push" then some .wouldPush
    else if status = "failed" then (str? j "error").map .failed
    else none

/-- An event is read from its value. -/
def Event.ofJson (j : Json.Object) : Option Event :=
  (str? j "event").bind fun event =>
    if event = "negotiated" then do
      let total ← nat? j "closure"
      let upstream ← nat? j "upstream"
      let missing ← nat? j "missing"
      let narBytes ← nat? j "nar_bytes"
      some (.negotiated total upstream missing narBytes)
    else if event = "path" then do
      let name ← str? j "path"
      let narSize ← int? j "nar_size"
      let outcome ← outcome? j
      some (.path name narSize outcome)
    else if event = "rechecked" then do
      let missing ← nat? j "missing"
      let narBytes ← nat? j "nar_bytes"
      some (.rechecked missing narBytes)
    else if event = "done" then do
      let pushed ← nat? j "pushed"
      let deduped ← nat? j "deduped"
      let failed ← nat? j "failed"
      let narBytes ← nat? j "nar_bytes"
      some (.done ⟨pushed, deduped, failed, narBytes⟩)
    else none

theorem ofJson_pathEvent (name : String) (narSize : Int) (outcome : Outcome) :
    Event.ofJson (pathEvent name narSize outcome) = some (.path name narSize outcome) := by
  cases outcome <;>
    simp [Event.ofJson, pathEvent, Outcome.asStr, outcome?, str?, int?, Json.object,
      Json.find_put, Json.find]

/-- **Every event is read back from its value.** -/
theorem ofJson_toJson (e : Event) : Event.ofJson e.toJson = some e := by
  cases e with
  | path name narSize outcome => exact ofJson_pathEvent name narSize outcome
  | negotiated total upstream missing narBytes =>
    simp [Event.ofJson, Event.toJson, str?, int?, nat?, Json.object, Json.find_put, Json.find]
  | rechecked missing narBytes =>
    simp [Event.ofJson, Event.toJson, str?, int?, nat?, Json.object, Json.find_put, Json.find]
  | done summary =>
    simp [Event.ofJson, Event.toJson, str?, int?, nat?, Json.object, Json.find_put, Json.find]

/-- The values these events are written as. -/
def values (es : List Event) : Set Json.Object := {v | ∃ e ∈ es, e.toJson = v}

section

variable (json : Format Json.Object)

/-- An event from its line. -/
def readLine (line : List Char) : Option Event := (json.parse line).bind Event.ofJson

/-- The events of the lines that have come whole. -/
def read (seen : List Char) : Option (List Event) := (Lines.complete seen).mapM (readLine json)

variable {json} {es : List Event}

theorem readLine_line (hjson : json.Lawful (values es)) {e : Event} (he : e ∈ es) :
    readLine json (e.line json) = some e := by
  rw [readLine, Event.line, hjson.reads _ ⟨e, he, rfl⟩, Option.bind_some, ofJson_toJson]

theorem mapM_readLine (hjson : json.Lawful (values es)) :
    ∀ ys : List Event, ys ⊆ es → (ys.map (Event.line json)).mapM (readLine json) = some ys
  | [], _ => rfl
  | y :: ys, h => by
    have hys := mapM_readLine hjson ys fun e he => h (List.mem_cons_of_mem y he)
    simp [readLine_line hjson (h List.mem_cons_self), hys]

/-- **However much of the output has come, its whole lines are the first of the events**, and the
rest is the beginning of a line. -/
theorem read_prefix (hjson : json.Lawful (values es)) {seen : List Char}
    (h : seen <+: stdout json es) :
    ∃ ys zs rest, es = ys ++ zs ∧ read json seen = some ys ∧ seen = stdout json ys ++ rest ∧
      (zs = [] → rest = []) := by
  have hline : ∀ e ∈ es, '\n' ∉ e.line json := fun e he =>
    (hjson.one_line _ ⟨e, he, rfl⟩).not_mem
  obtain ⟨ys, zs, rest, hes, hys, hseen, hrest⟩ := Lines.complete_prefix es hline h
  have hsub : ys ⊆ es := hes ▸ List.subset_append_left ys zs
  exact ⟨ys, zs, rest, hes, by rw [read, hys, mapM_readLine hjson ys hsub], hseen, hrest⟩

end

/-! ## Counting -/

/-- What a path that ended adds to the totals. -/
def Outcome.adds (narSize : Int) : Outcome → Summary
  | pushed => ⟨1, 0, 0, narSize.toNat⟩
  | deduped => ⟨0, 1, 0, narSize.toNat⟩
  | failed _ => ⟨0, 0, 1, narSize.toNat⟩
  | upstream => .default
  | wouldPush => ⟨0, 0, 0, narSize.toNat⟩

/-- What an event adds to the totals. -/
def Event.adds : Event → Summary
  | .path _ narSize outcome => outcome.adds narSize
  | _ => .default

/-- The totals of a report, counted anew from the events of its paths. -/
def recount (es : List Event) : Summary := es.foldr (fun e s => e.adds.add s) .default

theorem default_add (s : Summary) : Summary.default.add s = s := by
  simp [Summary.default, Summary.add]

theorem add_assoc (a b d : Summary) : (a.add b).add d = a.add (b.add d) := by
  simp [Summary.add, Nat.add_assoc]

theorem recount_append (as bs : List Event) :
    recount (as ++ bs) = (recount as).add (recount bs) := by
  induction as with
  | nil => exact (default_add _).symm
  | cons e as ih =>
    show e.adds.add (recount (as ++ bs)) = (e.adds.add (recount as)).add (recount bs)
    rw [ih, add_assoc]

/-- Paths that are only named add nothing. -/
theorem recount_upstream (infos : List PathInfo) :
    recount (infos.map fun info => path info .upstream) = .default := by
  induction infos with
  | nil => rfl
  | cons info infos ih =>
    show Summary.default.add (recount (infos.map fun info => path info .upstream)) = .default
    rw [ih, default_add]

/-- Paths that would be uploaded add their sizes. -/
theorem recount_wouldPush (infos : List PathInfo) :
    recount (infos.map fun info => path info .wouldPush) =
      { Summary.default with narBytes := narBytes infos } := by
  induction infos with
  | nil => rfl
  | cons info infos ih =>
    show Summary.add ⟨0, 0, 0, info.narSize.toNat⟩
      (recount (infos.map fun info => path info .wouldPush)) = _
    rw [ih]
    simp [Summary.add, Summary.default, narBytes]

variable (text : PushError → String)

theorem recount_path (info : PathInfo) (o : Client.Outcome) (s : Summary) :
    (path info (.ofEnd text o)).adds.add s =
      { s.count o with narBytes := info.narSize.toNat + s.narBytes } := by
  cases o <;> simp [path, Outcome.ofEnd, Event.adds, Outcome.adds, Summary.add, Summary.count,
    Nat.add_comm]

/-- The counters of a fold start where they are told. -/
theorem foldl_count (ended : List (PathInfo × Client.Outcome)) : ∀ s : Summary,
    (ended.map fun e => (e.1.path, e.2)).foldl (fun s o => s.count o.2) s =
      { s.add (recount (paths text ended)) with narBytes := s.narBytes } := by
  induction ended with
  | nil => exact fun s => by simp [paths, recount, Summary.add, Summary.default]
  | cons e ended ih =>
    intro s
    have hpaths : recount (paths text (e :: ended)) =
        (path e.1 (.ofEnd text e.2)).adds.add (recount (paths text ended)) := rfl
    rw [List.map_cons, List.foldl_cons, ih, hpaths, recount_path]
    cases e.2 <;> simp [Summary.count, Summary.add, Nat.add_assoc] <;> omega

theorem narBytes_recount (ended : List (PathInfo × Client.Outcome)) :
    (recount (paths text ended)).narBytes = narBytes (ended.map Prod.fst) := by
  induction ended with
  | nil => rfl
  | cons e ended ih =>
    have hpaths : recount (paths text (e :: ended)) =
        (path e.1 (.ofEnd text e.2)).adds.add (recount (paths text ended)) := rfl
    rw [hpaths, recount_path, ih]
    simp [narBytes]

/-! ## The transcript -/

/-- A batch that is over: how each of its paths ended, in the order they did. -/
structure Batch where
  missing : List PathInfo
  ended : List (PathInfo × Client.Outcome)
  complete : (ended.map Prod.fst).Perm missing

/-- The totals of a batch. -/
def Batch.summary (b : Batch) : Summary :=
  tally (b.ended.map fun e => (e.1.path, e.2)) (narBytes b.missing)

theorem narBytes_perm {as bs : List PathInfo} (h : as.Perm bs) : narBytes as = narBytes bs :=
  (h.map _).sum_eq

/-- **The totals of a batch are those of its events.** -/
theorem Batch.recount (b : Batch) : recount (paths text b.ended) = b.summary := by
  have hbytes := narBytes_recount text b.ended
  rw [narBytes_perm b.complete] at hbytes
  unfold Batch.summary tally
  rw [foldl_count text]
  simp [Summary.default, Summary.add, ← hbytes]

variable (c : Setup)

/-- **The events of a push that returned `result`.** -/
inductive Transcript : List Event → Except String Summary → Prop
  /-- The first Negotiation failed. -/
  | refused (e : String) : Transcript [] (.error e)
  /-- Nothing is uploaded. -/
  | dry (hdry : c.dryRun = true) {missing : List PathInfo} (hown : missing.Sublist c.own) :
    Transcript (dryRun c missing) (.ok .default)
  /-- One batch, and no path of the closure that the second Negotiation, if any, finds missing. -/
  | once (hpush : c.dryRun = false) (b : Batch) (hown : b.missing.Sublist c.own)
      {result : Except String Summary}
      (hresult : result = .ok b.summary ∨
        b.missing ≠ [] ∧ b.summary.failed = 0 ∧ ∃ e, result = .error e) :
    Transcript (negotiated c b.missing ++ paths text b.ended ++ [.done b.summary]) result
  /-- After a batch without a failure a second one, of what is missing then. -/
  | again (hpush : c.dryRun = false) (b b' : Batch) (hown : b.missing.Sublist c.own)
      (hne : b.missing ≠ []) (hclean : b.summary.failed = 0) (hown' : b'.missing.Sublist c.own)
      (hne' : b'.missing ≠ []) :
    Transcript (negotiated c b.missing ++ paths text b.ended ++
      (rechecked b'.missing :: paths text b'.ended) ++ [.done (b.summary.add b'.summary)])
      (.ok (b.summary.add b'.summary))

/-- A batch under way: `ended` of its paths have ended. -/
structure Accounts (missing : List PathInfo) (pool : Pool)
    (ended : List (PathInfo × Client.Outcome)) : Prop where
  outcomes : pool.outcomes = ended.map fun e => (e.1.path, e.2)
  covers : (ended.map Prod.fst ++ (pool.jobs.map Job.info ++ pool.todo)).Perm missing
  bytes : pool.narBytes = narBytes missing

/-- What has been written when the client stands here. -/
def Traced : Pc → List Event → Prop
  | .negotiate, es => es = []
  | .push pushedAny pool, es => c.dryRun = false ∧ ∃ missing ended, missing.Sublist c.own ∧
      pushedAny = !missing.isEmpty ∧ Accounts missing pool ended ∧
      es = negotiated c missing ++ paths text ended
  | .recheck summary, es => c.dryRun = false ∧ ∃ b : Batch, b.missing.Sublist c.own ∧
      b.missing ≠ [] ∧ b.summary = summary ∧ summary.failed = 0 ∧
      es = negotiated c b.missing ++ paths text b.ended
  | .repush summary pool, es => c.dryRun = false ∧ ∃ (b : Batch) (gone : List PathInfo)
      (ended : List (PathInfo × Client.Outcome)), b.missing.Sublist c.own ∧ b.missing ≠ [] ∧
      b.summary = summary ∧ summary.failed = 0 ∧ gone.Sublist c.own ∧ gone ≠ [] ∧
      Accounts gone pool ended ∧
      es = negotiated c b.missing ++ paths text b.ended ++ (rechecked gone :: paths text ended)
  | .done result, es => Transcript text c es result

/-! ## One batch -/

section

variable {missing : List PathInfo} {pool : Pool} {ended : List (PathInfo × Client.Outcome)}

/-- A batch is started whatever its paths refer to, and starts with all of them. -/
theorem start_accounts (missing : List PathInfo) :
    ∃ pool, Pool.start missing = some pool ∧ Accounts missing pool [] := by
  obtain ⟨order, left, hfirst, hperm, -⟩ := referencesFirst_positions missing
  refine ⟨_, by rw [Pool.start, hfirst, Option.map_some], rfl, ?_, rfl⟩
  have h := hperm.filterMap fun i => missing[i]?
  rw [filterMap_range] at h
  exact h

theorem Accounts.launch (h : Accounts missing pool ended) {pool' : Pool}
    {workers maxRetries now : ℕ} (hl : pool.launch workers maxRetries now = some pool') :
    Accounts missing pool' ended := by
  unfold Pool.launch at hl
  split at hl
  · exact absurd hl (by simp)
  · rename_i info todo htodo
    split at hl
    · obtain rfl := Option.some.inj hl
      refine ⟨h.outcomes, ?_, h.bytes⟩
      have hcov := h.covers
      rw [htodo] at hcov
      simpa using hcov
    · exact absurd hl (by simp)

/-- The paths under way stay the same. -/
theorem Accounts.of_infos (h : Accounts missing pool ended) {jobs : List Job}
    (hinfo : jobs.map Job.info = pool.jobs.map Job.info) :
    Accounts missing { pool with jobs := jobs } ended :=
  ⟨h.outcomes, by rw [hinfo]; exact h.covers, h.bytes⟩

theorem Accounts.setPhase (h : Accounts missing pool ended) {k : ℕ} {job : Job}
    (hjob : pool.jobs[k]? = some job) (phase : Phase) :
    Accounts missing (pool.setPhase k job phase) ended :=
  h.of_infos (map_info_set hjob _ rfl)

theorem Accounts.cut (h : Accounts missing pool ended) : Accounts missing pool.cut ended := by
  refine h.of_infos ?_
  rw [List.map_map]
  refine List.map_congr_left fun job _ => ?_
  obtain ⟨info, attempt, phase⟩ := job
  cases phase <;> rfl

/-- A path under way ends. -/
theorem Accounts.finish (h : Accounts missing pool ended) {k : ℕ} {job : Job}
    (hjob : pool.jobs[k]? = some job) (o : Client.Outcome) :
    Accounts missing { pool with
      jobs := pool.jobs.eraseIdx k, outcomes := pool.outcomes ++ [(job.info.path, o)] }
      (ended ++ [(job.info, o)]) := by
  obtain ⟨hlt, rfl⟩ := List.getElem?_eq_some_iff.mp hjob
  refine ⟨by rw [List.map_append, h.outcomes]; rfl, ?_, h.bytes⟩
  have hjobs := (List.getElem_cons_eraseIdx_perm hlt).map Job.info
  rw [List.map_append, List.append_assoc]
  exact ((hjobs.append_right pool.todo).append_left _).trans h.covers

/-- **A round of a job**: what it ends, if anything, has ended in the batch too. -/
theorem Accounts.settle (h : Accounts missing pool ended) {k : ℕ} {job : Job}
    (hjob : pool.jobs[k]? = some job) (turn : Turn) :
    Accounts missing (pool.settle k job turn) (ended ++ ends job turn) := by
  cases turn with
  | done result =>
    cases result with
    | ok o => exact h.finish hjob o
    | error e => exact h.finish hjob (.failed e)
  | again wait t =>
    rw [ends, List.append_nil]
    exact h.of_infos (map_info_set hjob _ rfl)

/-- A batch none of whose paths is left is over. -/
theorem Accounts.finished (h : Accounts missing pool ended) (hf : pool.finished = true) :
    ∃ b : Batch, b.missing = missing ∧ b.ended = ended ∧
      b.summary = tally pool.outcomes pool.narBytes := by
  obtain ⟨htodo, hjobs⟩ := (Bool.and_eq_true _ _).mp hf
  have hcov := h.covers
  rw [List.isEmpty_iff.mp htodo, List.isEmpty_iff.mp hjobs] at hcov
  refine ⟨⟨missing, ended, by simpa using hcov⟩, rfl, rfl, ?_⟩
  unfold Batch.summary
  rw [h.outcomes, h.bytes]

end

/-! ## The client moves -/

section

variable {text : PushError → String} {c : Setup} {es : List Event} {pc : Pc}

/-- The batch goes on, and what it ends is written. -/
theorem Traced.setPool (new : List (PathInfo × Client.Outcome)) {pool pool' : Pool}
    (ht : Traced text c pc es) (hp : pc.pool? = some pool)
    (hmove : ∀ missing ended, Accounts missing pool ended →
      Accounts missing pool' (ended ++ new)) :
    Traced text c (pc.setPool pool') (es ++ paths text new) := by
  cases pc with
  | push pushedAny p =>
    obtain rfl := Option.some.inj hp
    obtain ⟨hpush, missing, ended, hown, hany, hacc, rfl⟩ := ht
    refine ⟨hpush, missing, ended ++ new, hown, hany, hmove _ _ hacc, ?_⟩
    simp [paths]
  | repush summary p =>
    obtain rfl := Option.some.inj hp
    obtain ⟨hpush, b, gone, ended, hown, hne, hsum, hclean, hgone, hgne, hacc, rfl⟩ := ht
    refine ⟨hpush, b, gone, ended ++ new, hown, hne, hsum, hclean, hgone, hgne, hmove _ _ hacc, ?_⟩
    simp [paths]
  | _ => exact absurd hp (by simp [Pc.pool?])

/-- The batch goes on, and nothing ends. -/
theorem Traced.setPool_quiet {pool pool' : Pool} (ht : Traced text c pc es)
    (hp : pc.pool? = some pool)
    (hmove : ∀ missing ended, Accounts missing pool ended → Accounts missing pool' ended) :
    Traced text c (pc.setPool pool') (es ++ []) :=
  ht.setPool [] hp fun missing ended hacc => by
    rw [List.append_nil]
    exact hmove missing ended hacc

theorem Traced.after (ht : Traced text c pc es) (a : Act) :
    Traced text c (pc.after a) (es ++ []) := by
  by_cases hcrash : a = .crash
  · subst hcrash
    show Traced text c pc.cut (es ++ [])
    unfold Pc.cut
    split
    · rename_i pool hp
      exact ht.setPool_quiet hp fun _ _ hacc => hacc.cut
    · rw [List.append_nil]
      exact ht
  · rw [Pc.after_of_ne hcrash, List.append_nil]
    exact ht

theorem traced_startPush (hpush : c.dryRun = false) {missing : List PathInfo}
    (hown : missing.Sublist c.own) :
    Traced text c (.startPush missing) ([] ++ negotiated c missing) := by
  obtain ⟨pool, hstart, hacc⟩ := start_accounts missing
  unfold Pc.startPush
  rw [hstart]
  exact ⟨hpush, missing, [], hown, rfl, hacc, by simp [paths]⟩

/-- The second Negotiation is answered. -/
theorem Traced.startRepush {summary : Summary} (ht : Traced text c (.recheck summary) es)
    {gone : List PathInfo} (hgone : gone.Sublist c.own) :
    Traced text c (.startRepush summary gone)
      (es ++ answered c (.recheck summary) (.ok gone)) := by
  obtain ⟨hpush, b, hown, hne, rfl, hclean, rfl⟩ := ht
  obtain ⟨pool, hstart, hacc⟩ := start_accounts gone
  unfold Pc.startRepush answered
  by_cases hempty : gone.isEmpty = true
  · simp only [hempty, if_true]
    exact .once hpush b hown (Or.inl rfl)
  · simp only [hempty, hstart]
    exact ⟨hpush, b, gone, [], hown, hne, rfl, hclean, hgone,
      fun h => hempty (List.isEmpty_iff.mpr h), hacc, rfl⟩

/-- The second Negotiation fails. -/
theorem Traced.unchecked {summary : Summary} (ht : Traced text c (.recheck summary) es)
    (e : String) : Traced text c (.done (.error e)) (es ++ [.done summary]) := by
  obtain ⟨hpush, b, hown, hne, rfl, hclean, rfl⟩ := ht
  exact .once hpush b hown (Or.inr ⟨hne, hclean, e, rfl⟩)

/-- A batch is over. -/
theorem Traced.collect (ht : Traced text c pc es) {pc' : Pc} (h : pc.collect = some pc') :
    Traced text c pc' (es ++ collected pc) := by
  cases pc with
  | push pushedAny pool =>
    obtain ⟨hpush, missing, ended, hown, rfl, hacc, rfl⟩ := ht
    simp only [Pc.collect] at h
    split at h
    · rename_i hfin
      obtain ⟨b, rfl, rfl, hsum⟩ := hacc.finished hfin
      simp only [collected]
      rw [← hsum] at h ⊢
      split at h
      · rename_i hclean
        obtain rfl := Option.some.inj h
        rw [if_pos hclean, List.append_nil]
        simp only [Bool.and_eq_true, Bool.not_eq_true', beq_iff_eq] at hclean
        refine ⟨hpush, b, hown, ?_, rfl, hclean.2, rfl⟩
        exact fun hnil => absurd (List.isEmpty_iff.mpr hnil) (by simp [hclean.1])
      · rename_i hclean
        obtain rfl := Option.some.inj h
        rw [if_neg hclean]
        exact .once hpush b hown (Or.inl rfl)
    · exact absurd h (by simp)
  | repush summary pool =>
    obtain ⟨hpush, b, gone, ended, hown, hne, rfl, hclean, hgone, hgne, hacc, rfl⟩ := ht
    simp only [Pc.collect] at h
    split at h
    · rename_i hfin
      obtain ⟨b', rfl, rfl, hsum⟩ := hacc.finished hfin
      obtain rfl := Option.some.inj h
      simp only [collected]
      rw [← hsum]
      exact .again hpush b b' hown hne hclean hgone hgne
    · exact absurd h (by simp)
  | _ => exact absurd h (by simp [Pc.collect])

theorem settled_eq {pool : Pool} {k : ℕ} {job : Job} (hp : pc.pool? = some pool)
    (hj : pool.jobs[k]? = some job) {f : Job → Option Turn} {turn : Turn}
    (hf : f job = some turn) : settled pc k f = ends job turn := by
  simp [settled, hp, hj, hf]

end

/-! ## Where the totals are -/

/-- No totals yet. -/
def Quiet (es : List Event) : Prop := ∀ summary, Event.done summary ∉ es

theorem Quiet.append {as bs : List Event} (ha : Quiet as) (hb : Quiet bs) : Quiet (as ++ bs) :=
  fun summary h => (List.mem_append.mp h).elim (ha summary) (hb summary)

theorem quiet_negotiated (c : Setup) (missing : List PathInfo) : Quiet (negotiated c missing) := by
  intro summary h
  simp [negotiated, path] at h

theorem quiet_paths (text : PushError → String) (ended : List (PathInfo × Client.Outcome)) :
    Quiet (paths text ended) := by
  intro summary h
  simp [paths, path] at h

theorem quiet_rechecked (gone : List PathInfo) {es : List Event} (h : Quiet es) :
    Quiet (rechecked gone :: es) := by
  intro summary hmem
  rcases List.mem_cons.mp hmem with hd | hmem
  · exact absurd hd (by simp [rechecked])
  · exact h summary hmem

/-- Where the totals are in what ends with the only ones. -/
theorem Quiet.split {as es rest : List Event} {summary total : Summary} (hq : Quiet as)
    (h : as ++ [.done total] = es ++ .done summary :: rest) :
    rest = [] ∧ es = as ∧ summary = total := by
  rcases List.eq_nil_or_concat rest with rfl | ⟨init, last, rfl⟩
  · obtain ⟨rfl, hlast⟩ := List.append_inj' h rfl
    exact ⟨rfl, rfl, (Event.done.inj (List.head_eq_of_cons_eq hlast)).symm⟩
  · rw [List.concat_eq_append, ← List.cons_append, ← List.append_assoc] at h
    obtain ⟨rfl, -⟩ := List.append_inj' h rfl
    exact absurd (List.mem_append_right es List.mem_cons_self) (hq summary)

theorem recount_negotiated (c : Setup) (missing : List PathInfo) :
    recount (negotiated c missing) = .default := by
  show Summary.default.add (recount _) = .default
  rw [recount_upstream, default_add]

/-- **The totals of a transcript are those of the paths in it.** -/
theorem Transcript.totals {text : PushError → String} {c : Setup} {all : List Event}
    {result : Except String Summary} (ht : Transcript text c all result) {es rest : List Event}
    {summary : Summary} (h : all = es ++ .done summary :: rest) :
    rest = [] ∧ summary = recount es := by
  cases ht with
  | refused e => exact absurd h.symm (by simp)
  | @dry hdry missing hown =>
    have hq : Quiet (negotiated c missing ++ missing.map fun info => path info .wouldPush) :=
      (quiet_negotiated c missing).append fun summary hmem => by simp [path] at hmem
    obtain ⟨rfl, rfl, rfl⟩ := hq.split h
    exact ⟨rfl, by rw [recount_append, recount_negotiated, recount_wouldPush, default_add]⟩
  | once hpush b hown hresult =>
    have hq := (quiet_negotiated c b.missing).append (quiet_paths text b.ended)
    obtain ⟨rfl, rfl, rfl⟩ := hq.split h
    exact ⟨rfl, by rw [recount_append, recount_negotiated, b.recount, default_add]⟩
  | again hpush b b' hown hne hclean hown' hne' =>
    have hq := ((quiet_negotiated c b.missing).append (quiet_paths text b.ended)).append
      (quiet_rechecked b'.missing (quiet_paths text b'.ended))
    obtain ⟨rfl, rfl, rfl⟩ := hq.split h
    refine ⟨rfl, ?_⟩
    have hagain : recount (rechecked b'.missing :: paths text b'.ended) = b'.summary := by
      show Summary.default.add (recount (paths text b'.ended)) = b'.summary
      rw [b'.recount, default_add]
    rw [recount_append, recount_append, recount_negotiated, b.recount, hagain, default_add]

/-- There are totals only when the push is over. -/
theorem Traced.over {text : PushError → String} {c : Setup} {pc : Pc} {all : List Event}
    (ht : Traced text c pc all) {es rest : List Event} {summary : Summary}
    (h : all = es ++ .done summary :: rest) :
    rest = [] ∧ (∃ result, pc = .done result) ∧ summary = recount es := by
  have hmem : Event.done summary ∈ all := h ▸ List.mem_append_right es List.mem_cons_self
  cases pc with
  | negotiate => exact absurd hmem (by rw [show all = [] from ht]; exact List.not_mem_nil)
  | push pushedAny pool =>
    obtain ⟨-, missing, ended, -, -, -, rfl⟩ := ht
    exact absurd hmem ((quiet_negotiated c missing).append (quiet_paths text ended) summary)
  | recheck total =>
    obtain ⟨-, b, -, -, -, -, rfl⟩ := ht
    exact absurd hmem ((quiet_negotiated c b.missing).append (quiet_paths text b.ended) summary)
  | repush total pool =>
    obtain ⟨-, b, gone, ended, -, -, -, -, -, -, -, rfl⟩ := ht
    exact absurd hmem (((quiet_negotiated c b.missing).append (quiet_paths text b.ended)).append
      (quiet_rechecked gone (quiet_paths text ended)) summary)
  | done result =>
    obtain ⟨hrest, hsum⟩ := Transcript.totals ht h
    exact ⟨hrest, ⟨result, rfl⟩, hsum⟩

end Garret.Client.Report

namespace Garret.Client.Reported

open Garret.Lib Garret.Client.Report

variable {δ : Type} {text : PushError → String} {env : Env δ} {c : Setup} {s s' : Reported}

/-- What a session has written. -/
def Sound (text : PushError → String) (c : Setup) (s : Reported) : Prop :=
  Traced text c s.session.pc s.events

/-- The first or the second Negotiation is answered. -/
theorem sound_ask (hs : Sound text c s) {io : Faults}
    (h : s.step text env c (.ask io) = some s') : Sound text c s' := by
  obtain ⟨next, hnext, rfl⟩ := Option.map_eq_some_iff.mp h
  obtain ⟨⟨sys, pc, at'⟩, es⟩ := s
  simp only [Session.step] at hnext
  have hsub : ∀ ms, (retainMissing c.own ms).Sublist c.own := fun ms => List.filter_sublist
  cases pc with
  | negotiate =>
    obtain ⟨sys', -, rfl⟩ := Option.map_eq_some_iff.mp hnext
    obtain rfl : es = [] := hs
    simp only [Sound, written]
    cases hans : (missing io c.hashes sys.world.clock sys.world.db).1 with
    | error e => exact .refused _
    | ok ms =>
      by_cases hdry : c.dryRun = true
      · simp only [Except.map, Except.mapError, answered, hdry, if_true]
        exact .dry hdry (hsub ms)
      · simp only [Except.map, Except.mapError, answered, hdry]
        exact traced_startPush (Bool.eq_false_iff.mpr hdry) (hsub ms)
  | recheck summary =>
    obtain ⟨sys', -, rfl⟩ := Option.map_eq_some_iff.mp hnext
    simp only [Sound, written]
    cases hans : (missing io c.hashes sys.world.clock sys.world.db).1 with
    | error e => exact Traced.unchecked hs _
    | ok ms => exact Traced.startRepush hs (hsub ms)
  | _ => exact absurd hnext (by simp)

/-- A round of a job is over. -/
theorem sound_settle (hs : Sound text c s) {k : ℕ} {pool : Pool} {job : Job}
    (hp : s.session.pc.pool? = some pool) (hj : pool.jobs[k]? = some job)
    {f : Job → Option Turn} {turn : Turn} (hf : f job = some turn) :
    Traced text c (s.session.pc.setPool (pool.settle k job turn))
      (s.events ++ paths text (settled s.session.pc k f)) := by
  rw [settled_eq hp hj hf]
  exact Traced.setPool (ends job turn) hs hp fun _ _ hacc => hacc.settle hj turn

/-- **Every move writes what it must.** -/
theorem sound_step (hs : Sound text c s) {m : Move} (h : s.step text env c m = some s') :
    Sound text c s' := by
  cases m with
  | ask io => exact sound_ask hs h
  | server a =>
    obtain ⟨next, hnext, rfl⟩ := Option.map_eq_some_iff.mp h
    obtain ⟨sys, -, rfl⟩ := Option.map_eq_some_iff.mp hnext
    exact Traced.after hs a
  | unasked message =>
    obtain ⟨next, hnext, rfl⟩ := Option.map_eq_some_iff.mp h
    obtain ⟨⟨sys, pc, at'⟩, es⟩ := s
    simp only [Session.step] at hnext
    cases pc with
    | negotiate =>
      obtain rfl := Option.some.inj hnext
      obtain rfl : es = [] := hs
      exact .refused _
    | recheck summary =>
      obtain rfl := Option.some.inj hnext
      exact Traced.unchecked hs _
    | _ => exact absurd hnext (by simp)
  | launch now =>
    obtain ⟨next, hnext, rfl⟩ := Option.map_eq_some_iff.mp h
    obtain ⟨pool', hl, rfl⟩ := Option.map_eq_some_iff.mp hnext
    obtain ⟨pool, hp, hl⟩ := Option.bind_eq_some_iff.mp hl
    exact Traced.setPool_quiet hs hp fun _ _ hacc => hacc.launch hl
  | tokenless k message =>
    obtain ⟨next, hnext, rfl⟩ := Option.map_eq_some_iff.mp h
    obtain ⟨pool, job, hp, hj, hnext⟩ := Session.withJob_cases hnext
    split at hnext
    · obtain rfl := Option.some.inj hnext
      exact sound_settle hs hp hj rfl
    · exact absurd hnext (by simp)
  | send k task =>
    obtain ⟨next, hnext, rfl⟩ := Option.map_eq_some_iff.mp h
    obtain ⟨pool, job, hp, hj, hnext⟩ := Session.withJob_cases hnext
    split at hnext
    · obtain ⟨sys, -, rfl⟩ := Option.map_eq_some_iff.mp hnext
      exact Traced.setPool_quiet hs hp fun _ _ hacc => hacc.setPhase hj _
    · exact absurd hnext (by simp)
  | answer k id luck =>
    obtain ⟨next, hnext, rfl⟩ := Option.map_eq_some_iff.mp h
    obtain ⟨pool, job, hp, hj, hnext⟩ := Session.withJob_cases hnext
    obtain ⟨response, hresponse, rfl⟩ := Option.map_eq_some_iff.mp hnext
    exact sound_settle hs hp hj (by rw [hresponse, Option.map_some])
  | fault k e luck =>
    obtain ⟨next, hnext, rfl⟩ := Option.map_eq_some_iff.mp h
    obtain ⟨pool, job, hp, hj, hnext⟩ := Session.withJob_cases hnext
    obtain rfl := Option.some.inj hnext
    exact sound_settle hs hp hj rfl
  | collect =>
    obtain ⟨next, hnext, rfl⟩ := Option.map_eq_some_iff.mp h
    obtain ⟨pc, hpc, rfl⟩ := Option.map_eq_some_iff.mp hnext
    exact Traced.collect hs hpc

theorem sound_reach {sys : Sys}
    (h : Reach (step text env c) (fun _ _ => True) (start sys) s) : Sound text c s :=
  h.invariant (fun _ _ _ hs _ hstep => sound_step hs hstep) rfl

/-- **What a push that has returned has reported**, whatever the server answered and did meanwhile:
nothing if the first Negotiation failed; otherwise the Negotiation, each path of each batch once,
and the totals at the end, which are the result unless the second Negotiation failed or nothing was
to be uploaded. -/
theorem transcript_written {sys : Sys}
    (h : Reach (step text env c) (fun _ _ => True) (start sys) s) {result : Except String Summary}
    (hdone : s.session.pc = .done result) : Transcript text c s.events result := by
  have hsound := sound_reach h
  unfold Sound at hsound
  rwa [hdone] at hsound

/-- The push of the example: a path that an upstream key signs, and one that is uploaded. -/
theorem transcript_written_pushed : ∃ s summary,
    Reach (step (fun _ => "") Sample.env Sample.setup) (fun _ _ => True)
      (start (Sys.boot .empty ∅ 1000)) s ∧
    s.events.length = 4 ∧ Transcript (fun _ => "") Sample.setup s.events (.ok summary) := by
  obtain ⟨s, hs, hpc, hlen⟩ := exec_check (step (fun _ => "") Sample.env Sample.setup)
    (fun _ _ => True)
    ([.ask noFaults, .launch 0, .send 0 7] ++
      List.replicate 7 (.server (.step 7 { Oracle.calm with transfer := Sample.upload })) ++
      [.answer 0 "" ⟨0, 0, .ok false⟩, .collect, .ask noFaults])
    (start (Sys.boot .empty ∅ 1000))
    (fun s => s.session.pc.summary?.isSome = true ∧ s.events.length = 4)
    (by decide +kernel)
  obtain ⟨summary, hsum⟩ := Option.isSome_iff_exists.mp hpc
  exact ⟨s, summary, hs, hlen, transcript_written hs (Pc.summary?_eq_some hsum)⟩

/-- **A consumer can trust the totals, wherever the output is cut off.** Of what has come of the
output of a push at any time, the whole lines are read back as the first of its events; and if they
end with the totals, the push has returned, nothing of its output is missing, and the totals are
what a count of the paths' own events gives. -/
theorem totals_read {sys : Sys} {json : Format Json.Object}
    (h : Reach (step text env c) (fun _ _ => True) (start sys) s)
    (hjson : json.Lawful (values s.events)) {seen : List Char}
    (hseen : seen <+: stdout json s.events) :
    ∃ es, read json seen = some es ∧ es <+: s.events ∧
      ∀ init summary, es = init ++ [.done summary] →
        seen = stdout json s.events ∧ (∃ result, s.session.pc = .done result) ∧
          summary = recount init := by
  obtain ⟨ys, zs, rest, hes, hys, hsplit, hrest⟩ := read_prefix hjson hseen
  refine ⟨ys, hys, ⟨zs, hes.symm⟩, fun init summary hinit => ?_⟩
  have hall : s.events = init ++ .done summary :: zs := by
    rw [hes, hinit, List.append_assoc, List.singleton_append]
  obtain ⟨rfl, hover, hsum⟩ := Traced.over (sound_reach h) hall
  refine ⟨?_, hover, hsum⟩
  rw [hsplit, hrest rfl, hes, List.append_nil, List.append_nil]

end Garret.Client.Reported

namespace Garret.Sample

open Garret.Lib Garret.Client.Report

/-- What a dry run of the example reports. -/
def dryEvents : List Event :=
  [.negotiated 2 1 1 6, .path "/nix/store/1d8rsm8rlhz2zqg1p4d9c2l04x6imn3f-lib" 6 .upstream,
    .path "/nix/store/0c7qrl7qkgy1ypf0n3c8b1kz3w5hlm2d-app" 6 .wouldPush, .done ⟨0, 0, 0, 6⟩]

/-- Its lines. -/
def dryLines : List String :=
  ["\x7b\"closure\":2,\"event\":\"negotiated\",\"missing\":1,\"nar_bytes\":6,\"upstream\":1\x7d",
    "\x7b\"event\":\"path\",\"nar_size\":6," ++
      "\"path\":\"/nix/store/1d8rsm8rlhz2zqg1p4d9c2l04x6imn3f-lib\",\"status\":\"upstream\"\x7d",
    "\x7b\"event\":\"path\",\"nar_size\":6," ++
      "\"path\":\"/nix/store/0c7qrl7qkgy1ypf0n3c8b1kz3w5hlm2d-app\",\"status\":\"would-push\"\x7d",
    "\x7b\"deduped\":0,\"event\":\"done\",\"failed\":0,\"nar_bytes\":6,\"pushed\":0\x7d"]

def reportTexts : List (Json.Object × List Char) :=
  (dryEvents.zip dryLines).map fun e => (e.1.toJson, e.2.toList)

theorem reportTexts_texts : Format.Texts reportTexts := by decide +kernel

noncomputable def reportJson : Format Json.Object := .known reportTexts

end Garret.Sample

namespace Garret.Client.Reported

open Garret.Lib Garret.Client.Report

/-- The output of a dry run of the example, cut off in its last line. -/
theorem totals_read_dry : ∃ s es,
    Reach (step (fun _ => "") Sample.env { Sample.setup with dryRun := true })
      (fun _ _ => True) (start (Sys.boot .empty ∅ 1000)) s ∧
    stdout Sample.reportJson s.events = Sample.dryLines.flatMap (fun l => l.toList ++ ['\n']) ∧
    read Sample.reportJson ((stdout Sample.reportJson s.events).take 300) = some es ∧
    es <+: s.events := by
  obtain ⟨s, hs, hevents⟩ := exec_check
    (step (fun _ => "") Sample.env { Sample.setup with dryRun := true })
    (fun _ _ => True) [.ask noFaults] (start (Sys.boot .empty ∅ 1000))
    (fun s => s.events = Sample.dryEvents) (by decide +kernel)
  have hjson : Sample.reportJson.Lawful (values s.events) :=
    (Format.closed_known Sample.reportTexts_texts).mono (Set.subset_univ _)
  obtain ⟨es, hes, hprefix, -⟩ := totals_read hs hjson (List.take_prefix 300 _)
  refine ⟨s, es, hs, ?_, hes, hprefix⟩
  rw [hevents]
  decide +kernel

end Garret.Client.Reported
