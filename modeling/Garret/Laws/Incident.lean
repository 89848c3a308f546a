import Garret.Pusher.System

/-!
# Incident deletion

`delete_pushed_by` selects rows by subject in one closure, claims them later, and deletes them by
bare hash. Between the listing and the claim a listed row can go (evicted, deleted by another
command) and come back, pushed by somebody else: the command then deletes a row its subject never
pushed and reports it. `fsck` guards the same gap with the listed `created_at`; here nothing does
(`replaced_row_deleted`).

When no upload commits such a row in the gap (`Unreplaced`), every row the command removes is one
its subject pushed since the cutoff, and the answer lists exactly these (`deletes_own`). Once a path
is claimed no upload can commit a row for it, so the gap ends with the claim.
-/

namespace Garret

open Garret.Lib

theorem eraseDups_of_nodup {α : Type} [DecidableEq α] : ∀ {l : List α}, l.Nodup → l.eraseDups = l
  | [], _ => rfl
  | a :: l, h => by
    obtain ⟨ha, hl⟩ := List.nodup_cons.mp h
    have hfilter : l.filter (fun b => !b == a) = l :=
      List.filter_eq_self.mpr fun b hb => by
        simp only [Bool.not_eq_true', beq_eq_false_iff_ne]
        rintro rfl
        exact ha hb
    rw [List.eraseDups_cons, hfilter, eraseDups_of_nodup hl]

/-- The listing matches this row: its subject, its cutoff and the name it listed. -/
structure Listing.Matches (l : Listing) (b : ObjectBrief) (pushedBy : Option String)
    (createdAt : Int) (name : String) : Prop where
  subject : pushedBy = some l.subject
  since : ∀ t, l.since = some t → t ≤ createdAt
  name : name = b.name

instance (l : Listing) (b : ObjectBrief) (pushedBy : Option String) (createdAt : Int)
    (name : String) : Decidable (l.Matches b pushedBy createdAt name) :=
  decidable_of_iff (pushedBy = some l.subject ∧ (l.since.all fun t => decide (t ≤ createdAt)) = true ∧
      name = b.name)
    ⟨fun ⟨h₁, h₂, h₃⟩ =>
        ⟨h₁, fun t ht => of_decide_eq_true ((Option.all_eq_true _ _).mp h₂ t ht), h₃⟩,
      fun h => ⟨h.subject, (Option.all_eq_true _ _).mpr fun t ht => decide_eq_true (h.since t ht),
        h.name⟩⟩

/-- The row of `b`, if there is one, is one the listing matches. -/
def Listing.Holds (l : Listing) (w : World) (b : ObjectBrief) : Prop :=
  ∀ row, w.row? b.storePathHash = some row → l.Matches b row.pushedBy row.createdAt row.name

/-- Only an insert can put a row there that the listing does not match. -/
theorem Listing.Holds.step {l : Listing} {w w' : World} {b : ObjectBrief} {e : Effect}
    (h : l.Holds w b) (hd : e.Does w w')
    (hins : ∀ obj at', e = .inserted obj at' → obj.storePathHash = b.storePathHash →
      l.Matches b obj.pushedBy at' obj.name) : l.Holds w' b := by
  intro row hrow
  rcases hd.row_cases b.storePathHash with heq | ⟨-, hgone⟩ | ⟨obj, at', he, hk, hnew⟩ |
    ⟨x, y, hx, hy, hkin, -⟩
  · exact h row (heq.symm.trans hrow)
  · rw [hgone] at hrow
    exact absurd hrow (by simp)
  · obtain rfl := Option.some.inj (hnew.symm.trans hrow)
    exact hins obj at' he hk.symm
  · obtain rfl := Option.some.inj (hy.symm.trans hrow)
    unfold Row.Kin at hkin
    rw [hkin]
    exact h x hx

namespace Delete

/-- The listed paths a delete has not claimed yet. -/
def awaits : Delete → List (Listing × ObjectBrief)
  | start _ false (some l) => l.matched.map fun b => (l, b)
  | claims _ todo (some l) =>
    (l.matched.filter fun b => decide (b.storePathHash ∈ todo)).map fun b => (l, b)
  | _ => []

/-- The account of a delete that has worked through `past`: what it removed are the rows it did not
miss, all of them matched. -/
structure Account (l : Listing) (past : List ObjectBrief) (acc : Deleted) : Prop where
  missing : ∀ h ∈ acc.missing, h ∈ past.map ObjectBrief.storePathHash
  removed : acc.removed.map (fun e => e.1 ++ "-" ++ e.2.name) =
    basenames (past.filter fun b => !acc.missing.contains b.storePathHash)
  own : ∀ e ∈ acc.removed, e.2.pushedBy = some l.subject ∧ ∀ t, l.since = some t → t ≤ e.2.createdAt
  bytes : acc.bytesFreed = (acc.removed.map fun e => e.2.fileSize).sum

/-- What a delete on behalf of `delete_pushed_by` knows. -/
def Tracks (w : World) : Delete → Prop
  | start hashes dryRun (some l) => dryRun = false ∧ hashes = l.matched.map ObjectBrief.storePathHash ∧
      (l.matched.map ObjectBrief.storePathHash).Nodup ∧ ∀ b ∈ l.matched, l.Holds w b
  | claims taken todo (some l) => taken ++ todo = l.matched.map ObjectBrief.storePathHash ∧
      (l.matched.map ObjectBrief.storePathHash).Nodup ∧ ∀ b ∈ l.matched, l.Holds w b
  | rows todo d acc (some l) => (∃ del, d = some del) ∧
      (l.matched.map ObjectBrief.storePathHash).Nodup ∧
      ∃ past rest, l.matched = past ++ rest ∧ todo = rest.map ObjectBrief.storePathHash ∧
        Account l past acc ∧ ∀ b ∈ rest, l.Holds w b
  | finish _ acc (some l) => Account l l.matched acc
  | done result removed (some l) => l.dryRun = false →
      (∀ e ∈ removed, e.2.pushedBy = some l.subject ∧ ∀ t, l.since = some t → t ≤ e.2.createdAt) ∧
      ∀ objects bytes, result = .ok (.deletePushedBy objects bytes) →
        objects = removed.map (fun e => e.1 ++ "-" ++ e.2.name) ∧
        bytes = (removed.map fun e => e.2.fileSize).sum
  | _ => True

theorem account_zero (l : Listing) : Account l [] .zero :=
  ⟨by simp [Deleted.zero], by simp [Deleted.zero, basenames], by simp [Deleted.zero],
    by simp [Deleted.zero]⟩

/-- A path without a row is counted as missing. -/
theorem Account.missed {l : Listing} {past : List ObjectBrief} {acc : Deleted} {b : ObjectBrief}
    (h : Account l past acc) (hnew : b.storePathHash ∉ past.map ObjectBrief.storePathHash) :
    Account l (past ++ [b]) { acc with missing := acc.missing ++ [b.storePathHash] } := by
  refine ⟨fun x hx => ?_, ?_, h.own, h.bytes⟩
  · rw [List.map_append]
    rcases List.mem_append.mp hx with hx | hx
    · exact List.mem_append_left _ (h.missing x hx)
    · exact List.mem_append_right _ (by simpa using hx)
  · have hpast : past.filter (fun c => !(acc.missing ++ [b.storePathHash]).contains c.storePathHash) =
        past.filter fun c => !acc.missing.contains c.storePathHash := by
      refine List.filter_congr fun c hc => ?_
      have hne : c.storePathHash ≠ b.storePathHash := fun he =>
        hnew (he ▸ List.mem_map_of_mem hc)
      simp [hne]
    rw [List.filter_append, hpast]
    simp only [h.removed, basenames, List.map_append]
    simp

/-- A deleted row is matched, and counted. -/
theorem Account.removed_row {l : Listing} {past : List ObjectBrief} {acc : Deleted}
    {b : ObjectBrief} {row : Row} (h : Account l past acc)
    (hnew : b.storePathHash ∉ past.map ObjectBrief.storePathHash)
    (hm : l.Matches b row.pushedBy row.createdAt row.name) :
    Account l (past ++ [b])
      { acc with
        deleted := acc.deleted + 1
        bytesFreed := acc.bytesFreed + row.fileSize
        removed := acc.removed ++ [(b.storePathHash, row)] } := by
  refine ⟨fun x hx => ?_, ?_, fun e he => ?_, ?_⟩
  · rw [List.map_append]
    exact List.mem_append_left _ (h.missing x hx)
  · have hkeep : b.storePathHash ∉ acc.missing := fun hin => hnew (h.missing _ hin)
    rw [List.filter_append, List.map_append]
    simp only [h.removed, basenames, List.map_append]
    simp [hkeep, ObjectBrief.basename, hm.name]
  · rcases List.mem_append.mp he with he | he
    · exact h.own e he
    · obtain rfl := List.mem_singleton.mp he
      exact ⟨hm.subject, hm.since⟩
  · simp [h.bytes]

/-- **One step of a delete keeps its account.** -/
theorem step_tracks {me : ℕ} {w w' : World} {o : Oracle} {d d' : Delete}
    (h : Stepped me w o d w' d') (hd : d.Tracks w) : d'.Tracks w' := by
  cases h with
  | @listed subject since matched hl =>
    refine ⟨rfl, rfl, pushedBy_nodup hl, fun b hb row hrow => ?_⟩
    obtain ⟨r, hr, hbr, hsub, hsince⟩ := mem_pushedBy hl hb
    obtain rfl := Option.some.inj (hr.symm.trans hrow)
    exact ⟨hsub, hsince, by rw [hbr]; rfl⟩
  | @unlisted subject since dryRun result listing hr =>
    cases listing with
    | none => trivial
    | some l =>
      intro hdry
      rcases hr with ⟨e, rfl⟩ | ⟨l', hl', hdry'⟩
      · exact ⟨by simp, by simp⟩
      · obtain rfl := Option.some.inj hl'
        rw [hdry] at hdry'
        exact absurd hdry' (by simp)
  | @started hashes listing =>
    cases listing with
    | none => trivial
    | some l =>
      obtain ⟨-, rfl, hnd, hmem⟩ := hd
      exact ⟨by rw [List.nil_append, eraseDups_of_nodup hnd], hnd, hmem⟩
  | @rehearsed hashes listing =>
    cases listing with
    | none => trivial
    | some l => exact absurd hd.1 (by simp)
  | @looked todo todo' acc acc' listing hr =>
    cases listing with
    | none => trivial
    | some l =>
      obtain ⟨⟨del, hdel⟩, -⟩ := hd
      exact absurd hdel (by simp)
  | @reported todo acc listing result =>
    cases listing with
    | none => trivial
    | some l =>
      obtain ⟨⟨del, hdel⟩, -⟩ := hd
      exact absurd hdel (by simp)
  | @began taken listing =>
    cases listing with
    | none => trivial
    | some l =>
      obtain ⟨heq, hnd, hmem⟩ := hd
      exact ⟨⟨_, rfl⟩, hnd, [], l.matched, rfl, by simpa using heq, account_zero l, hmem⟩
  | @claimed taken todo hash listing f hf =>
    cases listing with
    | none => trivial
    | some l =>
      obtain ⟨heq, hnd, hmem⟩ := hd
      exact ⟨by rw [List.append_assoc]; exact heq, hnd, hmem⟩
  | @busy taken todo listing e =>
    cases listing with
    | none => trivial
    | some l => exact fun _ => ⟨by simp, by simp⟩
  | @missed hash todo del acc listing hrow =>
    cases listing with
    | none => trivial
    | some l =>
      obtain ⟨-, hnd, past, rest, heq, htodo, hacc, hmem⟩ := hd
      obtain ⟨b, rest, rfl, rfl, rfl⟩ := List.map_eq_cons_iff.mp htodo.symm
      refine ⟨⟨_, rfl⟩, hnd, past ++ [b], rest, by simp [heq], rfl, hacc.missed ?_,
        fun c hc => hmem c (List.mem_cons_of_mem _ hc)⟩
      rw [heq, List.map_append, List.map_cons] at hnd
      exact fun hin => (List.nodup_append.mp hnd).2.2 _ hin _ List.mem_cons_self rfl
  | @removed hash todo del acc listing row hfree hrow =>
    cases listing with
    | none => trivial
    | some l =>
      obtain ⟨-, hnd, past, rest, heq, htodo, hacc, hmem⟩ := hd
      obtain ⟨b, rest, rfl, rfl, rfl⟩ := List.map_eq_cons_iff.mp htodo.symm
      refine ⟨⟨_, rfl⟩, hnd, past ++ [b], rest, by simp [heq], rfl,
        hacc.removed_row ?_ (hmem b List.mem_cons_self row hrow), fun c hc r hr => ?_⟩
      · rw [heq, List.map_append, List.map_cons] at hnd
        exact fun hin => (List.nodup_append.mp hnd).2.2 _ hin _ List.mem_cons_self rfl
      · refine hmem c (List.mem_cons_of_mem _ hc) r ?_
        unfold World.row? at hr ⊢
        rw [row?_removed] at hr
        split at hr
        · exact absurd hr (by simp)
        · exact hr
  | @failed todo del acc listing e =>
    cases listing with
    | none => trivial
    | some l =>
      obtain ⟨-, -, past, rest, -, -, hacc, -⟩ := hd
      exact fun _ => ⟨hacc.own, by simp⟩
  | @deleted del acc listing =>
    cases listing with
    | none => trivial
    | some l =>
      obtain ⟨-, -, past, rest, heq, htodo, hacc, -⟩ := hd
      obtain rfl := List.map_eq_nil_iff.mp htodo.symm
      rw [List.append_nil] at heq
      change Account l l.matched acc
      rw [heq]
      exact hacc
  | @finishing f f' acc listing w' hf =>
    cases listing with
    | none => trivial
    | some l => exact hd
  | @finished f acc listing w' r result hf hr =>
    cases listing with
    | none => trivial
    | some l =>
      have hacc : Account l l.matched acc := hd
      refine fun _ => ⟨hacc.own, fun objects bytes hok => ?_⟩
      rcases hr with rfl | ⟨e, rfl⟩
      · obtain ⟨rfl, rfl⟩ := Response.deletePushedBy.inj (Except.ok.inj hok)
        exact ⟨hacc.removed.symm, hacc.bytes⟩
      · exact absurd hok (by simp)

/-- **A step of `delete_pushed_by` removes no row and logs none, or removes one row the listing
matches and logs it.** -/
theorem step_log {me : ℕ} {w w' : World} {o : Oracle} {d d' : Delete} {l : Listing}
    (h : Stepped me w o d w' d') (hd : d.Tracks w) (hl : d.listing? = some l) :
    (d'.removed = d.removed ∧ w'.db = w.db) ∨
    ∃ hash row, d'.removed = d.removed ++ [(hash, row)] ∧ w.row? hash = some row ∧
      w'.db = w.db.removed hash row.fileSize ∧ row.pushedBy = some l.subject ∧
      ∀ t, l.since = some t → t ≤ row.createdAt := by
  cases h with
  | @removed hash todo del acc listing row hfree hrow =>
    obtain rfl : listing = some l := hl
    obtain ⟨-, -, past, rest, -, htodo, -, hmem⟩ := hd
    obtain ⟨b, rest, rfl, rfl, rfl⟩ := List.map_eq_cons_iff.mp htodo.symm
    have hm := hmem b List.mem_cons_self row hrow
    exact Or.inr ⟨_, row, rfl, hrow, rfl, hm.subject, hm.since⟩
  | looked hr => exact Or.inl ⟨hr, rfl⟩
  | finishing hf =>
    obtain ⟨_, -, hdb, -⟩ := @Finish.step_inl 0 _ _ _ _ _ hf
    exact Or.inl ⟨rfl, hdb⟩
  | finished hf hr =>
    obtain ⟨_, -, hdb, -⟩ := @Finish.step_inr 0 _ _ _ _ _ hf
    exact Or.inl ⟨rfl, hdb⟩
  | _ => exact Or.inl ⟨rfl, rfl⟩

/-- The answer of `delete_pushed_by` is the log. -/
theorem Tracks.answer {w : World} {d : Delete} {l : Listing} (h : d.Tracks w)
    (hl : d.listing? = some l) (hdry : l.dryRun = false) {objects : List String} {bytes : Int}
    (hr : d.response? = some (.deletePushedBy objects bytes)) :
    objects = d.removed.map (fun e => e.1 ++ "-" ++ e.2.name) ∧
      bytes = (d.removed.map fun e => e.2.fileSize).sum := by
  cases d with
  | done result removed listing =>
    obtain rfl : listing = some l := hl
    cases result with
    | error e => exact absurd hr (by simp [response?])
    | ok r =>
      obtain rfl := Option.some.inj hr
      exact (h hdry).2 objects bytes rfl
  | _ => exact absurd hr (by simp [response?])

end Delete

namespace Sys

variable {δ : Type} {env : Env δ} {s s' : Sys} {a : Act}

/-- No upload commits a row for a listed path that is not claimed yet, unless the listing matches
the new row too. -/
def Unreplaced (s : Sys) (a : Act) : Prop :=
  match a.runs.bind s.task? with
  | some (.upload (.insert _ obj at' _)) => ∀ e ∈ s.tasks.entries, match e.2 with
    | .delete d => ∀ x ∈ d.awaits, obj.storePathHash = x.2.storePathHash →
        x.1.Matches x.2 obj.pushedBy at' obj.name
    | _ => True
  | _ => True

instance (e : Sigma fun _ : ℕ => Task) (obj : Object) (at' : Int) : Decidable (match e.2 with
    | .delete d => ∀ x ∈ d.awaits, obj.storePathHash = x.2.storePathHash →
        x.1.Matches x.2 obj.pushedBy at' obj.name
    | _ => True) := by
  split <;> infer_instance

instance (s : Sys) (a : Act) : Decidable (Unreplaced s a) := by
  unfold Unreplaced
  split <;> infer_instance

/-- A path a delete has claimed is not inserted. -/
theorem Inv.not_inserted {j : ℕ} {d : Delete} {obj : Object} {at' : Int} (hi : Inv env s)
    (ht : s.task? j = some (.delete d)) (hc : Causes s a (.inserted obj at'))
    (hheld : (obj.storePathHash, Kind.delete) ∈ d.holds) : False := by
  obtain ⟨i, attached, hti, -⟩ := hi.causes_inserted hc
  have hij : j ≠ i := by
    rintro rfl
    rw [ht] at hti
    exact absurd hti (by simp)
  refine hi.owned.disjoint j i hij _ (by rw [holds_of_task ht]; exact hheld) ?_
  rw [holds_of_task hti]
  exact List.mem_map.mpr ⟨_, List.mem_singleton.mpr rfl, rfl⟩

/-- What an upload commits for an unclaimed listed path is matched. -/
theorem Unreplaced.matched {j : ℕ} {d : Delete} {obj : Object} {at' : Int} (hu : Unreplaced s a)
    (hi : Inv env s) (ht : s.task? j = some (.delete d)) (hc : Causes s a (.inserted obj at'))
    {x : Listing × ObjectBrief} (hx : x ∈ d.awaits)
    (hh : obj.storePathHash = x.2.storePathHash) : x.1.Matches x.2 obj.pushedBy at' obj.name := by
  cases hc with
  | @task i t e ha hti hal =>
    obtain ⟨hash, attached, rfl, -⟩ := hi.inserted hti hal rfl
    have htask : a.runs.bind s.task? = some (.upload (.insert hash obj at' attached)) := by
      rw [ha]
      exact hti
    unfold Unreplaced at hu
    rw [htask] at hu
    exact hu _ (Table.lookup_eq_some_iff.mp ht) x hx hh

/-- **Another action leaves a delete with what it knows.** -/
theorem Tracks.other {j : ℕ} {d : Delete} (hi : Inv env s) (hu : Unreplaced s a)
    (h : s.step env a = some s') (ht : s.task? j = some (.delete d)) (hd : d.Tracks s.world) :
    d.Tracks s'.world := by
  obtain ⟨e, hdo, hc, -⟩ := step_effect hi h
  have hawait : ∀ {l : Listing} {b : ObjectBrief}, (l, b) ∈ d.awaits → l.Holds s.world b →
      l.Holds s'.world b := fun hx hb => hb.step hdo fun obj at' he hh =>
    hu.matched hi ht (he ▸ hc) hx hh
  have hheld : ∀ {l : Listing} {b : ObjectBrief}, (b.storePathHash, Kind.delete) ∈ d.holds →
      l.Holds s.world b → l.Holds s'.world b := fun hx hb => hb.step hdo fun obj at' he hh =>
    absurd (hi.not_inserted ht (he ▸ hc) (hh ▸ hx)) id
  cases d with
  | start hashes dryRun listing =>
    cases listing with
    | none => trivial
    | some l =>
      obtain ⟨rfl, heq, hnd, hmem⟩ := hd
      exact ⟨rfl, heq, hnd, fun b hb => hawait (List.mem_map.mpr ⟨b, hb, rfl⟩) (hmem b hb)⟩
  | claims taken todo listing =>
    cases listing with
    | none => trivial
    | some l =>
      obtain ⟨heq, hnd, hmem⟩ := hd
      refine ⟨heq, hnd, fun b hb => ?_⟩
      have hin : b.storePathHash ∈ taken ++ todo := heq ▸ List.mem_map_of_mem hb
      rcases List.mem_append.mp hin with hin | hin
      · exact hheld (List.mem_map.mpr ⟨_, hin, rfl⟩) (hmem b hb)
      · refine hawait (List.mem_map.mpr ⟨b, List.mem_filter.mpr ⟨hb, ?_⟩, rfl⟩) (hmem b hb)
        exact decide_eq_true hin
  | rows todo del acc listing =>
    cases listing with
    | none => trivial
    | some l =>
      obtain ⟨⟨del, rfl⟩, hnd, past, rest, heq, rfl, hacc, hmem⟩ := hd
      refine ⟨⟨del, rfl⟩, hnd, past, rest, heq, rfl, hacc, fun b hb => hheld ?_ (hmem b hb)⟩
      have hwf : Delete.Wf (.rows (rest.map ObjectBrief.storePathHash) (some del) acc (some l)) :=
        (hi.sound j _ ht).planned
      exact List.mem_map.mpr ⟨_, hwf _ (List.mem_map_of_mem hb), rfl⟩
  | finish f acc listing =>
    cases listing with
    | none => trivial
    | some l => exact hd
  | done result removed listing =>
    cases listing with
    | none => trivial
    | some l => exact hd
  | list subject since dryRun => trivial

/-- Every delete knows what it tracks. -/
def Tracked (s : Sys) : Prop := ∀ i d, s.task? i = some (.delete d) → d.Tracks s.world

theorem tracked_step (hi : Inv env s) (ht : Tracked s) (hu : Unreplaced s a)
    (h : s.step env a = some s') : Tracked s' := by
  intro i d hd
  cases step_cases h with
  | @spawned j t hnone hinit =>
    rw [task?_put] at hd
    split at hd
    · obtain rfl := Option.some.inj hd
      cases d with
      | start hashes dryRun listing =>
        cases listing with
        | none => trivial
        | some l => exact absurd hinit (by simp [Task.initial])
      | list subject since dryRun => trivial
      | _ => exact absurd hinit (by simp [Task.initial])
    · exact Tracks.other hi hu h hd (ht i d hd)
  | @ran a j o t t' w' ha hj hrun =>
    rw [task?_put] at hd
    split at hd
    · obtain rfl := Option.some.inj hd
      cases hrun with
      | delete hrun => exact Delete.step_tracks hrun (ht j _ hj)
    · exact Tracks.other hi hu h hd (ht i d hd)
  | crashed => exact absurd hd (by simp [boot, task?])
  | ticked => exact Tracks.other hi hu h hd (ht i d hd)
  | outside => exact Tracks.other hi hu h hd (ht i d hd)

/-- **Incident deletion removes only the named pusher's objects**, in every run in which no upload
commits an unmatched row for a listed path before it is claimed. Each step of the command removes no
row, or exactly one, which its subject pushed since the cutoff; the answer lists exactly the rows
removed, and the bytes are the sum of their sizes. -/
theorem deletes_own (env : Env δ) (db : Db) (bucket : Table String Bytes) (clock : Int) {s : Sys}
    (h : Reach (step env) Unreplaced (boot db bucket clock) s) {i : ℕ} {d : Delete} {l : Listing}
    (ht : s.task? i = some (.delete d)) (hl : d.listing? = some l) (hdry : l.dryRun = false) :
    (∀ a s' d', a.runs = some i → s.step env a = some s' → s'.task? i = some (.delete d') →
      (d'.removed = d.removed ∧ ∀ k, s'.world.row? k = s.world.row? k) ∨
      ∃ hash row, d'.removed = d.removed ++ [(hash, row)] ∧ s.world.row? hash = some row ∧
        s'.world.row? hash = none ∧ (∀ k, k ≠ hash → s'.world.row? k = s.world.row? k) ∧
        row.pushedBy = some l.subject ∧ ∀ t, l.since = some t → t ≤ row.createdAt) ∧
    ∀ objects bytes, d.response? = some (.deletePushedBy objects bytes) →
      objects = d.removed.map (fun e => e.1 ++ "-" ++ e.2.name) ∧
      bytes = (d.removed.map fun e => e.2.fileSize).sum := by
  obtain ⟨hi, htr⟩ : Inv env s ∧ Tracked s :=
    h.invariant (I := fun s => Inv env s ∧ Tracked s)
      (fun _ _ _ hx hu hs => ⟨inv_step hx.1 hs, tracked_step hx.1 hx.2 hu hs⟩)
      ⟨inv_boot _ _ _, fun _ _ h => absurd h (by simp [boot, task?])⟩
  refine ⟨fun a s' d' ha hs hd' => ?_, fun objects bytes hr => (htr i d ht).answer hl hdry hr⟩
  obtain ⟨o, t', w', hrun, rfl⟩ := step_runs hs ha ht
  rw [task?_put, if_pos rfl] at hd'
  obtain rfl := Option.some.inj hd'
  cases hrun with
  | delete hrun =>
    rcases Delete.step_log hrun (htr i d ht) hl with ⟨hlog, hdb⟩ |
      ⟨hash, row, hlog, hrow, hdb, hsub, hsince⟩
    · refine Or.inl ⟨hlog, fun k => ?_⟩
      unfold World.row?
      rw [show (s.put i (w', Task.delete d')).world.db = s.world.db from hdb]
    · have hrows : ∀ k, (s.put i (w', Task.delete d')).world.row? k =
          if k = hash then none else s.world.row? k := fun k => by
        unfold World.row?
        rw [show (s.put i (w', Task.delete d')).world.db = _ from hdb, row?_removed]
      refine Or.inr ⟨hash, row, hlog, hrow, ?_, fun k hk => ?_, hsub, hsince⟩
      · rw [hrows, if_pos rfl]
      · rw [hrows, if_neg hk]

/-- `delete_pushed_by` for "ci" lists `app`; another admin deletes it and "ci" pushes it again before
it is claimed: the row that goes is the new one, and it is one of "ci" as well. -/
theorem deletes_own_repushed : ∃ s d,
    Reach (step Sample.env) Unreplaced (boot Sample.stored ∅ 1000) s ∧
    s.task? 0 = some (.delete d) ∧
    d.response? = some (.deletePushedBy
      [Sample.hash ++ "-app", Sample.libHash ++ "-lib"] 30) ∧
    d.removed.map (fun e => e.1 ++ "-" ++ e.2.name) =
      [Sample.hash ++ "-app", Sample.libHash ++ "-lib"] ∧
    d.removed.map (fun e => e.2.createdAt) = [1000, 0] := by
  obtain ⟨s, hs, htask⟩ := exec_check (step Sample.env) Unreplaced
    ([.spawn 0 (.delete (.list "ci" none false)), Act.step 0 .calm] ++
      Act.spawn 1 (.delete (.start [Sample.hash] false none)) ::
        List.replicate 7 (Act.step 1 .calm) ++
      Sample.push 2 "ci" ++ List.replicate 9 (Act.step 0 .calm))
    (boot Sample.stored ∅ 1000)
    (fun s => ((s.task? 0).any fun t => match t with
      | .delete d => decide (d.response? = some (.deletePushedBy
          [Sample.hash ++ "-app", Sample.libHash ++ "-lib"] 30)) &&
          decide ((d.listing?.map Listing.dryRun) = some false) &&
          decide (d.removed.map (fun e => e.2.createdAt) = [1000, 0])
      | _ => false) = true)
    (by decide +kernel)
  obtain ⟨t, ht, hd⟩ := (Option.any_eq_true _ _).mp htask
  split at hd
  · rename_i d
    simp only [Bool.and_eq_true, decide_eq_true_eq] at hd
    obtain ⟨⟨hr, hl⟩, hat⟩ := hd
    obtain ⟨l, hl, hdry⟩ := Option.map_eq_some_iff.mp hl
    have hlaw := deletes_own Sample.env Sample.stored ∅ 1000 hs ht hl hdry
    exact ⟨s, d, hs, ht, hr, (hlaw.2 _ _ hr).1.symm, hat⟩
  · exact absurd hd (by simp)

/-- **A replaced row is deleted.** `delete_pushed_by` for "ci" lists `app`; another admin deletes it
and "dev" pushes it again before it is claimed; the command then deletes the row of "dev". -/
theorem replaced_row_deleted : ∃ s d,
    Reach (step Sample.env) (fun _ _ => True) (boot Sample.stored ∅ 1000) s ∧
    s.task? 0 = some (.delete d) ∧ (d.listing?.map Listing.subject) = some "ci" ∧
    ∃ e ∈ d.removed, e.1 = Sample.hash ∧ e.2.pushedBy = some "dev" := by
  obtain ⟨s, hs, htask⟩ := exec_check (step Sample.env) (fun _ _ => True)
    ([.spawn 0 (.delete (.list "ci" none false)), Act.step 0 .calm] ++
      Act.spawn 1 (.delete (.start [Sample.hash] false none)) ::
        List.replicate 7 (Act.step 1 .calm) ++
      Sample.push 2 "dev" ++ List.replicate 5 (Act.step 0 .calm))
    (boot Sample.stored ∅ 1000)
    (fun s => ((s.task? 0).any fun t => match t with
      | .delete d => decide ((d.listing?.map Listing.subject) = some "ci") &&
          d.removed.any fun e => decide (e.1 = Sample.hash ∧ e.2.pushedBy = some "dev")
      | _ => false) = true)
    (by decide +kernel)
  obtain ⟨t, ht, hd⟩ := (Option.any_eq_true _ _).mp htask
  split at hd
  · rename_i d
    simp only [Bool.and_eq_true, decide_eq_true_eq, List.any_eq_true] at hd
    obtain ⟨hl, e, he, hhash, hdev⟩ := hd
    exact ⟨s, d, hs, ht, hl, e, he, hhash, hdev⟩
  · exact absurd hd (by simp)

end Sys

end Garret
