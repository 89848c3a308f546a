import Garret.Client.Watcher

/-!
# The watcher never loses a path

`Watcher` over whole runs: `run` and `drain` in any order, killed anywhere, with any answers.

* `Covers w s upto P`: the rows after the first cursor and up to `upto` that are worth pushing are
  settled, or have a path of which `P` holds.
* `Holds`: what a process at each of its points still has in memory, and `Inv`, which adds what the
  files have. `kept_evolves`, `holds_answer` and `kept_proceed` keep it.
* `watcher_never_loses`: the persisted cursor passes only what is settled or on the persisted list.
-/

namespace Garret.Watch

open Garret.Lib Garret.Client

/-- The rows the watcher answers for, up to an id. -/
def Watcher.Covers (w : Watcher) (s : State) (upto : Int) (P : String → Prop) : Prop :=
  ∀ r ∈ s.db.rows, (∃ first, s.first = some first ∧ first < r.id) → r.id ≤ upto →
    w.filters.shouldSkip r = none → (r.id ∈ s.acked ∨ r.id ∈ s.gone) ∨ P r.path

/-- The persisted cursor is at most this one. -/
def State.AtMost (s : State) (cursor : Int) : Prop :=
  cursor ≤ s.db.seq ∧ ∀ c, s.cursor = some c → c ≤ cursor

/-- What holds of the process and the files, point by point. -/
def Watcher.Holds (w : Watcher) (s : State) : Daemon → Prop
  | .idle | .runStart _ | .drainStart _ | .drainRead _ _ => True
  | .runWrite cursor | .drainLoad _ cursor =>
    cursor ≤ s.db.seq ∧ ∀ c, s.cursor = some c → c = cursor
  | .runLoad cursor => s.cursor = some cursor
  | .poll cursor failed | .retrySave cursor failed =>
    s.cursor = some cursor ∧ w.Covers s cursor (· ∈ failed.paths)
  | .batch newest failed push =>
    s.AtMost newest ∧ w.Covers s newest fun p => p ∈ failed.paths ∨ p ∈ push.holds
  | .batchSave newest failed | .drainSave newest failed =>
    s.AtMost newest ∧ w.Covers s newest (· ∈ failed.paths)
  | .batchWrite newest failed =>
    s.AtMost newest ∧ w.Covers s newest (· ∈ failed.paths) ∧
      w.Covers s newest (· ∈ (FailedList.load s.failed).paths)
  | .retry cursor failed chunk _ push =>
    s.cursor = some cursor ∧
      w.Covers s cursor fun p => p ∈ failed.paths ∧ (p ∈ chunk → p ∈ push.holds)
  | .drainScan _ cursor failed todo =>
    s.AtMost cursor ∧ w.Covers s cursor (· ∈ todo) ∧ ∀ p ∈ failed.paths, p ∈ todo
  | .drain cursor failed chunk rest push =>
    s.AtMost cursor ∧ w.Covers s cursor fun p =>
      (p ∈ chunk ∧ p ∈ push.holds) ∨ p ∈ rest.flatten ∨ (p ∉ chunk ∧ p ∈ failed.paths)
  | .drainWrite cursor _ =>
    s.AtMost cursor ∧ w.Covers s cursor (· ∈ (FailedList.load s.failed).paths)

/-- What holds in every state. -/
structure Watcher.Inv (w : Watcher) (s : State) : Prop where
  safe : ∀ c, s.cursor = some c → w.Covers s c (· ∈ (FailedList.load s.failed).paths)
  daemon : w.Holds s s.daemon
  seq : ∀ c, s.cursor = some c → c ≤ s.db.seq
  first : ∀ c, s.cursor = some c → ∃ first, s.first = some first ∧ first ≤ c
  fresh : s.cursor = none → s.first = none

/-- A step keeps the invariant, the persisted cursor does not go back, and the first one stays. -/
structure Watcher.Kept (w : Watcher) (s s' : State) : Prop where
  inv : w.Inv s'
  cursor : ∀ c, s.cursor = some c → ∃ c', s'.cursor = some c' ∧ c ≤ c'
  first : s.cursor ≠ none → s'.first = s.first

variable {w : Watcher} {s s' : State}

namespace Watcher

theorem Kept.trans {t : State} (h : w.Kept s s') (h' : w.Kept s' t) : w.Kept s t where
  inv := h'.inv
  cursor c hc := by
    obtain ⟨c', hc', hle⟩ := h.cursor c hc
    obtain ⟨c'', hc'', hle'⟩ := h'.cursor c' hc'
    exact ⟨c'', hc'', hle.trans hle'⟩
  first hc := by
    obtain ⟨c, hc'⟩ := Option.ne_none_iff_exists'.mp hc
    obtain ⟨c', hcur, -⟩ := h.cursor c hc'
    exact (h'.first (by simp [hcur])).trans (h.first hc)

/-- With the cursor as it was, only the invariant is to be shown. -/
theorem Inv.kept (h : w.Inv s') (hcur : s'.cursor = s.cursor) (hfirst : s'.first = s.first) :
    w.Kept s s' where
  inv := h
  cursor c hc := ⟨c, hcur.trans hc, Int.le_refl c⟩
  first _ := hfirst

theorem Covers.mono {upto upto' : Int} {P P' : String → Prop} (h : w.Covers s upto P)
    (hle : upto' ≤ upto) (hP : ∀ p, P p → P' p) : w.Covers s upto' P' :=
  fun r hr hfirst hid hskip => (h r hr hfirst (hid.trans hle) hskip).imp_right (hP _)

/-- What a saved list covers, the file covers. -/
theorem Covers.saved {upto : Int} {failed : FailedList} (h : w.Covers s upto (· ∈ failed.paths)) :
    w.Covers s upto (· ∈ (FailedList.load failed.save).paths) :=
  fun r hr hfirst hid hskip =>
    (h r hr hfirst hid hskip).imp_right fun hp => FailedList.mem_load_save r.plain hp

/-- Before the first cursor is recorded there is nothing to answer for. -/
theorem covers_of_fresh {upto : Int} {P : String → Prop} (h : s.first = none) :
    w.Covers s upto P := by
  rintro r - ⟨first, hfirst, -⟩
  rw [h] at hfirst
  exact absurd hfirst (by simp)

/-! ## What happens outside the process -/

/-- The database goes on, and rows are settled. -/
structure Evolves (w : Watcher) (s s' : State) : Prop where
  rows : ∀ r' ∈ s'.db.rows, r'.id ≤ s.db.seq → w.filters.shouldSkip r' = none →
    ∃ r ∈ s.db.rows, r.id = r'.id ∧ r.path = r'.path ∧ w.filters.shouldSkip r = none
  seq : s.db.seq ≤ s'.db.seq
  cursor : s'.cursor = s.cursor
  failed : s'.failed = s.failed
  daemon : s'.daemon = s.daemon
  first : s'.first = s.first
  acked : ∀ id ∈ s.acked, id ∈ s'.acked
  gone : ∀ id ∈ s.gone, id ∈ s'.gone

theorem Evolves.covers (h : Evolves w s s') {upto : Int} {P : String → Prop}
    (hle : upto ≤ s.db.seq) (hc : w.Covers s upto P) : w.Covers s' upto P := by
  intro r' hr' hfirst hid hskip
  obtain ⟨r, hr, hrid, hpath, hskip⟩ := h.rows r' hr' (hid.trans hle) hskip
  rw [h.first, ← hrid] at hfirst
  rw [← hrid, ← hpath]
  exact (hc r hr hfirst (hrid ▸ hid) hskip).imp_left (Or.imp (h.acked _) (h.gone _))

theorem Evolves.atMost (h : Evolves w s s') {cursor : Int} (hc : s.AtMost cursor) :
    s'.AtMost cursor :=
  ⟨hc.1.trans h.seq, fun c hcur => hc.2 c (h.cursor ▸ hcur)⟩

theorem Evolves.holds (h : Evolves w s s') (hseq : ∀ c, s.cursor = some c → c ≤ s.db.seq)
    {d : Daemon} (hd : w.Holds s d) : w.Holds s' d := by
  cases d with
  | idle | runStart fullSync | drainStart fullSync | drainRead target fullSync => trivial
  | runWrite cursor => exact ⟨hd.1.trans h.seq, h.cursor ▸ hd.2⟩
  | drainLoad target cursor => exact ⟨hd.1.trans h.seq, h.cursor ▸ hd.2⟩
  | runLoad cursor => exact h.cursor.trans hd
  | poll cursor failed => exact ⟨h.cursor.trans hd.1, h.covers (hseq _ hd.1) hd.2⟩
  | retrySave cursor failed => exact ⟨h.cursor.trans hd.1, h.covers (hseq _ hd.1) hd.2⟩
  | retry cursor failed chunk rest push =>
    exact ⟨h.cursor.trans hd.1, h.covers (hseq _ hd.1) hd.2⟩
  | batch newest failed push => exact ⟨h.atMost hd.1, h.covers hd.1.1 hd.2⟩
  | batchSave newest failed => exact ⟨h.atMost hd.1, h.covers hd.1.1 hd.2⟩
  | drainSave newest failed => exact ⟨h.atMost hd.1, h.covers hd.1.1 hd.2⟩
  | drain cursor failed chunk rest push => exact ⟨h.atMost hd.1, h.covers hd.1.1 hd.2⟩
  | batchWrite newest failed =>
    refine ⟨h.atMost hd.1, h.covers hd.1.1 hd.2.1, ?_⟩
    rw [h.failed]
    exact h.covers hd.1.1 hd.2.2
  | drainScan target cursor failed todo =>
    exact ⟨h.atMost hd.1, h.covers hd.1.1 hd.2.1, hd.2.2⟩
  | drainWrite cursor failed =>
    refine ⟨h.atMost hd.1, ?_⟩
    rw [h.failed]
    exact h.covers hd.1.1 hd.2

theorem inv_evolves (h : w.Inv s) (he : Evolves w s s') : w.Inv s' where
  safe c hc := by
    rw [he.cursor] at hc
    rw [he.failed]
    exact he.covers (h.seq c hc) (h.safe c hc)
  daemon := by
    rw [he.daemon]
    exact he.holds h.seq h.daemon
  seq c hc := (h.seq c (he.cursor ▸ hc)).trans he.seq
  first c hc := by
    rw [he.first]
    exact h.first c (he.cursor ▸ hc)
  fresh hc := by
    rw [he.first]
    exact h.fresh (he.cursor ▸ hc)

/-- **What happens outside keeps the invariant.** -/
theorem kept_evolves (h : w.Inv s) (he : Evolves w s s') : w.Kept s s' :=
  (inv_evolves h he).kept he.cursor he.first

theorem evolves_valid {r : ValidPath} (h : s.db.seq < r.id) :
    Evolves w s { s with db := s.db.insert r h } where
  rows r' hr' hid hskip := by
    rcases List.mem_append.mp hr' with hr' | hr'
    · exact ⟨r', hr', rfl, rfl, hskip⟩
    · rw [List.mem_singleton.mp hr'] at hid
      exact absurd h (Int.not_lt.mpr hid)
  seq := h.le
  cursor := rfl
  failed := rfl
  daemon := rfl
  first := rfl
  acked _ := id
  gone _ := id

theorem evolves_collect (i : Int) : Evolves w s { s with db := s.db.delete i } where
  rows r' hr' _ hskip := ⟨r', List.mem_of_mem_filter hr', rfl, rfl, hskip⟩
  seq := Int.le_refl _
  cursor := rfl
  failed := rfl
  daemon := rfl
  first := rfl
  acked _ := id
  gone _ := id

theorem evolves_sign (i : Int) (sigs : List String) :
    Evolves w s { s with db := s.db.sign i sigs } where
  rows r' hr' _ hskip := by
    obtain ⟨r, hr, rfl⟩ := List.mem_map.mp hr'
    exact ⟨r, hr, (ValidPath.sign_id i sigs r).symm, (ValidPath.sign_path i sigs r).symm,
      Filters.shouldSkip_of_sign hskip⟩
  seq := Int.le_refl _
  cursor := rfl
  failed := rfl
  daemon := rfl
  first := rfl
  acked _ := id
  gone _ := id

theorem evolves_settle (e : Settled) : Evolves w s (s.settle e) where
  rows r' hr' _ hskip := ⟨r', hr', rfl, rfl, hskip⟩
  seq := Int.le_refl _
  cursor := rfl
  failed := rfl
  daemon := rfl
  first := rfl
  acked _ := List.mem_append_left _
  gone _ := List.mem_append_left _

/-! ## Answers -/

/-- What an answer settles no longer needs to be held. -/
theorem Covers.settle {upto : Int} {P P' : String → Prop} {e : Settled} (h : w.Covers s upto P)
    (hP : ∀ p, P p → P' p ∨ p ∈ e.acked ∨ p ∈ e.gone) : w.Covers (s.settle e) upto P' := by
  intro r hr hfirst hid hskip
  have hids : ∀ paths, r.path ∈ paths → r.id ∈ s.ids paths := fun paths hp =>
    List.mem_map_of_mem (List.mem_filter.mpr ⟨hr, decide_eq_true hp⟩)
  rcases h r hr hfirst hid hskip with hmarked | hp
  · exact Or.inl (hmarked.imp (List.mem_append_left _) (List.mem_append_left _))
  · rcases hP _ hp with hp' | hack | hgone
    · exact Or.inr hp'
    · exact Or.inl (Or.inl (List.mem_append_right _ (hids _ hack)))
    · exact Or.inl (Or.inr (List.mem_append_right _ (hids _ hgone)))

theorem holds_answer {d : Daemon} {push push' : Push} {a : Answer} {e : Settled}
    (hpush : d.push? = some push) (ha : push.answer a = some (push', e)) (h : w.Holds s d) :
    w.Holds (s.settle e) (d.setPush push') := by
  have hkeep := fun p => Push.answer_holds (p := p) ha
  cases d with
  | batch newest failed old =>
    obtain rfl := Option.some.inj hpush
    refine ⟨h.1, h.2.settle fun p hp => ?_⟩
    rcases hp with hp | hp
    · exact Or.inl (Or.inl hp)
    · exact (hkeep p hp).imp_left Or.inr
  | retry cursor failed chunk rest old =>
    obtain rfl := Option.some.inj hpush
    refine ⟨h.1, h.2.settle fun p hp => ?_⟩
    by_cases hc : p ∈ chunk
    · exact (hkeep p (hp.2 hc)).imp_left fun hp' => ⟨hp.1, fun _ => hp'⟩
    · exact Or.inl ⟨hp.1, fun hc' => absurd hc' hc⟩
  | drain cursor failed chunk rest old =>
    obtain rfl := Option.some.inj hpush
    refine ⟨h.1, h.2.settle fun p hp => ?_⟩
    rcases hp with ⟨hc, hp⟩ | hp
    · exact (hkeep p hp).imp_left fun hp' => Or.inl ⟨hc, hp'⟩
    · exact Or.inl (Or.inr hp)
  | _ => exact absurd hpush (by simp [Daemon.push?])

/-! ## What the process does -/

/-- The process goes on as `d`; nothing else changes. -/
theorem kept_goTo (h : w.Inv s) {d : Daemon} (hd : w.Holds s d) : w.Kept s (s.goTo d) := by
  have hinv : w.Inv (s.goTo d) :=
    ⟨h.safe, by cases d <;> exact hd, h.seq, h.first, h.fresh⟩
  exact hinv.kept rfl rfl

/-- The list is saved. -/
theorem kept_save (h : w.Inv s) {cursor : Int} {failed : FailedList} (hat : s.AtMost cursor)
    (hc : w.Covers s cursor (· ∈ failed.paths)) {d : Daemon}
    (hd : w.Holds { s with failed := failed.save } d) :
    w.Kept s ({ s with failed := failed.save }.goTo d) := by
  have hinv : w.Inv ({ s with failed := failed.save }.goTo d) :=
    ⟨fun c hcur => hc.saved.mono (hat.2 c hcur) fun _ => id, by cases d <;> exact hd, h.seq,
      h.first, h.fresh⟩
  exact hinv.kept rfl rfl

/-- With the cursor written, there is as little to answer for as before. -/
theorem covers_write {cursor : Int} {P : String → Prop} (hc : w.Covers s cursor P) :
    w.Covers (s.writeCursor cursor) cursor P := by
  rintro r hr ⟨first, hfirst, hlt⟩ hid hskip
  cases hs : s.first with
  | some f =>
    simp only [State.writeCursor, hs] at hfirst
    exact hc r hr ⟨first, hs.trans hfirst, hlt⟩ hid hskip
  | none =>
    -- this is the first cursor: no row is past it
    simp only [State.writeCursor, hs] at hfirst
    obtain rfl := Option.some.inj hfirst
    exact absurd hlt (Int.not_lt.mpr hid)

theorem inv_write (h : w.Inv s) {cursor : Int} (hat : s.AtMost cursor)
    (hc : w.Covers s cursor (· ∈ (FailedList.load s.failed).paths)) {d : Daemon}
    (hd : w.Holds (s.writeCursor cursor) d) : w.Inv ((s.writeCursor cursor).goTo d) where
  safe c hcur := by
    obtain rfl := Option.some.inj hcur
    exact covers_write hc
  daemon := by
    cases d <;> exact hd
  seq c hcur := by
    obtain rfl := Option.some.inj hcur
    exact hat.1
  first c hcur := by
    obtain rfl := Option.some.inj hcur
    cases hs : s.cursor with
    | none =>
      exact ⟨cursor, by simp [State.goTo, State.writeCursor, h.fresh hs], Int.le_refl _⟩
    | some c =>
      obtain ⟨first, hfirst, hle⟩ := h.first c hs
      exact ⟨first, by simp [State.goTo, State.writeCursor, hfirst], hle.trans (hat.2 c hs)⟩
  fresh hcur := absurd hcur (by simp [State.goTo, State.writeCursor])

/-- The cursor is written. -/
theorem kept_write (h : w.Inv s) {cursor : Int} (hat : s.AtMost cursor)
    (hc : w.Covers s cursor (· ∈ (FailedList.load s.failed).paths)) {d : Daemon}
    (hd : w.Holds (s.writeCursor cursor) d) : w.Kept s ((s.writeCursor cursor).goTo d) where
  inv := inv_write h hat hc hd
  cursor c hcur := ⟨cursor, rfl, hat.2 c hcur⟩
  first hcur := by
    obtain ⟨c, hc⟩ := Option.ne_none_iff_exists'.mp hcur
    obtain ⟨first, hfirst, -⟩ := h.first c hc
    simp [State.goTo, State.writeCursor, hfirst]

theorem holds_retryNext {cursor : Int} {failed : FailedList} (hcur : s.cursor = some cursor)
    (hc : w.Covers s cursor (· ∈ failed.paths)) (rest : List (List String)) :
    w.Holds s (.retryNext cursor failed rest) := by
  cases rest with
  | nil => exact ⟨hcur, hc⟩
  | cons chunk rest =>
    exact ⟨hcur, hc.mono (Int.le_refl _) fun p hp => ⟨hp, Push.mem_start⟩⟩

theorem holds_drainNext {cursor : Int} {failed : FailedList} {rest : List (List String)}
    (hat : s.AtMost cursor)
    (hc : w.Covers s cursor fun p => p ∈ rest.flatten ∨ p ∈ failed.paths) :
    w.Holds s (.drainNext cursor failed rest) := by
  cases rest with
  | nil => exact ⟨hat, hc.mono (Int.le_refl _) fun p hp => hp.resolve_left (by simp)⟩
  | cons chunk rest =>
    refine ⟨hat, hc.mono (Int.le_refl _) fun p hp => ?_⟩
    by_cases hch : p ∈ chunk
    · exact Or.inl ⟨hch, Push.mem_start hch⟩
    · rw [List.flatten_cons, List.mem_append] at hp
      rcases hp with (hp | hp) | hp
      · exact absurd hp hch
      · exact Or.inr (Or.inl hp)
      · exact Or.inr (Or.inr ⟨hch, hp⟩)

/-- A batch covers its rows. -/
theorem covers_batch {cursor : Int} {P : String → Prop} {newest : ValidPath}
    (hc : w.Covers s cursor P) (hnewest : newest ∈ s.db.pathsAfter cursor batchSize)
    {P' : String → Prop} (hP : ∀ p, P p → P' p)
    (hbatch : ∀ r ∈ s.db.pathsAfter cursor batchSize, r.id ≤ newest.id →
      w.filters.shouldSkip r = none → P' r.path) : w.Covers s newest.id P' := by
  intro r hr hfirst hid hskip
  by_cases hle : r.id ≤ cursor
  · exact (hc r hr hfirst hle hskip).imp_right (hP _)
  · have hmem := NixDb.mem_pathsAfter_of_le hnewest hr (Int.not_le.mp hle) hid
    exact Or.inr (hbatch r hmem hid hskip)

theorem atMost_newest {cursor : Int} {newest : ValidPath} (h : ∀ c, s.cursor = some c → c ≤ cursor)
    (hnewest : newest ∈ s.db.pathsAfter cursor batchSize) : s.AtMost newest.id := by
  obtain ⟨hmem, hlt⟩ := NixDb.mem_pathsAfter hnewest
  exact ⟨s.db.issued newest hmem, fun c hc => (h c hc).trans hlt.le⟩

/-- A cursor that was read, or chosen before anything was pushed, is covered. -/
theorem covers_read (h : w.Inv s) {cursor : Int} (hcur : ∀ c, s.cursor = some c → c = cursor) :
    w.Covers s cursor (· ∈ (FailedList.load s.failed).paths) := by
  cases hc : s.cursor with
  | none => exact covers_of_fresh (h.fresh hc)
  | some c => exact hcur c hc ▸ h.safe c hc

/-- A batch of a drain: a row of it is pushed, unless its path is on the list already. -/
theorem covers_drained {cursor target : Int} {failed todo : List String} {newest : ValidPath}
    (hc : w.Covers s cursor (· ∈ todo)) (hsub : ∀ p ∈ failed, p ∈ todo)
    (hmem : newest ∈ s.db.pathsAfter cursor batchSize) (htarget : newest.id ≤ target) :
    w.Covers s newest.id (· ∈ todo ++ (w.filters.select ((s.db.pathsAfter cursor batchSize).filter
      fun r => decide (r.id ≤ target))).filter fun p => decide (p ∉ failed)) := by
  refine covers_batch hc hmem (fun p => List.mem_append_left _) fun r hr hid hskip => ?_
  by_cases hlist : r.path ∈ failed
  · exact List.mem_append_left _ (hsub _ hlist)
  · have hr' : r ∈ (s.db.pathsAfter cursor batchSize).filter fun r => decide (r.id ≤ target) :=
      List.mem_filter.mpr ⟨hr, decide_eq_true (hid.trans htarget)⟩
    exact List.mem_append_right _
      (List.mem_filter.mpr ⟨Filters.mem_select hr' hskip, decide_eq_true hlist⟩)

/-- **What the process does by itself keeps the invariant.** -/
theorem kept_proceed (h : w.Inv s) (hs : w.proceed s = some s') : w.Kept s s' := by
  have hd := h.daemon
  unfold proceed at hs
  split at hs
  · exact absurd hs (by simp)
  · rename_i fullSync hdaemon
    split at hs
    · rename_i cursor hcur
      obtain rfl := Option.some.inj hs
      refine kept_goTo h ⟨h.seq cursor hcur, fun c hc => ?_⟩
      exact Option.some.inj (hc.symm.trans hcur)
    · rename_i hcur
      obtain rfl := Option.some.inj hs
      refine kept_goTo h ⟨?_, fun c hc => absurd (hc.symm.trans hcur) (by simp)⟩
      split
      · exact s.db.seq_nonneg
      · exact s.db.maxId_le
  · rename_i cursor hdaemon
    rw [hdaemon] at hd
    obtain rfl := Option.some.inj hs
    exact kept_write h ⟨hd.1, fun c hc => (hd.2 c hc).le⟩ (covers_read h hd.2) rfl
  · rename_i cursor hdaemon
    rw [hdaemon] at hd
    obtain rfl := Option.some.inj hs
    exact kept_goTo h ⟨hd, h.safe cursor hd⟩
  · rename_i cursor failed hdaemon
    rw [hdaemon] at hd
    obtain ⟨hcur, hc⟩ := hd
    simp only at hs
    split at hs
    · obtain rfl := Option.some.inj hs
      refine kept_goTo h ?_
      simp only [Daemon.retryStart]
      split
      · exact ⟨hcur, hc⟩
      · exact holds_retryNext hcur hc _
    · rename_i newest hlast
      obtain rfl := Option.some.inj hs
      have hmem := List.mem_of_getLast? hlast
      refine kept_goTo h ⟨atMost_newest (fun c hc => ?_) hmem, covers_batch hc hmem
        (fun p => Or.inl) fun r hr _ hskip => Or.inr (Push.mem_start (Filters.mem_select hr hskip))⟩
      exact (Option.some.inj (hc.symm.trans hcur)).le
  · rename_i newest failed paths hdaemon
    rw [hdaemon] at hd
    obtain rfl := Option.some.inj hs
    exact kept_goTo h ⟨hd.1, hd.2.mono (Int.le_refl _) fun p => FailedList.mem_recordFailures.mpr⟩
  · exact absurd hs (by simp)
  · rename_i newest failed hdaemon
    rw [hdaemon] at hd
    obtain rfl := Option.some.inj hs
    exact kept_save h hd.1 hd.2 ⟨hd.1, hd.2, hd.2.saved⟩
  · rename_i newest failed hdaemon
    rw [hdaemon] at hd
    obtain rfl := Option.some.inj hs
    exact kept_write h hd.1 hd.2.2 ⟨rfl, covers_write hd.2.1⟩
  · rename_i cursor failed chunk rest paths hdaemon
    rw [hdaemon] at hd
    obtain rfl := Option.some.inj hs
    refine kept_goTo h (holds_retryNext hd.1 (hd.2.mono (Int.le_refl _) fun p hp => ?_) rest)
    by_cases hch : p ∈ chunk
    · exact FailedList.mem_apply.mpr (Or.inl ⟨hch, hp.2 hch⟩)
    · exact FailedList.mem_apply.mpr (Or.inr ⟨hch, hp.1⟩)
  · exact absurd hs (by simp)
  · rename_i cursor failed hdaemon
    rw [hdaemon] at hd
    obtain rfl := Option.some.inj hs
    have hat : s.AtMost cursor :=
      ⟨h.seq cursor hd.1, fun c hc => (Option.some.inj (hc.symm.trans hd.1)).le⟩
    exact kept_save h hat hd.2 ⟨hd.1, hd.2⟩
  · obtain rfl := Option.some.inj hs
    exact kept_goTo h trivial
  · rename_i target fullSync hdaemon
    split at hs
    · rename_i cursor hcur
      obtain rfl := Option.some.inj hs
      refine kept_goTo h ⟨h.seq cursor hcur, fun c hc => ?_⟩
      exact Option.some.inj (hc.symm.trans hcur)
    · rename_i hcur
      split at hs
      · obtain rfl := Option.some.inj hs
        exact kept_goTo h ⟨s.db.seq_nonneg, fun c hc => absurd (hc.symm.trans hcur) (by simp)⟩
      · obtain rfl := Option.some.inj hs
        exact kept_goTo h trivial
  · rename_i target cursor hdaemon
    rw [hdaemon] at hd
    obtain rfl := Option.some.inj hs
    exact kept_goTo h ⟨⟨hd.1, fun c hc => (hd.2 c hc).le⟩, covers_read h hd.2, fun p => id⟩
  · rename_i target cursor failed todo hdaemon
    rw [hdaemon] at hd
    obtain ⟨hat, hc, hsub⟩ := hd
    simp only at hs
    split at hs
    · obtain rfl := Option.some.inj hs
      refine kept_goTo h (holds_drainNext hat (hc.mono (Int.le_refl _) fun p hp => Or.inl ?_))
      rwa [flatten_chunks (by decide)]
    · rename_i newest hlast
      obtain rfl := Option.some.inj hs
      have hlast' : ((s.db.pathsAfter cursor batchSize).filter fun r =>
          decide (r.id ≤ target)).getLast? = some newest := by
        split at hlast
        · exact hlast
        · exact absurd hlast (by simp)
      obtain ⟨hmem, htarget⟩ := List.mem_filter.mp (List.mem_of_getLast? hlast')
      exact kept_goTo h ⟨atMost_newest hat.2 hmem,
        covers_drained hc hsub hmem (of_decide_eq_true htarget),
        fun p hp => List.mem_append_left _ (hsub p hp)⟩
  · rename_i cursor failed chunk rest paths hdaemon
    rw [hdaemon] at hd
    obtain rfl := Option.some.inj hs
    refine kept_goTo h (holds_drainNext hd.1 (hd.2.mono (Int.le_refl _) fun p hp => ?_))
    rcases hp with hp | hp | hp
    · exact Or.inr (FailedList.mem_apply.mpr (Or.inl hp))
    · exact Or.inl hp
    · exact Or.inr (FailedList.mem_apply.mpr (Or.inr hp))
  · exact absurd hs (by simp)
  · rename_i cursor failed hdaemon
    rw [hdaemon] at hd
    obtain rfl := Option.some.inj hs
    exact kept_save h hd.1 hd.2 ⟨hd.1, hd.2.saved⟩
  · rename_i cursor failed hdaemon
    rw [hdaemon] at hd
    obtain rfl := Option.some.inj hs
    exact kept_write h hd.1 hd.2 trivial

/-- One step. -/
theorem kept_step {a : Act} (h : w.Inv s) (hs : w.step s a = some s') : w.Kept s s' := by
  cases a with
  | valid r =>
    simp only [step] at hs
    split at hs
    · rename_i hlt
      obtain rfl := Option.some.inj hs
      exact kept_evolves h (evolves_valid hlt)
    · exact absurd hs (by simp)
  | collect id =>
    obtain rfl := Option.some.inj hs
    exact kept_evolves h (evolves_collect id)
  | sign id sigs =>
    obtain rfl := Option.some.inj hs
    exact kept_evolves h (evolves_sign id sigs)
  | run fullSync =>
    simp only [step] at hs
    split at hs
    · obtain rfl := Option.some.inj hs
      exact kept_goTo h trivial
    · exact absurd hs (by simp)
  | drain fullSync =>
    simp only [step] at hs
    split at hs
    · obtain rfl := Option.some.inj hs
      exact kept_goTo h trivial
    · exact absurd hs (by simp)
  | kill =>
    obtain rfl := Option.some.inj hs
    exact kept_goTo h trivial
  | proceed => exact kept_proceed h hs
  | answer a =>
    simp only [step] at hs
    split at hs
    · exact absurd hs (by simp)
    · rename_i push hpush
      obtain ⟨⟨push', e⟩, ha, rfl⟩ := Option.map_eq_some_iff.mp hs
      have hsettle := kept_evolves h (evolves_settle (s := s) e)
      exact hsettle.trans (kept_goTo hsettle.inv (holds_answer hpush ha h.daemon))

theorem inv_init (db : NixDb) (failed : Option String) : w.Inv (State.init db failed) where
  safe _ hc := absurd hc (by simp [State.init])
  daemon := trivial
  seq _ hc := absurd hc (by simp [State.init])
  first _ hc := absurd hc (by simp [State.init])
  fresh _ := rfl

theorem inv_reach {db : NixDb} {failed : Option String}
    (h : Reach w.step (fun _ _ => True) (State.init db failed) s) : w.Inv s :=
  h.invariant (fun _ _ _ hi _ hs => (kept_step hi hs).inv) (inv_init db failed)

end Watcher

/-- **The watcher never loses a path.** In every state any runs and drains lead to, killed anywhere
and with any answers: a row past the first recorded cursor and not past the persisted one, whose
path passes the filters, is acknowledged, was found gone, or has its path on the persisted failed
list. From there on the cursor never decreases, and the first one stays the first one. -/
theorem watcher_never_loses (w : Watcher) (db : NixDb) (failed : Option String) (s : State)
    (h : Reach w.step (fun _ _ => True) (State.init db failed) s) (cursor : Int)
    (hcursor : s.cursor = some cursor) :
    ∃ first, s.first = some first ∧ first ≤ cursor ∧
      (∀ r ∈ s.db.rows, first < r.id → r.id ≤ cursor → w.filters.shouldSkip r = none →
        r.id ∈ s.acked ∨ r.id ∈ s.gone ∨ r.path ∈ (FailedList.load s.failed).paths) ∧
      ∀ s', Reach w.step (fun _ _ => True) s s' →
        s'.first = some first ∧ ∃ cursor', s'.cursor = some cursor' ∧ cursor ≤ cursor' := by
  have hinv := Watcher.inv_reach h
  obtain ⟨first, hfirst, hle⟩ := hinv.first cursor hcursor
  refine ⟨first, hfirst, hle, fun r hr hlt hid hskip => ?_, fun s' h' => ?_⟩
  · exact or_assoc.mp (hinv.safe cursor hcursor r hr ⟨first, hfirst, hlt⟩ hid hskip)
  · have hrun : w.Inv s' ∧ s'.first = some first ∧ ∃ c, s'.cursor = some c ∧ cursor ≤ c := by
      refine Reach.invariant
        (I := fun t => w.Inv t ∧ t.first = some first ∧ ∃ c, t.cursor = some c ∧ cursor ≤ c)
        (fun t a t' ht _ hs => ?_) h' ⟨hinv, hfirst, cursor, hcursor, Int.le_refl _⟩
      obtain ⟨hi, hf, c, hc, hcc⟩ := ht
      have hkept := Watcher.kept_step hi hs
      obtain ⟨c', hc', hcc'⟩ := hkept.cursor c hc
      exact ⟨hkept.inv, (hkept.first (by simp [hc])).trans hf, c', hc', hcc.trans hcc'⟩
    exact hrun.2

namespace Sample

/-- A store path. -/
def path : String := "/nix/store/0c2p4vnz6bkq1x8y3h5r7d9f0g2j4l6m-app"

def row : ValidPath := ⟨1, path, [], by decide⟩

/-- Nothing is valid yet. -/
def db : NixDb := ⟨[], 0, List.Pairwise.nil, by simp, Int.le_refl 0⟩

def watcher : Watcher := ⟨⟨["cache.nixos.org-1"], ["-secret"], []⟩, 3⟩

/-- A path becomes valid, its upload fails, and the process is killed once the cursor is past it. -/
def failedUpload : List Act :=
  [.run false, .proceed, .proceed, .proceed, .valid row, .proceed,
    .answer (.described [⟨path, 1, [], []⟩]), .answer (.negotiated [hashOfStorePath path]),
    .answer (.uploaded 0 (.failed (.other "refused"))), .proceed, .proceed, .proceed, .kill]

end Sample

/-- After a failed upload and a kill, the cursor is past the path, and the path is on the list. -/
theorem watcher_never_loses_failed :
    ∃ s, Reach Sample.watcher.step (fun _ _ => True) (State.init Sample.db none) s ∧
      (s.cursor = some 1 ∧ Sample.row ∈ s.db.rows ∧ s.acked = [] ∧ s.gone = []) ∧
      ∃ first, s.first = some first ∧ first ≤ 1 ∧
        (∀ r ∈ s.db.rows, first < r.id → r.id ≤ 1 →
          Sample.watcher.filters.shouldSkip r = none →
          r.id ∈ s.acked ∨ r.id ∈ s.gone ∨ r.path ∈ (FailedList.load s.failed).paths) ∧
        ∀ s', Reach Sample.watcher.step (fun _ _ => True) s s' →
          s'.first = some first ∧ ∃ cursor', s'.cursor = some cursor' ∧ 1 ≤ cursor' := by
  obtain ⟨s, hs, hend⟩ := exec_check Sample.watcher.step (fun _ _ => True) Sample.failedUpload
    (State.init Sample.db none)
    (fun s => s.cursor = some 1 ∧ Sample.row ∈ s.db.rows ∧ s.acked = [] ∧ s.gone = [])
    (by decide +kernel)
  exact ⟨s, hs, hend, watcher_never_loses _ _ _ s hs 1 hend.1⟩

end Garret.Watch
