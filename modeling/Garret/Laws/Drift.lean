import Garret.Pusher.Clock

/-!
# fsck repairs only rows that have drifted

A run of fsck combines three snapshots (the pages of the bucket, the rows, the in-flight map) and
acts on them later, without a claim. What makes this safe is time. A finding is older than the
orphan grace when it is classified. If the run, plus the longest wait of an upload between its stamp
and its commit, is shorter than the grace, then the row was committed before the run started and has
been there ever since: while a row is there no blob is stored under its key, so the bucket can only
have lost what the page showed.

* `Prompt wait`: every upload commits its row at most `wait` after it took the row's timestamp.
* `old_stable`: across any action, a row from before the run is the same row, and its blob is the
  same or gone.
* `Fsck.Sees`: what a run knows about such rows at each point.
-/

namespace Garret

open Garret.Lib

/-! ## Listings -/

theorem mem_listPage {w : World} {token : Option String} {page : Page} {b : Blob}
    (h : b ∈ listPage w token page) :
    ∃ blob, w.blob? b.hash = some blob ∧ b.size = blob.length := by
  obtain ⟨e, he, hb⟩ := List.mem_filterMap.mp h
  obtain ⟨hash, hhash, rfl⟩ := Option.map_eq_some_iff.mp hb
  have he := (List.mem_filter.mp ((List.mem_insertionSort _).mp he)).1
  refine ⟨e.2, ?_, rfl⟩
  unfold World.blob?
  rw [← hashFor_eq_some hhash]
  exact Table.lookup_eq_some_iff.mpr he

/-- A page shows every blob under its keys. -/
theorem listPage_complete {w : World} {token : Option String} {page : Page} {hash : String}
    {blob : Bytes} (hne : hash ≠ "") (hb : w.blob? hash = some blob)
    (hp : onPage token page.upTo (keyFor hash) = true) :
    ∃ b ∈ listPage w token page, b.hash = hash := by
  refine ⟨⟨hash, page.age (keyFor hash), blob.length⟩, ?_, rfl⟩
  refine List.mem_filterMap.mpr ⟨⟨keyFor hash, blob⟩, (List.mem_insertionSort _).mpr ?_, ?_⟩
  · exact List.mem_filter.mpr ⟨Table.lookup_eq_some_iff.mp hb, hp⟩
  · rw [hashFor_keyFor hne]
    rfl

/-- The blob of `hash`, if there is one, has the size the listing gives. -/
def AsListed (w : World) (blobs : List Blob) (hash : String) : Prop :=
  ∀ blob, w.blob? hash = some blob → s3Size blobs hash = some (blob.length : Int)

/-- A page that shows `hash`, or that leaves a listing of it as it was, keeps it as listed. -/
theorem AsListed.page {w : World} {token : Option String} {page : Page} {blobs : List Blob}
    {hash : String} (h : (∃ b ∈ listPage w token page, b.hash = hash) ∨ AsListed w blobs hash) :
    AsListed w (blobs ++ listPage w token page) hash := by
  intro blob hblob
  unfold s3Size
  rw [List.filter_append, List.getLast?_append]
  cases hl : ((listPage w token page).filter fun b => b.hash == hash).getLast? with
  | some b =>
    obtain ⟨hb, heq⟩ := List.mem_filter.mp (List.mem_of_getLast? hl)
    have heq : b.hash = hash := by simpa using heq
    obtain ⟨blob', hblob', hsize⟩ := mem_listPage hb
    rw [heq, hblob] at hblob'
    obtain rfl := Option.some.inj hblob'
    simp [hsize]
  | none =>
    rcases h with ⟨b, hb, heq⟩ | h
    · rw [List.getLast?_eq_none_iff] at hl
      have hin : b ∈ (listPage w token page).filter fun b => b.hash == hash :=
        List.mem_filter.mpr ⟨hb, by simpa using heq⟩
      rw [hl] at hin
      exact absurd hin List.not_mem_nil
    · simpa [s3Size] using h blob hblob

namespace Sys

variable {δ : Type} {env : Env δ} {s s' : Sys} {a : Act}

/-! ## Rows from before the run -/

/-- **A row from before a run stays the same row**, and its blob stays or goes. -/
theorem old_stable {wait start : Int} (hi : Inv env s) (hp : Prompt wait s a)
    (hstart : start ≤ s.world.clock) (h : s.step env a = some s') {hash : String} {row' : Row}
    (hrow : s'.world.row? hash = some row') (hold : row'.createdAt < start - wait) :
    ∃ row, s.world.row? hash = some row ∧ row.createdAt = row'.createdAt ∧
      row.fileSize = row'.fileSize ∧
      (s'.world.blob? hash = s.world.blob? hash ∨ s'.world.blob? hash = none) := by
  obtain ⟨e, hd, hc, -⟩ := step_effect hi h
  -- while there is a row nothing is stored under its key
  have hblob : s.world.row? hash ≠ none →
      s'.world.blob? hash = s.world.blob? hash ∨ s'.world.blob? hash = none := by
    intro hsome
    rcases hd.blob_cases hash with heq | ⟨blob, rfl, -⟩ | ⟨keys, -, -, hnone⟩
    · exact Or.inl heq
    · exact absurd (hi.causes_put hc).1 hsome
    · exact Or.inr hnone
  rcases hd.row_cases hash with heq | ⟨-, hgone⟩ | ⟨obj, at', rfl, -, hnew⟩ | ⟨x, y, hx, hy, hkin, -⟩
  · rw [heq] at hrow
    exact ⟨row', hrow, rfl, rfl, hblob (by rw [hrow]; simp)⟩
  · rw [hgone] at hrow
    exact absurd hrow (by simp)
  · obtain rfl := Option.some.inj (hnew.symm.trans hrow)
    have := hi.inserted_prompt hp hc
    have hat : (obj.toRow at').createdAt = at' := rfl
    omega
  · obtain rfl := Option.some.inj (hy.symm.trans hrow)
    unfold Row.Kin at hkin
    exact ⟨x, hx, by rw [hkin], by rw [hkin], hblob (by rw [hx]; simp)⟩

/-- **A path inserted since the run started has no row from before it.** -/
theorem late_step {wait start : Int} (hi : Inv env s) (hp : Prompt wait s a)
    (hstart : start ≤ s.world.clock) (h : s.step env a = some s') {hash : String}
    (hlate : ∀ row, s.world.row? hash = some row → start - wait ≤ row.createdAt) {row : Row}
    (hrow : s'.world.row? hash = some row) : start - wait ≤ row.createdAt := by
  by_contra hlt
  obtain ⟨r, hr, hc, -⟩ := old_stable hi hp hstart h hrow (by omega)
  have := hlate r hr
  omega

end Sys

/-! ## What a run knows -/

/-- A listed row: while it is a row from before the run, it has the size it was listed with. -/
def SameRow (start wait : Int) (w : World) (b : ObjectBrief) : Prop :=
  ∀ row, w.row? b.storePathHash = some row → row.createdAt = b.createdAt →
    b.createdAt < start - wait → row.fileSize = b.fileSize

/-- The drift of a finding is real. -/
def Drifted (w : World) (hash : String) (row : Row) : Drift → Prop
  | .dangling => w.blob? hash = none
  | .sizeMismatch _ _ => ∀ blob, w.blob? hash = some blob → (blob.length : Int) ≠ row.fileSize

/-- A finding: while its row is one from before the run, its drift is real. -/
def Confirmed (start wait : Int) (w : World) (f : Finding) : Prop :=
  ∀ row, w.row? f.hash = some row → row.createdAt = f.listedAt →
    f.listedAt < start - wait → Drifted w f.hash row f.drift

/-- The rows from before the run have the blobs the listing shows, for the keys `seen`. -/
def Shown (start wait : Int) (w : World) (blobs : List Blob) (seen : String → Prop) : Prop :=
  ∀ hash row, w.row? hash = some row → row.createdAt < start - wait → seen (keyFor hash) →
    AsListed w blobs hash

/-- What a run knows, by where it stands. -/
def Fsck.Sees (grace wait : Int) (w : World) : Fsck → Prop
  | .list run token blobs =>
    Shown run.startedAt wait w blobs fun key => ∃ t, token = some t ∧ key ≤ t
  | .rows run blobs => Shown run.startedAt wait w blobs fun _ => True
  | .listed run blobs briefs => Shown run.startedAt wait w blobs (fun _ => True) ∧
      ∀ b ∈ briefs, SameRow run.startedAt wait w b
  | .classify run blobs now _ todo findings => Shown run.startedAt wait w blobs (fun _ => True) ∧
      (∀ b ∈ todo, SameRow run.startedAt wait w b) ∧
      ∀ f ∈ findings, f.listedAt ≤ now - grace ∧ Confirmed run.startedAt wait w f
  | .repair run _ todo =>
      ∀ f ∈ todo, f.listedAt ≤ w.clock - grace ∧ Confirmed run.startedAt wait w f
  | _ => True

/-- When a run started. -/
def Fsck.startedAt? : Fsck → Option Int
  | .start _ _ => none
  | .drain run => some run.startedAt
  | .list run _ _ => some run.startedAt
  | .rows run _ => some run.startedAt
  | .listed run _ _ => some run.startedAt
  | .classify run _ _ _ _ _ => some run.startedAt
  | .repair run _ _ => some run.startedAt
  | .done _ => none

theorem Fsck.startedAt_stamp {f : Fsck} {c : Int} (h : f.startedAt? = some c) : c ∈ f.stamps := by
  cases f with
  | start verifySizes mode => exact absurd h (by simp [startedAt?])
  | done r => exact absurd h (by simp [startedAt?])
  | _ =>
    obtain rfl := Option.some.inj h
    exact List.mem_cons_self

/-- The run whose repair a task is in. -/
def Task.repairing? : Task → Option FsckRun
  | .fsck (.repair run _ _) => some run
  | _ => none

theorem Task.repairing?_eq_some {t : Task} {run : FsckRun} (h : t.repairing? = some run) :
    ∃ report todo, t = .fsck (.repair run report todo) := by
  unfold repairing? at h
  split at h
  · rename_i run' report todo
    obtain rfl := Option.some.inj h
    exact ⟨report, todo, rfl⟩
  · exact absurd h (by simp)

theorem Drifted.shrink {w w' : World} {hash : String} {row row' : Row} {d : Drift}
    (h : Drifted w hash row d) (hsize : row.fileSize = row'.fileSize)
    (hb : w'.blob? hash = w.blob? hash ∨ w'.blob? hash = none) : Drifted w' hash row' d := by
  cases d with
  | dangling => exact hb.elim (fun he => he.trans h) id
  | sizeMismatch n m =>
    intro blob hblob
    rcases hb with he | he
    · rw [← hsize]
      exact h blob (he.symm.trans hblob)
    · rw [he] at hblob
      exact absurd hblob (by simp)

/-- A finding past the guards is confirmed by what the run has seen. -/
theorem classifyRow_confirmed {start wait grace now : Int} {w : World} {b : ObjectBrief}
    {blobs : List Blob} {fl : InFlight} {sizes : Bool} {f : Finding}
    (hf : classifyRow b blobs fl grace now sizes = some f)
    (hshown : Shown start wait w blobs fun _ => True) (hsame : SameRow start wait w b) :
    f.listedAt ≤ now - grace ∧ Confirmed start wait w f := by
  unfold classifyRow at hf
  split at hf
  · exact absurd hf (by simp)
  · rename_i hguard
    simp only [Bool.or_eq_true, decide_eq_true_eq, not_or, not_lt] at hguard
    have hage : b.createdAt ≤ now - grace := by omega
    simp only at hf
    split at hf
    · rename_i hnone
      obtain rfl := Option.some.inj hf
      refine ⟨hage, fun row hrow hat hold => ?_⟩
      change w.blob? b.storePathHash = none
      cases hblob : w.blob? b.storePathHash with
      | none => rfl
      | some blob =>
        have := hshown _ row hrow (by rw [hat]; exact hold) trivial blob hblob
        rw [hnone] at this
        exact absurd this (by simp)
    · rename_i s3 hs3
      split at hf
      · rename_i hne
        obtain rfl := Option.some.inj hf
        simp only [Bool.and_eq_true, bne_iff_ne, ne_eq] at hne
        refine ⟨hage, fun row hrow hat hold blob hblob => ?_⟩
        have := hshown _ row hrow (by rw [hat]; exact hold) trivial blob hblob
        rw [hs3] at this
        rw [hsame row hrow hat hold, ← Option.some.inj this]
        exact hne.2
      · exact absurd hf (by simp)

theorem onPage_iff {token upTo : Option String} {key : String} :
    onPage token upTo key = true ↔ (∀ t, token = some t → t < key) ∧ ∀ u, upTo = some u → key ≤ u := by
  unfold onPage
  cases token <;> cases upTo <;> simp

/-- A page adds what it covers to what the run has seen. -/
theorem Shown.page {start wait : Int} {w : World} {blobs : List Blob} {token : Option String}
    {page : Page} (hblank : w.row? "" = none)
    (h : Shown start wait w blobs fun key => ∃ t, token = some t ∧ key ≤ t) :
    Shown start wait w (blobs ++ listPage w token page) fun key =>
      ∀ u, page.upTo = some u → key ≤ u := by
  intro hash row hrow hold hseen
  by_cases hbefore : ∃ t, token = some t ∧ keyFor hash ≤ t
  · exact AsListed.page (Or.inr (h hash row hrow hold hbefore))
  · intro blob hblob
    refine AsListed.page (Or.inl (listPage_complete ?_ hblob ?_)) blob hblob
    · rintro rfl
      rw [hblank] at hrow
      exact absurd hrow (by simp)
    · refine onPage_iff.mpr ⟨fun t ht => ?_, hseen⟩
      by_contra hlt
      exact hbefore ⟨t, ht, le_of_not_gt hlt⟩

/-- **One step of a run keeps what it knows.** -/
theorem Fsck.step_sees {δ : Type} {env : Env δ} {me : ℕ} {w w' : World} {o : Oracle}
    {f f' : Fsck} {wait : Int} (h : Fsck.Stepped env me w o f w' f') (hblank : w.row? "" = none)
    (hstamp : ∀ c ∈ f.stamps, c ≤ w.clock)
    (hs : f.Sees env.orphanGrace wait w) : f'.Sees env.orphanGrace wait w' := by
  cases h with
  | began hf hs' =>
    rcases hs' with rfl | rfl
    · trivial
    · rintro hash row - - ⟨t, ht, -⟩
      exact absurd ht (by simp)
  | drained =>
    rintro hash row - - ⟨t, ht, -⟩
    exact absurd ht (by simp)
  | @paged run token blobs upTo hu =>
    rintro hash row hrow hold ⟨t, ht, hle⟩
    refine Shown.page hblank hs hash row hrow hold fun u hu' => ?_
    obtain rfl := Option.some.inj ht
    rw [hu] at hu'
    exact Option.some.inj hu' ▸ hle
  | @lastPage run token blobs hu =>
    refine fun hash row hrow hold _ => Shown.page hblank hs hash row hrow hold fun u hu' => ?_
    rw [hu] at hu'
    exact absurd hu' (by simp)
  | @rowsListed run blobs briefs hr =>
    refine ⟨hs, fun b hb row hrow _ _ => ?_⟩
    simp only [allObjectsBrief, bind_eq_ok, pure_eq_ok] at hr
    obtain ⟨_, -, rfl⟩ := hr
    obtain ⟨e, he, rfl⟩ := List.mem_map.mp hb
    have hlook : w.row? e.1 = some e.2 := Table.lookup_eq_some_iff.mpr he
    obtain rfl := Option.some.inj (hlook.symm.trans hrow)
    rfl
  | timed => exact ⟨hs.1, hs.2, fun f hf => absurd hf List.not_mem_nil⟩
  | @classified run blobs now briefs todo row findings =>
    refine ⟨hs.1, fun b hb => hs.2.1 b (List.mem_cons_of_mem _ hb), fun f hf => ?_⟩
    rcases List.mem_append.mp hf with hf | hf
    · exact hs.2.2 f hf
    · exact classifyRow_confirmed (Option.mem_toList.mp hf) hs.1 (hs.2.1 row List.mem_cons_self)
  | @repairing run blobs now briefs findings report =>
    intro f hf
    obtain ⟨hage, hconf⟩ := hs.2.2 f hf
    have hnow : now ≤ w.clock := hstamp now (List.mem_cons_of_mem _ List.mem_cons_self)
    exact ⟨by omega, hconf⟩
  | skipped => exact fun f hf => hs f (List.mem_cons_of_mem _ hf)
  | @repaired run report report' f todo row hfree hrow hat =>
    intro g hg
    obtain ⟨hage, hconf⟩ := hs g (List.mem_cons_of_mem _ hg)
    refine ⟨hage, fun r hr hrat hold => ?_⟩
    have hne : g.hash ≠ f.hash := by
      intro he
      have hnone : World.row? { w with db := w.db.removed f.hash row.fileSize } g.hash = none := by
        rw [he]
        exact row?_removed_self
      rw [hnone] at hr
      exact absurd hr (by simp)
    refine hconf r ?_ hrat hold
    unfold World.row? at hr ⊢
    rwa [row?_removed, if_neg hne] at hr
  | left hf => trivial

namespace Sys

variable {δ : Type} {env : Env δ} {s s' : Sys} {a : Act}

/-- Another action leaves a run with what it knows. -/
theorem Sees.other {f : Fsck} {wait : Int} (hi : Inv env s) (hsteady : Steady s a)
    (hp : Prompt wait s a) (h : s.step env a = some s')
    (hstart : ∀ c, f.startedAt? = some c → c ≤ s.world.clock)
    (hs : f.Sees env.orphanGrace wait s.world) : f.Sees env.orphanGrace wait s'.world := by
  have hmono := clock_mono hi hsteady h
  -- each clause speaks of rows from before the run, which are the same rows
  have hshown : ∀ {start : Int} {blobs : List Blob} {seen : String → Prop},
      start ≤ s.world.clock → Shown start wait s.world blobs seen →
      Shown start wait s'.world blobs seen := by
    intro start blobs seen hle hsh hash row' hrow' hold hseen blob hblob
    obtain ⟨row, hrow, hc, -, hb | hb⟩ := old_stable hi hp hle h hrow' hold
    · exact hsh hash row hrow (by omega) hseen blob (hb ▸ hblob)
    · rw [hb] at hblob
      exact absurd hblob (by simp)
  have hsame : ∀ {start : Int} {b : ObjectBrief}, start ≤ s.world.clock →
      SameRow start wait s.world b → SameRow start wait s'.world b := by
    intro start b hle hsr row' hrow' hat hold
    obtain ⟨row, hrow, hc, hn, -⟩ := old_stable hi hp hle h hrow' (by omega)
    rw [← hn]
    exact hsr row hrow (by omega) hold
  have hconf : ∀ {start : Int} {g : Finding}, start ≤ s.world.clock →
      Confirmed start wait s.world g → Confirmed start wait s'.world g := by
    intro start g hle hcf row' hrow' hat hold
    obtain ⟨row, hrow, hc, hn, hb⟩ := old_stable hi hp hle h hrow' (by omega)
    exact (hcf row hrow (by omega) hold).shrink hn hb
  cases f with
  | list run token blobs =>
    unfold Fsck.Sees at hs ⊢
    exact hshown (hstart _ rfl) hs
  | rows run blobs =>
    unfold Fsck.Sees at hs ⊢
    exact hshown (hstart _ rfl) hs
  | listed run blobs briefs =>
    exact ⟨hshown (hstart _ rfl) hs.1, fun b hb => hsame (hstart _ rfl) (hs.2 b hb)⟩
  | classify run blobs now briefs todo findings =>
    exact ⟨hshown (hstart _ rfl) hs.1, fun b hb => hsame (hstart _ rfl) (hs.2.1 b hb),
      fun g hg => ⟨(hs.2.2 g hg).1, hconf (hstart _ rfl) (hs.2.2 g hg).2⟩⟩
  | repair run report todo =>
    intro g hg
    obtain ⟨hage, hcf⟩ := hs g hg
    exact ⟨by omega, hconf (hstart _ rfl) hcf⟩
  | start verifySizes mode => trivial
  | drain run => trivial
  | done r => trivial

/-- What the law relies on: no row has an empty hash, times lie in the past, and every run of fsck
knows what it has seen. -/
structure Watched (env : Env δ) (wait : Int) (s : Sys) : Prop where
  inv : Inv env s
  timed : Timed s
  blank : s.world.row? "" = none
  sees : ∀ i f, s.task? i = some (.fsck f) → f.Sees env.orphanGrace wait s.world

theorem watched_boot {db : Db} (hdb : db.row? "" = none) (bucket : Table String Bytes)
    (clock wait : Int) : Watched env wait (boot db bucket clock) :=
  ⟨inv_boot _ _ _, timed_boot _ _ _, hdb, fun _ _ h => absurd h (by simp [boot, task?])⟩

theorem blank_step (hi : Inv env s) (hblank : s.world.row? "" = none)
    (h : s.step env a = some s') : s'.world.row? "" = none := by
  obtain ⟨e, hd, hc, -⟩ := step_effect hi h
  cases hrow : s'.world.row? "" with
  | none => rfl
  | some row =>
    obtain ⟨obj, at', rfl, hk, -⟩ := hd.row_new hblank hrow
    obtain ⟨i, attached, ht, -⟩ := hi.causes_inserted hc
    exact absurd hk.symm ((hi.sound i _ ht).prepared _ obj rfl).named

theorem watched_step {wait : Int} (hw : Watched env wait s) (hsteady : Steady s a)
    (hp : Prompt wait s a) (h : s.step env a = some s') : Watched env wait s' := by
  refine ⟨inv_step hw.inv h, timed_step hw.inv hw.timed hsteady h, blank_step hw.inv hw.blank h,
    fun i f ht => ?_⟩
  have hother : ∀ {f}, s.task? i = some (.fsck f) → f.Sees env.orphanGrace wait s'.world :=
    fun hf => Sees.other hw.inv hsteady hp h
      (fun c hc => hw.timed i _ hf c (Fsck.startedAt_stamp hc)) (hw.sees i _ hf)
  cases step_cases h with
  | @spawned j t hnone hinit =>
    rw [task?_put] at ht
    split at ht
    · obtain rfl := Option.some.inj ht
      cases f with
      | start verifySizes mode => trivial
      | _ => exact absurd hinit (by simp [Task.initial])
    · exact hother ht
  | @ran a j o t t' w' ha ht' hrun =>
    rw [task?_put] at ht
    split at ht
    · obtain rfl := Option.some.inj ht
      cases hrun with
      | fsck hf =>
        exact Fsck.step_sees hf hw.blank (hw.timed j _ ht') (hw.sees j _ ht')
    · exact hother ht
  | crashed => exact absurd ht (by simp [boot, task?])
  | ticked => exact hother ht
  | outside => exact hother ht

/-- **fsck repairs only rows that have drifted.** Under a clock that does not go back, whenever a
run, plus the longest wait of an upload for its commit, is shorter than the orphan grace: a row the
run deletes is the one its finding names; a dangling one has no blob, a mismatched one no blob of
its size; and no row has been inserted under its hash since the run started. -/
theorem repair_only_drifted (env : Env δ) {db : Db} (hdb : db.row? "" = none)
    (bucket : Table String Bytes) (clock : Int) {wait : Int} {s s' : Sys} {a : Act}
    (h : Reach (step env) (fun s a => Steady s a ∧ Prompt wait s a) (boot db bucket clock) s)
    {i : ℕ} {run : FsckRun} {report : FsckReport} {todo : List Finding} (ha : a.runs = some i)
    (ht : s.task? i = some (.fsck (.repair run report todo)))
    (hgrace : s.world.clock - run.startedAt + wait < env.orphanGrace)
    (hs : s.step env a = some s') {hash : String} {row : Row}
    (hrow : s.world.row? hash = some row) (hgone : s'.world.row? hash = none) :
    ∃ f ∈ todo, f.hash = hash ∧ row.createdAt = f.listedAt ∧
      (f.drift = .dangling → s.world.blob? hash = none) ∧
      (∀ n m, f.drift = .sizeMismatch n m →
        ∀ blob, s.world.blob? hash = some blob → (blob.length : Int) ≠ row.fileSize) ∧
      ∀ s₁ a₁ s₂ g, Reach (step env) (fun s a => Steady s a ∧ Prompt wait s a)
          (boot db bucket clock) s₁ → Prompt wait s₁ a₁ → Steady s₁ a₁ →
        s₁.step env a₁ = some s₂ →
        Reach (step env) (fun s a => Steady s a ∧ Prompt wait s a) s₂ s →
        s₁.task? i = some (.fsck g) → g.startedAt? = some run.startedAt →
        s₁.world.row? hash = none → s₂.world.row? hash = none := by
  have hreach : ∀ {x}, Reach (step env) (fun s a => Steady s a ∧ Prompt wait s a)
      (boot db bucket clock) x → Watched env wait x := fun hx =>
    hx.invariant (fun _ _ _ hw hok hst => watched_step hw hok.1 hok.2 hst)
      (watched_boot hdb bucket clock wait)
  have hw := hreach h
  obtain ⟨e, hd, hc, -⟩ := step_effect hw.inv hs
  -- the step deletes the row of its first finding
  obtain ⟨f, rest, rfl, rfl, hat⟩ : ∃ f rest, todo = f :: rest ∧ f.hash = hash ∧
      row.createdAt = f.listedAt := by
    have hrem : e.Removes hash := by
      rcases hd.row_cases hash with heq | ⟨hrem, -⟩ | ⟨obj, at', -, -, hnew⟩ | ⟨_, y, -, hy, -⟩
      · rw [heq, hrow] at hgone
        exact absurd hgone (by simp)
      · exact hrem
      · rw [hnew] at hgone
        exact absurd hgone (by simp)
      · rw [hy] at hgone
        exact absurd hgone (by simp)
    cases hc with
    | @task j t e haj htj hal =>
      obtain rfl := Option.some.inj (ha.symm.trans haj)
      obtain rfl := Option.some.inj (ht.symm.trans htj)
      cases e with
      | removed k r =>
        obtain rfl : k = hash := hrem
        obtain ⟨_, _, f, rest, heq, hf, hat⟩ := hal
        obtain ⟨-, -, rfl⟩ := Fsck.repair.inj heq
        obtain rfl := Option.some.inj (hd.db.1.symm.trans hrow)
        exact ⟨f, rest, rfl, hf, hat⟩
      | pruned batch => exact absurd hal id
      | _ => exact absurd hrem id
    | _ => exact absurd hrem id
  obtain ⟨hage, hconf⟩ := hw.sees i _ ht f List.mem_cons_self
  have hold : f.listedAt < run.startedAt - wait := by omega
  have hdrift := hconf row hrow hat hold
  refine ⟨f, List.mem_cons_self, rfl, hat, fun hd => ?_, fun n m hd => ?_, ?_⟩
  · rw [hd] at hdrift
    exact hdrift
  · rw [hd] at hdrift
    exact hdrift
  · intro s₁ a₁ s₂ g h₁ hp₁ hst₁ hs₁ h₂ hg hstart hnone
    have hw₁ := hreach h₁
    have hle : run.startedAt ≤ s₁.world.clock := hw₁.timed i _ hg _ (Fsck.startedAt_stamp hstart)
    by_contra hsome
    obtain ⟨r₂, hr₂⟩ := Option.ne_none_iff_exists'.mp hsome
    have hlate : run.startedAt ≤ s.world.clock ∧ Watched env wait s ∧
        ∀ r, s.world.row? f.hash = some r → run.startedAt - wait ≤ r.createdAt := by
      refine h₂.invariant (I := fun x => run.startedAt ≤ x.world.clock ∧ Watched env wait x ∧
        ∀ r, x.world.row? f.hash = some r → run.startedAt - wait ≤ r.createdAt) ?_ ?_
      · rintro x b x' ⟨hcx, hwx, hlx⟩ ⟨hstx, hpx⟩ hstep
        exact ⟨le_trans hcx (clock_mono hwx.inv hstx hstep), watched_step hwx hstx hpx hstep,
          fun r hr => late_step hwx.inv hpx hcx hstep hlx hr⟩
      · exact ⟨le_trans hle (clock_mono hw₁.inv hst₁ hs₁), watched_step hw₁ hst₁ hp₁ hs₁,
          fun r hr => late_step hw₁.inv hp₁ hle hs₁ (fun r hr => by simp [hnone] at hr) hr⟩
    have := hlate.2.2 row hrow
    omega

/-- A run over rows that have lost their blobs deletes the first of them. -/
theorem repair_only_drifted_lost : ∃ s s' row,
    Reach (step Sample.env) (fun s a => Steady s a ∧ Prompt 3600 s a)
      (boot Sample.stored ∅ 200000) s ∧
    s.step Sample.env (.step 0 .calm) = some s' ∧ s.world.row? Sample.hash = some row ∧
    s'.world.row? Sample.hash = none ∧ ∃ f : Finding, f.hash = Sample.hash ∧ row.createdAt = f.listedAt ∧
      (f.drift = .dangling → s.world.blob? Sample.hash = none) := by
  obtain ⟨s, hs, hclock, htask, hrest⟩ := exec_check (step Sample.env)
    (fun s a => Steady s a ∧ Prompt 3600 s a)
    (.spawn 0 (.fsck (.start true .live)) :: List.replicate 7 (.step 0 .calm) ++ [.tick 200010])
    (boot Sample.stored ∅ 200000)
    (fun s => s.world.clock = 200010 ∧
      (((s.task? 0).bind Task.repairing?).any fun run => decide (run.startedAt = 200000)) = true ∧
      ((s.step Sample.env (.step 0 .calm)).any fun s' =>
        decide (s'.world.row? Sample.hash = none) && (s.world.row? Sample.hash).isSome) = true)
    (by decide +kernel)
  obtain ⟨run, hrun, hat⟩ := (Option.any_eq_true _ _).mp htask
  obtain ⟨t, ht, hrun⟩ := Option.bind_eq_some_iff.mp hrun
  obtain ⟨report, todo, rfl⟩ := Task.repairing?_eq_some hrun
  obtain ⟨s', hs', hrest⟩ := (Option.any_eq_true _ _).mp hrest
  simp only [Bool.and_eq_true, decide_eq_true_eq, Option.isSome_iff_exists] at hrest
  obtain ⟨hgone, row, hrow⟩ := hrest
  have hgrace : s.world.clock - run.startedAt + 3600 < Sample.env.orphanGrace := by
    rw [hclock, of_decide_eq_true hat]
    decide
  obtain ⟨f, -, hf, hat, hdang, -⟩ := repair_only_drifted Sample.env (by decide) ∅ 200000 hs rfl ht
    hgrace hs' hrow hgone
  exact ⟨s, s', row, hs, hs', hrow, hgone, f, hf, hat, hdang⟩

end Sys

end Garret
