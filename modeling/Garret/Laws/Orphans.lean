import Garret.Pusher.System

/-!
# The orphan sweep leaves no old orphan behind

`verification/tla/README.md` asks of the orphan sweep that a blob with no row and no claim is
eventually deleted. What the sweep does towards it in one pass is proved here, whatever else the
Pusher does meanwhile: a blob without a row that nobody else is at work on while the sweep runs,
reported as past the grace by the listing, is gone when the sweep ends without an error.

The sweep lists page by page, keeps what it has read, claims orphan by orphan and deletes batch by
batch. `Sweep.Awaits` says at each of these stages where the blob still is: on a page to come, among
the blobs listed, among the orphans to claim, queued, or in a request to send. It holds as long as
the blob is there; `done` has no place left for it.
-/

namespace Garret

open Garret.Lib

namespace Sweep

variable {δ : Type} {env : Env δ} {me : ℕ} {w w' : World} {o : Oracle} {s s' : Sweep}
  {hash : String}

/-- The keys of the next `DeleteObjects` request. -/
def sending : Sweep → List String
  | finish f _ => f.batches.headD []
  | _ => []

/-- The pages read so far end before `key`, or there was none. -/
def Ahead (token : Option String) (key : String) : Prop := ∀ t, token = some t → t < key

/-- Where the blob of `hash` is in the sweep's plan, as long as it is in the bucket. -/
def Awaits (env : Env δ) (hash : String) : Sweep → Prop
  | start => True
  | list known token blobs => hash ∉ known ∧
    (Ahead token (keyFor hash) ∨ ∃ b ∈ blobs, b.hash = hash ∧ env.orphanGrace ≤ b.age)
  | aborts known blobs => hash ∉ known ∧ ∃ b ∈ blobs, b.hash = hash ∧ env.orphanGrace ≤ b.age
  | pick orphans d => hash ∈ orphans ∨ keyFor hash ∈ d.keys
  | look h orphans d => hash ∈ h :: orphans ∨ keyFor hash ∈ d.keys
  | finish f _ => f.failed = 0 → keyFor hash ∈ f.batches.flatten
  | done (.ok _) => False
  | done (.error _) => True

/-- What a sweep claims it queues, save the path it is looking at. -/
def Queues : Sweep → Prop
  | pick _ d => ∀ h ∈ d.claims, keyFor h ∈ d.keys
  | look _ _ d => ∀ h ∈ d.claims, keyFor h ∈ d.keys
  | _ => True

theorem queues_step (h : s.step env me w o = some (w', s')) (hq : s.Queues) : s'.Queues := by
  cases s with
  | start =>
    simp only [step] at h
    split at h
    · split at h
      all_goals
        obtain ⟨rfl, rfl⟩ := Prod.mk.inj (Option.some.inj h)
        exact trivial
    · exact absurd h (by simp)
  | list known token blobs =>
    simp only [step] at h
    split at h
    · obtain ⟨rfl, rfl⟩ := Prod.mk.inj (Option.some.inj h)
      exact trivial
    · split at h
      all_goals
        obtain ⟨rfl, rfl⟩ := Prod.mk.inj (Option.some.inj h)
        exact trivial
  | aborts known blobs =>
    simp only [step] at h
    split at h
    · obtain ⟨rfl, rfl⟩ := Prod.mk.inj (Option.some.inj h)
      exact trivial
    · split at h
      · obtain ⟨rfl, rfl⟩ := Prod.mk.inj (Option.some.inj h)
        exact fun x hx => absurd hx List.not_mem_nil
      · exact absurd h (by simp)
  | pick orphans d =>
    simp only [step] at h
    split at h
    · split at h
      · obtain ⟨rfl, rfl⟩ := Prod.mk.inj (Option.some.inj h)
        exact trivial
      · split at h
        all_goals
          obtain ⟨rfl, rfl⟩ := Prod.mk.inj (Option.some.inj h)
          exact hq
    · exact absurd h (by simp)
  | look k orphans d =>
    simp only [step] at h
    split at h
    · split at h
      · obtain ⟨rfl, rfl⟩ := Prod.mk.inj (Option.some.inj h)
        exact trivial
      · obtain ⟨rfl, rfl⟩ := Prod.mk.inj (Option.some.inj h)
        exact hq
      · obtain ⟨rfl, rfl⟩ := Prod.mk.inj (Option.some.inj h)
        intro x hx
        rcases List.mem_append.mp hx with hx | hx
        · exact List.mem_append_left _ (hq x hx)
        · rw [List.mem_singleton.mp hx]
          exact List.mem_append_right _ (List.mem_singleton.mpr rfl)
    · exact absurd h (by simp)
  | finish f count =>
    simp only [step] at h
    split at h
    all_goals
      obtain ⟨rfl, rfl⟩ := Prod.mk.inj (Option.some.inj h)
      exact trivial
  | done r => exact absurd h (by simp [step])

/-- A blob of the bucket is listed on the page its key lies on, with the age the page reports. -/
theorem mem_listPage {token : Option String} {page : Page} {blob : Bytes} (hne : hash ≠ "")
    (hb : w.blob? hash = some blob) (hp : onPage token page.upTo (keyFor hash) = true) :
    ⟨hash, page.age (keyFor hash), (blob.length : Int)⟩ ∈ listPage w token page := by
  refine List.mem_filterMap.mpr ⟨⟨keyFor hash, blob⟩, ?_, ?_⟩
  · rw [List.mem_insertionSort]
    exact List.mem_filter.mpr ⟨Table.lookup_eq_some_iff.mp hb, hp⟩
  · rw [hashFor_keyFor hne]
    rfl

/-- A page that reports the blob as old leaves it listed, or on a page to come. -/
theorem listed_step {token : Option String} {page : Page} {blobs : List Blob} {blob : Bytes}
    (hne : hash ≠ "") (hb : w.blob? hash = some blob)
    (hold : env.orphanGrace ≤ page.age (keyFor hash))
    (h : Ahead token (keyFor hash) ∨ ∃ b ∈ blobs, b.hash = hash ∧ env.orphanGrace ≤ b.age) :
    (∃ u, page.upTo = some u ∧ Ahead (some u) (keyFor hash)) ∨
      ∃ b ∈ blobs ++ listPage w token page, b.hash = hash ∧ env.orphanGrace ≤ b.age := by
  rcases h with hahead | ⟨b, hin, hbh, hage⟩
  · by_cases hup : ∀ u, page.upTo = some u → keyFor hash ≤ u
    · have hp : onPage token page.upTo (keyFor hash) = true := by
        unfold onPage
        rw [Bool.and_eq_true, Option.all_eq_true, Option.all_eq_true]
        exact ⟨fun t ht => decide_eq_true (hahead t ht), fun u hu => decide_eq_true (hup u hu)⟩
      exact Or.inr ⟨_, List.mem_append_right _ (mem_listPage hne hb hp), rfl, hold⟩
    · push Not at hup
      obtain ⟨u, hu, hlt⟩ := hup
      refine Or.inl ⟨u, hu, fun t ht => ?_⟩
      rw [← Option.some.inj ht]
      exact hlt
  · exact Or.inr ⟨b, List.mem_append_left _ hin, hbh, hage⟩

/-- **A step of the sweep keeps the blob in its plan**, as long as the blob stays. -/
theorem awaits_step (hne : hash ≠ "") (hrow : w.row? hash = none)
    (hfree : w.inFlight.contains hash = true → ∃ k, (hash, k) ∈ s.holds)
    (hold : env.orphanGrace ≤ o.page.age (keyFor hash))
    (hreply : o.delete.ok = true → o.delete.errors = [] →
      ∀ k ∈ s.sending, k ∈ o.delete.applied)
    (hq : s.Queues) (ha : s.Awaits env hash) (hb : w.blob? hash ≠ none)
    (hb' : w'.blob? hash ≠ none) (h : s.step env me w o = some (w', s')) :
    s'.Awaits env hash := by
  obtain ⟨blob, hblob⟩ := Option.ne_none_iff_exists'.mp hb
  cases s with
  | start =>
    simp only [step] at h
    split at h
    · split at h
      · obtain ⟨rfl, rfl⟩ := Prod.mk.inj (Option.some.inj h)
        exact trivial
      · rename_i known hk
        obtain ⟨rfl, rfl⟩ := Prod.mk.inj (Option.some.inj h)
        -- a hash the database lists has a row
        simp only [allHashes, bind_eq_ok, pure_eq_ok] at hk
        obtain ⟨_, -, rfl⟩ := hk
        refine ⟨fun hin => ?_, Or.inl fun t ht => absurd ht (by simp)⟩
        rw [show w.row? hash = w.db.objects.lookup hash from rfl, AList.lookup_eq_none] at hrow
        exact hrow (AList.mem_keys.mp hin)
    · exact absurd h (by simp)
  | list known token blobs =>
    obtain ⟨hknown, hplace⟩ := ha
    simp only [step] at h
    split at h
    · obtain ⟨rfl, rfl⟩ := Prod.mk.inj (Option.some.inj h)
      exact trivial
    · have hnext := listed_step hne hblob hold hplace
      split at h
      · rename_i hup
        obtain ⟨rfl, rfl⟩ := Prod.mk.inj (Option.some.inj h)
        refine ⟨hknown, hnext.resolve_left ?_⟩
        rintro ⟨u, hu, -⟩
        exact absurd (hup.symm.trans hu) (by simp)
      · rename_i u hup
        obtain ⟨rfl, rfl⟩ := Prod.mk.inj (Option.some.inj h)
        refine ⟨hknown, hnext.imp_left ?_⟩
        rintro ⟨v, hv, hahead⟩
        rwa [Option.some.inj (hup.symm.trans hv)]
  | aborts known blobs =>
    obtain ⟨hknown, b, hin, hbh, hage⟩ := ha
    simp only [step] at h
    split at h
    · obtain ⟨rfl, rfl⟩ := Prod.mk.inj (Option.some.inj h)
      exact trivial
    · split at h
      · obtain ⟨rfl, rfl⟩ := Prod.mk.inj (Option.some.inj h)
        have hclear : w.inFlight.contains hash = false := by
          refine Bool.eq_false_iff.mpr fun hc => ?_
          obtain ⟨k, hk⟩ := hfree hc
          exact absurd hk List.not_mem_nil
        refine Or.inl (List.mem_map.mpr ⟨b, List.mem_filter.mpr ⟨hin, ?_⟩, hbh⟩)
        simp [hbh, hclear, hknown, hage]
      · exact absurd h (by simp)
  | pick orphans d =>
    simp only [step] at h
    split at h
    · split at h
      · obtain ⟨rfl, rfl⟩ := Prod.mk.inj (Option.some.inj h)
        intro _
        rw [Finish.start, flatten_chunks (by decide)]
        exact ha.resolve_left List.not_mem_nil
      · rename_i k orphans
        split at h
        · rename_i e hbusy
          obtain ⟨rfl, rfl⟩ := Prod.mk.inj (Option.some.inj h)
          -- the sweep's own claim is all that can be in the way, and then the blob is queued
          rcases ha with hin | hkey
          · rcases List.mem_cons.mp hin with rfl | hin
            · right
              have hc : w.inFlight.contains hash = true := by
                unfold InFlight.contains
                cases hk : w.inFlight.kind hash with
                | some v => rfl
                | none => simp [InFlight.claimDelete, InFlight.take, hk] at hbusy
              obtain ⟨v, hv⟩ := hfree hc
              exact hq hash (mem_deleting.mp (List.mem_map.mpr ⟨_, hv, rfl⟩))
            · exact Or.inl hin
          · exact Or.inr hkey
        · obtain ⟨rfl, rfl⟩ := Prod.mk.inj (Option.some.inj h)
          exact ha
    · exact absurd h (by simp)
  | look k orphans d =>
    simp only [step] at h
    split at h
    · split at h
      · obtain ⟨rfl, rfl⟩ := Prod.mk.inj (Option.some.inj h)
        exact trivial
      · rename_i hex
        obtain ⟨rfl, rfl⟩ := Prod.mk.inj (Option.some.inj h)
        obtain ⟨row, hrow'⟩ := existsRow_true hex
        refine ha.imp_left fun hin => (List.mem_cons.mp hin).resolve_left ?_
        rintro rfl
        exact absurd (hrow.symm.trans hrow') (by simp)
      · obtain ⟨rfl, rfl⟩ := Prod.mk.inj (Option.some.inj h)
        rcases ha with hin | hkey
        · rcases List.mem_cons.mp hin with rfl | hin
          · exact Or.inr (List.mem_append_right _ (List.mem_singleton.mpr rfl))
          · exact Or.inl hin
        · exact Or.inr (List.mem_append_left _ hkey)
    · exact absurd h (by simp)
  | finish f count =>
    simp only [step, Finish.step] at h
    split at h
    · rename_i w₁ f' hf
      obtain ⟨rfl, rfl⟩ := Prod.mk.inj (Option.some.inj h)
      split at hf
      · exact absurd hf (by simp)
      · rename_i batch rest hbatches
        split at hf
        · rename_i hok
          obtain ⟨rfl, hf'⟩ := Prod.mk.inj hf
          obtain rfl := Sum.inl.inj hf'
          intro hzero
          obtain ⟨hf0, he0⟩ : f.failed = 0 ∧ o.delete.errors = [] := by
            simpa using hzero
          have hin := ha hf0
          rw [hbatches, List.flatten_cons] at hin
          refine (List.mem_append.mp hin).resolve_left fun hbatch => hb' ?_
          rw [World.blob?_unlink, if_pos]
          refine List.mem_filter.mpr ⟨hbatch, ?_⟩
          rw [List.contains_iff_mem]
          exact hreply hok he0 _ (by simpa [sending, hbatches] using hbatch)
        · exact absurd hf (by simp)
    · obtain ⟨rfl, rfl⟩ := Prod.mk.inj (Option.some.inj h)
      exact trivial
    · rename_i w₁ hf
      obtain ⟨rfl, rfl⟩ := Prod.mk.inj (Option.some.inj h)
      split at hf
      · rename_i hnil
        obtain ⟨-, hres⟩ := Prod.mk.inj hf
        have hres := Sum.inr.inj hres
        by_cases hf0 : f.failed = 0
        · have hin := ha hf0
          rw [hnil] at hin
          exact absurd hin List.not_mem_nil
        · rw [if_neg hf0] at hres
          exact absurd hres (by simp)
      · split at hf <;> exact absurd hf (by simp)
  | done r => exact absurd h (by simp [step])

end Sweep

/-- What the outside decides in an action, when it is a step of task `i`. -/
def Act.oracle? (i : ℕ) : Act → Option Oracle
  | .step j o => if j = i then some o else none
  | _ => none

/-- The process dies. -/
def Act.kills : Act → Bool
  | .crash => true
  | _ => false

namespace Sys

variable {δ : Type} {env : Env δ} {s s' : Sys} {a : Act} {i : ℕ} {hash : String}

/-- What task `i`, a sweep, sends next. -/
def sending (s : Sys) (i : ℕ) : List String :=
  match s.task? i with
  | some (.sweep sw) => sw.sending
  | _ => []

/-- While sweep `i` runs the process lives, nobody else is at work on the path, the listing reports
its blob as past the grace, and a `DeleteObjects` answer that lists no failure deleted what it was
asked to. -/
structure Undisturbed (env : Env δ) (i : ℕ) (hash : String) (s : Sys) (a : Act) : Prop where
  alive : a.kills = false
  unclaimed : ∀ j, j ≠ i → ∀ k, (hash, k) ∉ s.holds j
  old : ∀ o ∈ a.oracle? i, env.orphanGrace ≤ o.page.age (keyFor hash)
  reply : ∀ o ∈ a.oracle? i, o.delete.ok = true → o.delete.errors = [] →
    ∀ k ∈ s.sending i, k ∈ o.delete.applied

theorem unclaimed_iff : (∀ j, j ≠ i → ∀ k, (hash, k) ∉ s.holds j) ↔
    ∀ e ∈ s.tasks.entries, e.1 ≠ i → hash ∉ e.2.holds.map Prod.fst := by
  constructor
  · intro h e he hi hin
    obtain ⟨x, hx, rfl⟩ := List.mem_map.mp hin
    refine h e.1 hi x.2 ?_
    rw [holds_of_task (Table.lookup_eq_some_iff.mpr he)]
    exact hx
  · intro h j hj k hin
    cases ht : s.task? j with
    | none => simp [holds, ht] at hin
    | some t =>
      rw [holds_of_task ht] at hin
      exact h ⟨j, t⟩ (Table.lookup_eq_some_iff.mp ht) hj (List.mem_map.mpr ⟨_, hin, rfl⟩)

instance (env : Env δ) (i : ℕ) (hash : String) (s : Sys) (a : Act) :
    Decidable (Undisturbed env i hash s a) :=
  haveI : Decidable (∀ j, j ≠ i → ∀ k, (hash, k) ∉ s.holds j) := decidable_of_iff' _ unclaimed_iff
  decidable_of_iff (a.kills = false ∧ (∀ j, j ≠ i → ∀ k, (hash, k) ∉ s.holds j) ∧
      (∀ o ∈ a.oracle? i, env.orphanGrace ≤ o.page.age (keyFor hash)) ∧
      ∀ o ∈ a.oracle? i, o.delete.ok = true → o.delete.errors = [] →
        ∀ k ∈ s.sending i, k ∈ o.delete.applied)
    ⟨fun h => ⟨h.1, h.2.1, h.2.2.1, h.2.2.2⟩, fun h => ⟨h.alive, h.unclaimed, h.old, h.reply⟩⟩

/-- The path has no row, task `i` is a sweep, and the blob has its place in it. -/
structure Swept (env : Env δ) (i : ℕ) (hash : String) (s : Sys) : Prop where
  inv : Inv env s
  row : s.world.row? hash = none
  sweep : ∃ sw, s.task? i = some (.sweep sw) ∧ sw.Queues ∧
    (s.world.blob? hash ≠ none → sw.Awaits env hash)

/-- Nobody but the sweep can insert the row or store the blob, and a sweep does neither. -/
theorem Undisturbed.absent (hu : Undisturbed env i hash s a) (hsw : Swept env i hash s)
    (h : s.step env a = some s') :
    s'.world.row? hash = none ∧ (s.world.blob? hash = none → s'.world.blob? hash = none) := by
  obtain ⟨e, hd, hc, -⟩ := step_effect hsw.inv h
  obtain ⟨sw, hsweep, -⟩ := hsw.sweep
  -- an upload of the path would be another task's claim
  have hno : ∀ j, (hash, Kind.upload) ∉ s.holds j := by
    intro j hin
    by_cases hj : j = i
    · rw [hj, holds_of_task hsweep] at hin
      cases sw with
      | pick orphans d => simp [Task.holds, Sweep.holds, deleting] at hin
      | look k orphans d => simp [Task.holds, Sweep.holds, deleting] at hin
      | finish f count => simp [Task.holds, Sweep.holds, deleting] at hin
      | _ => exact absurd hin List.not_mem_nil
    · exact hu.unclaimed j hj _ hin
  refine ⟨?_, fun hnone => ?_⟩
  · cases hrow : s'.world.row? hash with
    | none => rfl
    | some row =>
      obtain ⟨obj, at', rfl, hk, -⟩ := hd.row_new hsw.row hrow
      obtain ⟨j, attached, ht, -⟩ := hsw.inv.causes_inserted hc
      refine absurd (?_ : (hash, Kind.upload) ∈ s.holds j) (hno j)
      rw [holds_of_task ht, hk]
      exact List.mem_singleton.mpr rfl
  · rcases hd.blob_cases hash with heq | ⟨blob, rfl, -⟩ | ⟨keys, -, -, hgone⟩
    · rw [heq, hnone]
    · obtain ⟨-, j, -, hin⟩ := hsw.inv.causes_put hc
      exact absurd hin (hno j)
    · exact hgone

/-- A claim on the path is the sweep's own. -/
theorem Undisturbed.own (hu : Undisturbed env i hash s a) (hi : Inv env s) {t : Task}
    (ht : s.task? i = some t) (hc : s.world.inFlight.contains hash = true) :
    ∃ k, (hash, k) ∈ t.holds := by
  obtain ⟨k, hk⟩ := Option.isSome_iff_exists.mp hc
  obtain ⟨j, hj⟩ := hi.owned.live hash k hk
  by_cases hji : j = i
  · rw [hji, holds_of_task ht] at hj
    exact ⟨k, hj⟩
  · exact absurd hj (hu.unclaimed j hji k)

/-- **Every action keeps the blob in the sweep's plan**, as long as it is there. -/
theorem swept_step (hne : hash ≠ "") (hu : Undisturbed env i hash s a)
    (hsw : Swept env i hash s) (h : s.step env a = some s') : Swept env i hash s' := by
  obtain ⟨hrow', hblob'⟩ := hu.absent hsw h
  obtain ⟨sw, ht, hq, ha⟩ := hsw.sweep
  refine ⟨inv_step hsw.inv h, hrow', ?_⟩
  -- an action that leaves task `i` alone leaves the plan as it is
  have hstay : s'.task? i = some (.sweep sw) → ∃ sw, s'.task? i = some (.sweep sw) ∧ sw.Queues ∧
      (s'.world.blob? hash ≠ none → sw.Awaits env hash) := fun ht' =>
    ⟨sw, ht', hq, fun hb' => ha fun hb => hb' (hblob' hb)⟩
  by_cases hrun : a.runs = some i
  · cases a with
    | step j o =>
      obtain rfl : i = j := (Option.some.inj hrun).symm
      simp only [step, ht, Option.bind_some, Task.step] at h
      obtain ⟨⟨w', t'⟩, hs, rfl⟩ := Option.map_eq_some_iff.mp h
      obtain ⟨sw', hstep, rfl⟩ := Task.lift_cases hs
      have ho : o ∈ (Act.step i o).oracle? i := by simp [Act.oracle?]
      refine ⟨sw', by rw [task?_put, if_pos rfl], Sweep.queues_step hstep hq, fun hb' => ?_⟩
      have hb : s.world.blob? hash ≠ none := fun hb => hb' (hblob' hb)
      refine Sweep.awaits_step hne hsw.row (hu.own hsw.inv ht) (hu.old o ho) ?_ hq (ha hb) hb
        hb' hstep
      have hreply := hu.reply o ho
      simp only [sending, ht] at hreply
      exact hreply
    | drop j =>
      obtain rfl := Option.some.inj hrun
      simp only [step, ht, Option.bind_some, Task.drop, Option.map_none] at h
      exact absurd h (by simp)
    | _ => exact absurd hrun (by simp [Act.runs])
  · refine hstay ?_
    cases step_cases h with
    | @spawned j t hnone hinit =>
      rw [task?_put, if_neg, ht]
      rintro rfl
      exact absurd (hnone.symm.trans ht) (by simp)
    | @ran a j o t t' w' haj htj hst =>
      rw [task?_put, if_neg, ht]
      rintro rfl
      exact hrun haj
    | crashed => exact absurd hu.alive (by simp [Act.kills])
    | ticked => exact ht
    | outside hr hd hf hc hn hca => exact ht

/-- **A sweep that ends well leaves no old orphan behind.** Let the path have no row when sweep `i`
starts. While it runs let the process live, nobody else be at work on the path, its blob be past the
grace wherever it is listed, and S3 delete what it says it has: if the sweep ends without an error,
the blob is gone. -/
theorem orphan_swept (env : Env δ) (i : ℕ) (hash : String) (hne : hash ≠ "") {s₀ s : Sys} {n : ℕ}
    (hinv : Inv env s₀) (hrow : s₀.world.row? hash = none)
    (hstart : s₀.task? i = some (.sweep .start))
    (h : Reach (step env) (Undisturbed env i hash) s₀ s)
    (hdone : s.task? i = some (.sweep (.done (.ok n)))) : s.world.blob? hash = none := by
  have hsw : Swept env i hash s :=
    h.invariant (I := Swept env i hash) (fun _ _ _ hI hu hs => swept_step hne hu hI hs)
      ⟨hinv, hrow, .start, hstart, trivial, fun _ => trivial⟩
  obtain ⟨sw, ht, -, hplan⟩ := hsw.sweep
  obtain rfl := Task.sweep.inj (Option.some.inj (ht.symm.trans hdone))
  by_contra hb
  exact hplan hb

/-- How many orphans sweep `i` deleted, once it has ended without an error. -/
def swept? (s : Sys) (i : ℕ) : Option ℕ :=
  match s.task? i with
  | some (.sweep (.done (.ok n))) => some n
  | _ => none

theorem swept?_eq_some {n : ℕ} (h : s.swept? i = some n) :
    s.task? i = some (.sweep (.done (.ok n))) := by
  unfold swept? at h
  split at h
  · rename_i ht
    rw [ht, Option.some.inj h]
  · exact absurd h (by simp)

end Sys

namespace Sample

/-- The bucket holds a blob of `libHash` that has no row, and task 0 is about to sweep. -/
def littered : Sys :=
  let bucket : Table String Bytes := (∅ : Table String Bytes).insert (keyFor libHash) frame
  (Sys.boot .empty bucket 7).put 0 (World.boot .empty bucket 7, .sweep .start)

/-- The sweep reads the rows, another path is pushed, and the sweep goes on: it lists both blobs. -/
def sweeping : List Act :=
  let o : Oracle := { Oracle.calm with
    page := ⟨false, none, fun _ => 86400⟩, delete := ⟨true, [keyFor libHash], []⟩ }
  .step 0 o :: push 1 "ci" ++ List.replicate 9 (.step 0 o)

end Sample

/-- A sweep beside an upload: the orphan goes, the row the sweep did not know of keeps its blob. -/
theorem Sys.orphan_swept_beside_push : ∃ s,
    Reach (step Sample.env) (Undisturbed Sample.env 0 Sample.libHash) Sample.littered s ∧
    s.world.blob? Sample.libHash = none ∧ s.world.blob? Sample.hash = some Sample.frame := by
  obtain ⟨s, hrun, hswept, hblob⟩ := exec_check (step Sample.env)
    (Undisturbed Sample.env 0 Sample.libHash) Sample.sweeping Sample.littered
    (fun s => s.swept? 0 = some 1 ∧ s.world.blob? Sample.hash = some Sample.frame)
    (by decide +kernel)
  have hinv : Inv Sample.env Sample.littered :=
    inv_step (a := .spawn 0 (.sweep .start)) (inv_boot .empty
      ((∅ : Table String Bytes).insert (keyFor Sample.libHash) Sample.frame) 7) rfl
  exact ⟨s, hrun, orphan_swept Sample.env 0 Sample.libHash (by decide) hinv rfl rfl hrun
    (swept?_eq_some hswept), hblob⟩

end Garret
