import Garret.Pusher.Multiparts

/-!
# Sweeps and uploads leave no multipart behind, and no upload without its own

What `put_streaming`, the sweep of the GC and the passes of a shutdown do to each other, in every
interleaving (`Pusher.Multiparts`):

* `streaming_kept`: while the process serves, the multipart of an upload under way is there, and no
  sweep is about to abort it, however old it is.
* `stale_aborted`: a pass that ends without an error leaves no multipart of the layout that was open
  before it began and, whenever the pass moves, past its grace and not in flight if it looks at the
  map. A shutdown's passes look at no map and have no grace (`shutdown_aborted`).
* `open_owned`: as long as no handler is cut off, S3's answers to a creation and an abort arrive and
  nobody else opens multiparts, every open multipart belongs to a handler that is still at it.

`Pass.Awaits` says where the multipart still is in a pass's plan, `Owned` who answers for it.
-/

namespace Garret.Multiparts

open Garret.Lib

/-! ## A run to look at -/

namespace Sample

/-- What the outside does when all goes well. -/
def calm : Outside := ⟨.done, .part, none, false, false⟩

/-- Task 0 opens a multipart and streams to it; another one is left behind by somebody else. -/
def opening : List Act :=
  [.spawn 0 (.put (.start "a")), .step 0 calm, .step 0 calm, .outside (.stray (keyFor "b")),
    .outside (.tick 100)]

/-- Where that leads. -/
def opened : State :=
  (exec program.step (fun _ _ => True) opening (.boot (.boot 0))).get (by decide +kernel)

theorem reach_opened : Reach program.step (fun _ _ => True) (.boot (.boot 0)) opened :=
  exec_reach (Option.some_get _).symm

/-- Task 1, a pass, begins and makes `n` steps. -/
def passing (consults : Bool) (grace : Int) (n : ℕ) : List Act :=
  .spawn 1 (.pass (.start consults grace)) :: List.replicate n (.step 1 calm)

end Sample

instance (s : State) : ∀ a : Act, Decidable (Serving s a)
  | .spawn _ (.pass p) => inferInstanceAs (Decidable (p.consults = true))
  | .spawn _ (.put _) => .isTrue trivial
  | .spawn _ (.deletion _) => .isTrue trivial
  | .step _ _ => .isTrue trivial
  | .outside _ => .isTrue trivial
  | .crash _ => .isTrue trivial

/-! ## An upload keeps its multipart -/

/-- **No sweep aborts an upload under way.** In every run of a serving process, an upload that
streams its parts holds its path and finds its multipart open under it, no pass is about to abort
it, and completing it ends the upload well. -/
theorem streaming_kept {clock : Int} {s : State} {i id : ℕ} {hash : String}
    (h : Reach program.step Serving (.boot (.boot clock)) s)
    (ht : s.task? i = some (.put (.streaming hash id))) :
    s.shared.inFlight.kind hash = some .upload ∧
    (∃ x, s.shared.upload? id = some x ∧ x.key = keyFor hash) ∧
    (∀ j p, s.task? j = some (.pass p) → p.aborts? ≠ some id) ∧
    ∀ o : Outside, o.dropped = false → o.body = .ends → o.reply = .done →
      program.step s (.step i o) = some (s.put i (s.shared.close id, .put (.stored hash))) := by
  have hinv := invariant h
  have hwell := hinv.task i _ ht
  obtain ⟨hheld, x, hx, hkey⟩ := hwell.streams hash id rfl
  refine ⟨hwell.holds hash .upload hheld, ⟨x, hx, hkey⟩, fun j p hp ha => ?_, fun o hd hb hr => ?_⟩
  · have hij : j ≠ i := by
      rintro rfl
      exact absurd (ht.symm.trans hp) (by simp)
    exact (hinv.pair j i _ _ hij hp ht).closes hash id ha rfl
  · simp only [Program.step, ht, Option.bind_some, program, Task.step, hd, Put.step, hb, hr, hx]
    rfl

/-- Beside a sweep without a grace that is about to abort the other multipart. -/
theorem streaming_kept_beside_sweep : ∃ s, Reach program.step Serving (.boot (.boot 0)) s ∧
    pass? s 1 = some ⟨true, 0, 0, .abort 1 [] none⟩ ∧
    (∃ x, s.shared.upload? 0 = some x ∧ x.key = keyFor "a") := by
  obtain ⟨s, hrun, ht, hp⟩ := exec_check program.step Serving
    (Sample.opening ++ Sample.passing true 0 3) (.boot (.boot 0))
    (fun s => s.task? 0 = some (.put (.streaming "a" 0)) ∧
      pass? s 1 = some ⟨true, 0, 0, .abort 1 [] none⟩) (by decide +kernel)
  exact ⟨s, hrun, hp, (streaming_kept hrun ht).2.1⟩

/-! ## A pass aborts what is stale -/

/-- The listing is cut short after this upload, or it said nothing of where it continues. -/
def ToCome (e : Listed) (next : Option (Option Marker)) : Prop :=
  next = some none ∨ ∃ m, next = some (some m) ∧ m.before e.key e.id

/-- Where an open multipart is in a pass's plan. -/
def Pass.Awaits (e : Listed) (p : Pass) : Prop :=
  match p.pc with
  | .list marker => ∀ m ∈ marker, m.before e.key e.id
  | .entries todo next => e ∈ todo ∨ ToCome e next
  | .abort id todo next => id = e.id ∨ e ∈ todo ∨ ToCome e next
  | .done (.ok _) => False
  | .done (.error _) => True

/-- A multipart that is open and after the marker is on the page, or on one to come. -/
theorem listed_or_toCome {w : World} {o : Outside} {marker : Option Marker} {e : Listed}
    (hopen : w.upload? e.id = some ⟨e.key, e.initiated⟩) (hm : ∀ m ∈ marker, m.before e.key e.id) :
    e ∈ listPage w marker o.upTo ∨ ToCome e o.next := by
  by_cases hup : ∀ m ∈ o.upTo, ¬ m.before e.key e.id
  · refine Or.inl ((List.mem_insertionSort _).mpr (List.mem_map.mpr ?_))
    refine ⟨⟨e.id, ⟨e.key, e.initiated⟩⟩, List.mem_filter.mpr ⟨?_, ?_⟩, rfl⟩
    · exact Table.lookup_eq_some_iff.mp hopen
    · exact decide_eq_true ⟨hm, hup⟩
  · push Not at hup
    obtain ⟨m, hmem, hbefore⟩ := hup
    have hup : o.upTo = some m := hmem
    refine Or.inr ?_
    cases hu : o.unmarked with
    | true => exact Or.inl (by simp [Outside.next, hup, hu])
    | false => exact Or.inr ⟨m, by simp [Outside.next, hup, hu], hbefore⟩

/-- **A step of a pass keeps a stale multipart in its plan**, or closes it. -/
theorem Pass.awaits_step {w w' : World} {o : Outside} {p p' : Pass} {e : Listed} {hash : String}
    (hopen : w.upload? e.id = some ⟨e.key, e.initiated⟩) (hh : hashFor e.key = some hash)
    (hf : p.consults = true → w.inFlight.contains hash = false) (hg : p.grace ≤ age w e)
    (ha : p.Awaits e) (h : p.step w o = some (w', p')) (hstill : w'.upload? e.id ≠ none) :
    p'.Awaits e := by
  obtain ⟨consults, grace, aborted, pc⟩ := p
  cases pc with
  | list marker =>
    simp only [step] at h
    split at h
    · obtain ⟨rfl, rfl⟩ := Prod.mk.inj (Option.some.inj h)
      exact listed_or_toCome hopen ha
    · obtain ⟨rfl, rfl⟩ := Prod.mk.inj (Option.some.inj h)
      exact trivial
  | entries todo next =>
    cases todo with
    | nil =>
      rcases ha with hin | hcome
      · exact absurd hin List.not_mem_nil
      · rcases next with _ | _ | m
        all_goals obtain ⟨rfl, rfl⟩ := Prod.mk.inj (Option.some.inj h)
        · rcases hcome with hcome | ⟨m, hcome, -⟩
          · exact absurd hcome (by simp)
          · exact absurd hcome (by simp)
        · exact trivial
        · rcases hcome with hcome | ⟨m', hcome, hbefore⟩
          · exact absurd hcome (by simp)
          · intro x hx
            obtain rfl := Option.some.inj (Option.some.inj hcome)
            obtain rfl : m = x := Option.some.inj hx
            exact hbefore
    | cons x todo =>
      -- another entry than ours leaves ours where it is
      have hrest : x ≠ e → e ∈ todo ∨ ToCome e next := by
        intro hne
        rcases ha with hin | hcome
        · rcases List.mem_cons.mp hin with rfl | hin
          · exact absurd rfl hne
          · exact Or.inl hin
        · exact Or.inr hcome
      simp only [step] at h
      split at h
      · rename_i hnone
        obtain ⟨rfl, rfl⟩ := Prod.mk.inj (Option.some.inj h)
        refine hrest ?_
        rintro rfl
        exact absurd (hh.symm.trans hnone) (by simp)
      · rename_i hash' hhash'
        split at h
        · rename_i hskip
          obtain ⟨rfl, rfl⟩ := Prod.mk.inj (Option.some.inj h)
          refine hrest ?_
          rintro rfl
          obtain rfl := Option.some.inj (hh.symm.trans hhash')
          rcases Bool.or_eq_true_iff.mp hskip with hskip | hskip
          · obtain ⟨hc, hin⟩ := Bool.and_eq_true_iff.mp hskip
            exact absurd (hin.symm.trans (hf hc)) (by simp)
          · exact absurd hg (not_le.mpr (of_decide_eq_true hskip))
        · obtain ⟨rfl, rfl⟩ := Prod.mk.inj (Option.some.inj h)
          by_cases hx : x = e
          · exact Or.inl (congrArg Listed.id hx)
          · exact Or.inr (hrest hx)
  | abort id todo next =>
    simp only [step] at h
    split at h
    · obtain ⟨rfl, rfl⟩ := Prod.mk.inj (Option.some.inj h)
      rcases ha with rfl | ha
      · exact absurd (by rw [World.upload?_close, if_pos rfl]) hstill
      · exact ha
    · obtain ⟨rfl, rfl⟩ := Prod.mk.inj (Option.some.inj h)
      exact trivial
    · obtain ⟨rfl, rfl⟩ := Prod.mk.inj (Option.some.inj h)
      exact trivial
  | done r => exact absurd h (by simp [step])

/-- Whenever pass `i` moves, the multipart is past its grace, and not in flight if it looks. -/
def Stale (i : ℕ) (hash : String) (x : Entry) (s : State) : Act → Prop
  | .step j _ => j = i → ∀ p ∈ pass? s i,
      (p.consults = true → s.shared.inFlight.contains hash = false) ∧
        p.grace ≤ max 0 (s.shared.clock - x.initiated)
  | _ => True

instance (i : ℕ) (hash : String) (x : Entry) (s : State) : ∀ a : Act, Decidable (Stale i hash x s a)
  | .step j _ => inferInstanceAs (Decidable (j = i → ∀ p ∈ pass? s i, _))
  | .spawn _ _ => .isTrue trivial
  | .outside _ => .isTrue trivial
  | .crash _ => .isTrue trivial

theorem stale_of_pass {i : ℕ} {hash : String} {x : Entry} {s : State}
    (h : ∀ p ∈ pass? s i, (p.consults = true → s.shared.inFlight.contains hash = false) ∧
      p.grace ≤ max 0 (s.shared.clock - x.initiated)) (a : Act) : Stale i hash x s a := by
  cases a with
  | step j o => exact fun _ => h
  | _ => trivial

/-- The multipart was given its id, is what it was as long as it is open, and has its place in the
plan of task `i`. -/
structure Awaited (i id : ℕ) (x : Entry) (s : State) : Prop where
  fresh : s.shared.Fresh
  given : id < s.shared.nextId
  same : ∀ y, s.shared.upload? id = some y → y = x
  awaits : ∀ p, s.task? i = some (.pass p) → s.shared.upload? id = some x →
    p.Awaits ⟨id, x.key, x.initiated⟩

section
variable {s s' : State} {a : Act} {i id : ℕ} {x : Entry} {hash : String}

/-- An action leaves open multiparts as they are, or closes them. -/
theorem old_of_step (hw : s.shared.Fresh) (h : program.step s a = some s') :
    s'.shared.Fresh ∧ s.shared.nextId ≤ s'.shared.nextId ∧
      ∀ id x, id < s.shared.nextId → s'.shared.upload? id = some x →
        s.shared.upload? id = some x := by
  cases Program.step_cases h with
  | spawned hnone hi => exact ⟨hw, Nat.le_refl _, fun _ _ _ h => h⟩
  | ran ht hrun =>
    have hm := (Task.step_cases hrun).moves hw
    exact ⟨hm.fresh, hm.nextId, hm.old⟩
  | @outside e w' hout =>
    obtain rfl := Option.some.inj hout
    cases e with
    | tick now => exact ⟨hw, Nat.le_refl _, fun _ _ _ h => h⟩
    | stray key =>
      have hm := World.moves_create (t := .deletion .ended) hw key
      exact ⟨hm.fresh, hm.nextId, hm.old⟩
  | crashed => exact ⟨hw, Nat.le_refl _, fun _ _ _ h => h⟩

/-- **Every action keeps a stale multipart in the pass's plan.** -/
theorem awaited_step (hhash : hashFor x.key = some hash) (hok : Stale i hash x s a)
    (hi : Awaited i id x s) (h : program.step s a = some s') : Awaited i id x s' := by
  obtain ⟨hfresh, hmono, hold⟩ := old_of_step hi.fresh h
  have hback : ∀ y, s'.shared.upload? id = some y → s.shared.upload? id = some y := fun y hy =>
    hold id y hi.given hy
  refine ⟨hfresh, Nat.lt_of_lt_of_le hi.given hmono, fun y hy => hi.same y (hback y hy),
    fun p hp hopen => ?_⟩
  cases Program.step_cases h with
  | @spawned j t hnone hinit =>
    rw [Tasks.task?_put] at hp
    split at hp
    · -- a pass that begins has all pages to come
      obtain rfl := Option.some.inj hp
      obtain ⟨consults, grace, aborted, pc⟩ := p
      cases pc with
      | list marker =>
        cases marker with
        | none => exact fun m hm => absurd hm (by simp)
        | some m => exact absurd hinit (by simp [program, Task.initial])
      | _ => exact absurd hinit (by simp [program, Task.initial])
    · exact hi.awaits p hp hopen
  | @ran j o t t' w' ht hrun =>
    rw [Tasks.task?_put] at hp
    split at hp
    · rename_i hij
      subst hij
      obtain rfl := Option.some.inj hp
      cases t with
      | pass p₀ =>
        obtain ⟨⟨w₁, p₁⟩, hstep, he⟩ := Option.map_eq_some_iff.mp hrun
        obtain ⟨rfl, hp₁⟩ := Prod.mk.inj he
        obtain rfl := Task.pass.inj hp₁
        obtain ⟨hf, hg⟩ := hok rfl p₀ (pass?_eq ht)
        refine Pass.awaits_step (hback x hopen) hhash hf hg (hi.awaits p₀ ht (hback x hopen))
          hstep fun hnone => ?_
        exact absurd (hnone.symm.trans hopen) (by simp)
      | put q =>
        obtain ⟨⟨w₁, q₁⟩, -, he⟩ := Option.map_eq_some_iff.mp hrun
        exact absurd (Prod.mk.inj he).2 (by simp)
      | deletion d =>
        obtain ⟨⟨w₁, d₁⟩, -, he⟩ := Option.map_eq_some_iff.mp hrun
        exact absurd (Prod.mk.inj he).2 (by simp)
    · exact hi.awaits p hp (hback x hopen)
  | outside hout => exact hi.awaits p hp (hback x hopen)
  | crashed => exact absurd hp (by simp)

/-- A run of any kind gives ids in order. -/
theorem fresh_reach {ok : State → Act → Prop} {clock : Int}
    (h : Reach program.step ok (.boot (.boot clock)) s) : s.shared.Fresh :=
  h.invariant (I := fun s => s.shared.Fresh) (fun _ _ _ hw _ hs => (old_of_step hw hs).1)
    fun _ _ h => absurd h (by simp [World.upload?, World.boot])

/-- What a run keeps in the plan of a pass that begins in it. -/
theorem awaited_reach {ok : State → Act → Prop} {s₀ : State} (hhash : hashFor x.key = some hash)
    (hw : s₀.shared.Fresh) (hnone : s₀.task? i = none) (hopen : s₀.shared.upload? id = some x)
    (hok : ∀ s a, ok s a → Stale i hash x s a) (h : Reach program.step ok s₀ s) :
    Awaited i id x s :=
  h.invariant (I := Awaited i id x) (fun s a _ hI ha hs => awaited_step hhash (hok s a ha) hI hs)
    ⟨hw, hw id x hopen, fun _ hy => Option.some.inj (hy.symm.trans hopen),
      fun p hp => absurd (hnone.symm.trans hp) (by simp)⟩

/-- A pass that is done without an error has nothing left to abort. -/
theorem Awaited.closed {p : Pass} (hi : Awaited i id x s) (ht : s.task? i = some (.pass p))
    (hd : p.pc = .done (.ok ())) : s.shared.upload? id = none := by
  by_contra hne
  obtain ⟨y, hy⟩ := Option.ne_none_iff_exists'.mp hne
  obtain rfl := hi.same y hy
  have := hi.awaits p ht hy
  rw [Pass.Awaits, hd] at this
  exact this

end

/-- **A pass that ends well leaves no stale multipart.** Let a multipart of the layout be open when
pass `i` has not begun, and be past the grace and not in flight whenever the pass moves: once the
pass has ended without an error, the multipart is closed, whatever else went on. -/
theorem stale_aborted {clock : Int} {s₀ s : State} {i id : ℕ} {x : Entry} {hash : String} {p : Pass}
    (hboot : Reach program.step (fun _ _ => True) (.boot (.boot clock)) s₀)
    (hnone : s₀.task? i = none) (hopen : s₀.shared.upload? id = some x)
    (hhash : hashFor x.key = some hash) (h : Reach program.step (Stale i hash x) s₀ s)
    (ht : s.task? i = some (.pass p)) (hd : p.pc = .done (.ok ())) :
    s.shared.upload? id = none :=
  (awaited_reach hhash (fresh_reach hboot) hnone hopen (fun _ _ h => h) h).closed ht hd

/-- The sweep ends while the upload goes on. -/
theorem stale_aborted_beside_upload : ∃ s,
    Reach program.step (Stale 1 "b" ⟨keyFor "b", 0⟩) Sample.opened s ∧
    s.shared.upload? 1 = none ∧ s.task? 0 = some (.put (.streaming "a" 0)) := by
  obtain ⟨s, hrun, ht, hput⟩ := exec_check program.step (Stale 1 "b" ⟨keyFor "b", 0⟩)
    (Sample.passing true 50 5) Sample.opened
    (fun s => s.task? 1 = some (.pass ⟨true, 50, 1, .done (.ok ())⟩) ∧
      s.task? 0 = some (.put (.streaming "a" 0))) (by decide +kernel)
  exact ⟨s, hrun, stale_aborted (x := ⟨keyFor "b", 0⟩) Sample.reach_opened (by decide +kernel)
    (by decide +kernel) (by decide +kernel) hrun ht rfl, hput⟩

/-- **A pass of the shutdown that ends well leaves nothing of the layout that was open before it**:
it looks at no map and has no grace, so all that is asked is that the key be a blob's. -/
theorem shutdown_aborted {clock : Int} {s₀ s : State} {i id : ℕ} {x : Entry} {hash : String}
    {p : Pass} (hboot : Reach program.step (fun _ _ => True) (.boot (.boot clock)) s₀)
    (hnone : s₀.task? i = none) (hopen : s₀.shared.upload? id = some x)
    (hhash : hashFor x.key = some hash)
    (h : Reach program.step
      (fun s _ => ∀ q ∈ pass? s i, q.consults = false ∧ q.grace = 0) s₀ s)
    (ht : s.task? i = some (.pass p)) (hd : p.pc = .done (.ok ())) :
    s.shared.upload? id = none := by
  refine (awaited_reach hhash (fresh_reach hboot) hnone hopen
    (fun s a hs => stale_of_pass (fun q hq => ?_) a) h).closed ht hd
  obtain ⟨hc, hg⟩ := hs q hq
  refine ⟨fun hc' => absurd (hc.symm.trans hc') (by simp), ?_⟩
  rw [hg]
  exact le_max_left 0 _

/-- It aborts the upload that was cut off and the one left behind. -/
theorem shutdown_aborted_both : ∃ s,
    Reach program.step (fun s _ => ∀ q ∈ pass? s 1, q.consults = false ∧ q.grace = 0)
      Sample.opened s ∧ s.shared.upload? 0 = none ∧ s.shared.upload? 1 = none := by
  obtain ⟨s, hrun, ht⟩ := exec_check program.step
    (fun s _ => ∀ q ∈ pass? s 1, q.consults = false ∧ q.grace = 0)
    (Sample.passing false 0 6) Sample.opened
    (fun s => s.task? 1 = some (.pass ⟨false, 0, 2, .done (.ok ())⟩)) (by decide +kernel)
  exact ⟨s, hrun,
    shutdown_aborted (x := ⟨keyFor "a", 0⟩) Sample.reach_opened (by decide +kernel)
      (by decide +kernel) (by decide +kernel : hashFor (keyFor "a") = some "a") hrun ht rfl,
    shutdown_aborted (x := ⟨keyFor "b", 0⟩) Sample.reach_opened (by decide +kernel)
      (by decide +kernel) (by decide +kernel : hashFor (keyFor "b") = some "b") hrun ht rfl⟩

/-! ## Who answers for an open multipart -/

/-- The path and the multipart a handler has opened and not given up. -/
def Put.opened? : Put → Option (String × ℕ)
  | streaming hash id => some (hash, id)
  | aborting hash id => some (hash, id)
  | _ => none

/-- The answer to a creation arrives, and an abort of what is open is not refused. -/
def Put.tidy (w : World) (r : Reply) : Put → Bool
  | claimed _ => decide (r ≠ .lost)
  | aborting _ id => decide (r = .refused → w.upload? id = none)
  | _ => true

/-- Nothing is cut off: no handler is dropped and the process lives, the answer to a creation
arrives, an abort of what is open is not refused, and nobody else opens multiparts. -/
def Tidy (s : State) : Act → Prop
  | .step i o => o.dropped = false ∧ ∀ p ∈ put? s i, p.tidy s.shared o.reply = true
  | .outside (.stray _) => False
  | .crash _ => False
  | _ => True

instance (s : State) : ∀ a : Act, Decidable (Tidy s a)
  | .step i o => inferInstanceAs (Decidable (o.dropped = false ∧ ∀ p ∈ put? s i, _))
  | .outside (.stray _) => .isFalse id
  | .crash _ => .isFalse id
  | .outside (.tick _) => .isTrue trivial
  | .spawn _ _ => .isTrue trivial

/-- Every open multipart is a running handler's. -/
def Owned (s : State) : Prop :=
  ∀ id x, s.shared.upload? id = some x →
    ∃ i p hash, s.task? i = some (.put p) ∧ p.opened? = some (hash, id) ∧ x.key = keyFor hash

/-- What is open after a handler's step is its own, or was open and somebody else's. -/
theorem Put.opened_step {w w' : World} {o : Outside} {p p' : Put}
    (ht : p.tidy w o.reply = true) (h : p.step w o = some (w', p')) {id : ℕ} {x : Entry}
    (hx : w'.upload? id = some x) :
    (∃ hash, p'.opened? = some (hash, id) ∧ x.key = keyFor hash) ∨ w.upload? id = some x ∧
      ∀ hash, p.opened? = some (hash, id) → p'.opened? = some (hash, id) := by
  have hclosed : ∀ {i : ℕ}, (w.close i).upload? id = some x → id ≠ i ∧ w.upload? id = some x := by
    intro i hx
    rw [World.upload?_close] at hx
    split at hx
    · exact absurd hx (by simp)
    · exact ⟨‹_›, hx⟩
  cases p with
  | start hash =>
    simp only [step] at h
    split at h
    all_goals
      obtain ⟨rfl, rfl⟩ := Prod.mk.inj (Option.some.inj h)
      exact Or.inr ⟨hx, fun _ h => absurd h (by simp [opened?])⟩
  | claimed hash =>
    simp only [step] at h
    split at h
    · obtain ⟨rfl, rfl⟩ := Prod.mk.inj (Option.some.inj h)
      exact Or.inr ⟨hx, fun _ h => absurd h (by simp [opened?])⟩
    · obtain ⟨rfl, rfl⟩ := Prod.mk.inj (Option.some.inj h)
      exact Or.inr ⟨hx, fun _ h => absurd h (by simp [opened?])⟩
    · split at h
      · obtain ⟨rfl, rfl⟩ := Prod.mk.inj (Option.some.inj h)
        rw [World.upload?_create] at hx
        split at hx
        · rename_i hid
          exact Or.inl ⟨hash, by rw [hid]; rfl, by rw [← Option.some.inj hx]⟩
        · exact Or.inr ⟨hx, fun _ h => absurd h (by simp [opened?])⟩
      · rename_i hlost
        exact absurd hlost (of_decide_eq_true ht)
      · obtain ⟨rfl, rfl⟩ := Prod.mk.inj (Option.some.inj h)
        exact Or.inr ⟨hx, fun _ h => absurd h (by simp [opened?])⟩
  | streaming hash i =>
    simp only [step] at h
    split at h
    · obtain ⟨rfl, rfl⟩ := Prod.mk.inj (Option.some.inj h)
      exact Or.inr ⟨hx, fun _ h => h⟩
    · obtain ⟨rfl, rfl⟩ := Prod.mk.inj (Option.some.inj h)
      exact Or.inr ⟨hx, fun _ h => h⟩
    · split at h
      · obtain ⟨rfl, rfl⟩ := Prod.mk.inj (Option.some.inj h)
        exact Or.inr ⟨hx, fun _ h => h⟩
      · split at h
        · obtain ⟨rfl, rfl⟩ := Prod.mk.inj (Option.some.inj h)
          obtain ⟨hne, hx⟩ := hclosed hx
          exact Or.inr ⟨hx, fun _ h => absurd (Prod.mk.inj (Option.some.inj h)).2.symm hne⟩
        · obtain ⟨rfl, rfl⟩ := Prod.mk.inj (Option.some.inj h)
          exact Or.inr ⟨(hclosed hx).2, fun _ h => h⟩
        · obtain ⟨rfl, rfl⟩ := Prod.mk.inj (Option.some.inj h)
          exact Or.inr ⟨hx, fun _ h => h⟩
  | aborting hash i =>
    simp only [step] at h
    obtain ⟨rfl, rfl⟩ := Prod.mk.inj (Option.some.inj h)
    have hother : id ≠ i ∧ w.upload? id = some x := by
      cases hrep : o.reply with
      | refused =>
        -- what is refused had closed already
        have hgone : w.upload? i = none := of_decide_eq_true ht hrep
        rw [if_neg (by simp [hrep, Reply.applied])] at hx
        refine ⟨?_, hx⟩
        rintro rfl
        exact absurd (hgone.symm.trans hx) (by simp)
      | _ =>
        rw [if_pos (by simp [hrep, Reply.applied])] at hx
        exact hclosed hx
    exact Or.inr ⟨hother.2, fun _ h => absurd (Prod.mk.inj (Option.some.inj h)).2.symm hother.1⟩
  | stored hash =>
    obtain ⟨rfl, rfl⟩ := Prod.mk.inj (Option.some.inj h)
    exact Or.inr ⟨hx, fun _ h => absurd h (by simp [opened?])⟩
  | ended => exact absurd h (by simp [step])

/-- A step of task `i` that opens nothing leaves the owners, as long as `i` was none of them. -/
theorem Owned.put {s : State} {i : ℕ} {w' : World} {t t' : Task} (ho : Owned s)
    (ht : s.task? i = some t) (hp : ∀ p, t ≠ .put p)
    (hold : ∀ id x, w'.upload? id = some x → s.shared.upload? id = some x) :
    Owned (s.put i (w', t')) := by
  intro id x hx
  obtain ⟨j, p, hash, hj, hopen, hkey⟩ := ho id x (hold id x hx)
  refine ⟨j, p, hash, ?_, hopen, hkey⟩
  rw [Tasks.task?_put, if_neg, hj]
  rintro rfl
  exact hp p (Option.some.inj (ht.symm.trans hj))

theorem owned_step {s s' : State} {a : Act} (hok : Tidy s a) (ho : Owned s)
    (h : program.step s a = some s') : Owned s' := by
  cases Program.step_cases h with
  | @spawned i t hnone hinit =>
    intro id x hx
    obtain ⟨j, p, hash, hj, hopen, hkey⟩ := ho id x hx
    refine ⟨j, p, hash, ?_, hopen, hkey⟩
    rw [Tasks.task?_put, if_neg, hj]
    rintro rfl
    exact absurd (hnone.symm.trans hj) (by simp)
  | @ran i o t t' w' ht hrun =>
    obtain ⟨hdrop, htidy⟩ := hok
    cases t with
    | put p =>
      obtain ⟨⟨w₁, p'⟩, hstep, he⟩ := Option.map_eq_some_iff.mp hrun
      obtain ⟨rfl, rfl⟩ := Prod.mk.inj he
      rw [if_neg (by simp [hdrop])] at hstep
      intro id x hx
      have hcases := Put.opened_step (htidy p (put?_eq ht)) hstep hx
      rcases hcases with ⟨hash, hopen, hkey⟩ | ⟨hx, hkeeps⟩
      · exact ⟨i, p', hash, by rw [Tasks.task?_put, if_pos rfl], hopen, hkey⟩
      · obtain ⟨j, q, hash, hj, hopen, hkey⟩ := ho id x hx
        by_cases hji : j = i
        · subst hji
          obtain rfl := Task.put.inj (Option.some.inj (hj.symm.trans ht))
          exact ⟨j, p', hash, by rw [Tasks.task?_put, if_pos rfl], hkeeps hash hopen, hkey⟩
        · exact ⟨j, q, hash, by rw [Tasks.task?_put, if_neg hji, hj], hopen, hkey⟩
    | pass p =>
      obtain ⟨⟨w₁, p'⟩, hstep, he⟩ := Option.map_eq_some_iff.mp hrun
      obtain ⟨rfl, rfl⟩ := Prod.mk.inj he
      refine ho.put ht (by simp) fun id x hx => ?_
      cases Pass.step_cases hstep with
      | @closes pc k n hp hl ha =>
        have hx : (s.shared.close k).upload? id = some x := hx
        rw [World.upload?_close] at hx
        split at hx
        · exact absurd hx (by simp)
        · exact hx
      | _ => exact hx
    | deletion d =>
      obtain ⟨⟨w₁, d'⟩, hstep, he⟩ := Option.map_eq_some_iff.mp hrun
      obtain ⟨rfl, rfl⟩ := Prod.mk.inj he
      exact ho.put ht (by simp) fun id x hx => (Deleting.upload?_step hstep id).symm.trans hx
  | @outside e w' hout =>
    obtain rfl := Option.some.inj hout
    cases e with
    | tick now => exact ho
    | stray key => exact absurd hok (by simp [Tidy])
  | crashed => exact absurd hok (by simp [Tidy])

/-- **Nothing leaks while nothing is cut off.** In every run in which no handler is dropped, the
process lives, nobody else opens multiparts, every creation is answered and no abort of an open
multipart is refused, each open multipart is one that a running handler streams to or is about to
abort; with no handler left none is open. -/
theorem open_owned {clock : Int} {s : State}
    (h : Reach program.step Tidy (.boot (.boot clock)) s) :
    (∀ id x, s.shared.upload? id = some x → ∃ i hash, x.key = keyFor hash ∧
      (s.task? i = some (.put (.streaming hash id)) ∨
        s.task? i = some (.put (.aborting hash id)))) ∧
    ((∀ i p, s.task? i = some (.put p) → p = .ended) → ∀ id, s.shared.upload? id = none) := by
  have ho : Owned s := h.invariant (I := Owned) (fun _ _ _ hI hok hs => owned_step hok hI hs)
    fun _ _ h => absurd h (by simp [World.upload?, World.boot])
  constructor
  · intro id x hx
    obtain ⟨i, p, hash, ht, hopen, hkey⟩ := ho id x hx
    refine ⟨i, hash, hkey, ?_⟩
    cases p with
    | streaming h k =>
      obtain ⟨rfl, rfl⟩ := Prod.mk.inj (Option.some.inj hopen)
      exact Or.inl ht
    | aborting h k =>
      obtain ⟨rfl, rfl⟩ := Prod.mk.inj (Option.some.inj hopen)
      exact Or.inr ht
    | _ => exact absurd hopen (by simp [Put.opened?])
  · intro hended id
    by_contra hne
    obtain ⟨x, hx⟩ := Option.ne_none_iff_exists'.mp hne
    obtain ⟨i, p, hash, ht, hopen, -⟩ := ho id x hx
    rw [hended i p ht] at hopen
    exact absurd hopen (by simp [Put.opened?])

/-- An upload whose completion S3 did and whose answer was lost aborts what is no longer there, and
nothing is left. -/
theorem open_owned_after_lost_completion : ∃ s,
    Reach program.step Tidy (.boot (.boot 0)) s ∧ s.shared.nextId = 1 ∧
    ∀ id, s.shared.upload? id = none := by
  have hrun := exec_check program.step Tidy
    [.spawn 0 (.put (.start "a")), .step 0 Sample.calm, .step 0 Sample.calm,
      .step 0 ⟨.lost, .ends, none, false, false⟩, .step 0 ⟨.refused, .part, none, false, false⟩]
    (.boot (.boot 0))
    (fun s => s.shared.nextId = 1 ∧
      s.table.entries.all (fun e => decide (e.2 = .put .ended)) = true) (by decide +kernel)
  obtain ⟨s, hrun, hid, hall⟩ := hrun
  refine ⟨s, hrun, hid, (open_owned hrun).2 fun i p hp => ?_⟩
  have := List.all_eq_true.mp hall _ (Table.lookup_eq_some_iff.mp hp)
  exact Task.put.inj (of_decide_eq_true this)

end Garret.Multiparts
