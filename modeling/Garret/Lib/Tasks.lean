import Garret.Lib.Run
import Garret.Lib.Table

/-!
# Tasks over shared state

Any number of tasks, each with a state of its own, over one shared state. A step of a task may
depend on what the outside decides in it; an outside event moves the shared state alone, and a crash
ends every task and leaves of the shared state what the outside decides. A `Program` says what the
tasks and the outside do, `Program.step` runs one action, and a run is a `Reach` over it, with any
interleaving.

`Program.Invariant` is the shape of what such systems keep: something of the whole, something of
each task and the shared state, and something of any two tasks. `Program.Keeps` lists what is to be
shown for it, where a task's step is held against the task itself and against every other task;
`Program.Keeps.reach` is the rule.
-/

namespace Garret.Lib

/-- The shared state and the tasks. A finished task stays, with its result. -/
structure Tasks (ω τ : Type) where
  shared : ω
  table : Table ℕ τ

namespace Tasks

variable {ω τ : Type}

/-- No task yet. -/
def boot (w : ω) : Tasks ω τ := ⟨w, ∅⟩

/-- Task `i`. -/
def task? (s : Tasks ω τ) (i : ℕ) : Option τ := s.table.lookup i

/-- Task `i` goes on from `x`. -/
def put (s : Tasks ω τ) (i : ℕ) (x : ω × τ) : Tasks ω τ := ⟨x.1, s.table.insert i x.2⟩

@[simp] theorem shared_boot (w : ω) : (boot w : Tasks ω τ).shared = w := rfl

@[simp] theorem task?_boot (w : ω) (i : ℕ) : (boot w : Tasks ω τ).task? i = none := rfl

@[simp] theorem shared_put (s : Tasks ω τ) (i : ℕ) (x : ω × τ) : (s.put i x).shared = x.1 := rfl

theorem task?_put (s : Tasks ω τ) (i j : ℕ) (x : ω × τ) :
    (s.put i x).task? j = if j = i then some x.2 else s.task? j := Table.lookup_insert_eq

theorem eq_boot {s : Tasks ω τ} (h : s.table = ∅) : s = boot s.shared := by
  cases s
  cases h
  rfl

/-- What can happen next. -/
inductive Act (τ ο ε : Type) where
  | spawn (i : ℕ) (t : τ)
  | step (i : ℕ) (o : ο)
  | outside (e : ε)
  /-- The process dies and starts again, without its tasks. -/
  | crash (o : ο)

end Tasks

/-- What the tasks and the outside do. -/
structure Program (ω τ ο ε : Type) where
  /-- A task before its first step. -/
  initial : τ → Bool
  /-- One step of task `me`; `none` when it cannot move. -/
  run : ℕ → ω → ο → τ → Option (ω × τ)
  /-- An event from outside. -/
  outside : ω → ε → Option ω
  /-- What a new process finds. -/
  restart : ω → ο → ω

namespace Program

open Tasks (Act)

variable {ω τ ο ε : Type} (p : Program ω τ ο ε)

/-- One action; `none` when it is not possible. -/
def step (s : Tasks ω τ) : Act τ ο ε → Option (Tasks ω τ)
  | .spawn i t => if (s.task? i).isNone && p.initial t then some (s.put i (s.shared, t)) else none
  | .step i o => (s.task? i).bind fun t => (p.run i s.shared o t).map (s.put i)
  | .outside e => (p.outside s.shared e).map fun w => { s with shared := w }
  | .crash o => some (.boot (p.restart s.shared o))

/-- The actions, one constructor each. -/
inductive Stepped (s : Tasks ω τ) : Act τ ο ε → Tasks ω τ → Prop
  | spawned {i : ℕ} {t : τ} (hnone : s.task? i = none) (hi : p.initial t = true) :
    Stepped s (.spawn i t) (s.put i (s.shared, t))
  | ran {i : ℕ} {o : ο} {t t' : τ} {w' : ω} (ht : s.task? i = some t)
    (h : p.run i s.shared o t = some (w', t')) : Stepped s (.step i o) (s.put i (w', t'))
  | outside {e : ε} {w' : ω} (h : p.outside s.shared e = some w') :
    Stepped s (.outside e) { s with shared := w' }
  | crashed {o : ο} : Stepped s (.crash o) (.boot (p.restart s.shared o))

variable {p} {s s' : Tasks ω τ} {a : Act τ ο ε}

theorem step_cases (h : p.step s a = some s') : p.Stepped s a s' := by
  cases a with
  | spawn i t =>
    simp only [step] at h
    split at h
    · rename_i hi
      obtain rfl := Option.some.inj h
      simp only [Bool.and_eq_true, Option.isNone_iff_eq_none] at hi
      exact .spawned hi.1 hi.2
    · exact absurd h (by simp)
  | step i o =>
    obtain ⟨t, ht, h⟩ := Option.bind_eq_some_iff.mp h
    obtain ⟨⟨w', t'⟩, hrun, rfl⟩ := Option.map_eq_some_iff.mp h
    exact .ran ht hrun
  | outside e =>
    obtain ⟨w', hw, rfl⟩ := Option.map_eq_some_iff.mp h
    exact .outside hw
  | crash o =>
    obtain rfl := Option.some.inj h
    exact .crashed

/-- Something of the whole, of each task and of any two tasks. -/
structure Invariant (G : Tasks ω τ → Prop) (L : ℕ → ω → τ → Prop) (P : τ → τ → Prop)
    (s : Tasks ω τ) : Prop where
  whole : G s
  task : ∀ i t, s.task? i = some t → L i s.shared t
  pair : ∀ i j t u, i ≠ j → s.task? i = some t → s.task? j = some u → P t u

/-- What is to be shown of a program's steps, where `ok` admits them. -/
structure Keeps (p : Program ω τ ο ε) (ok : Tasks ω τ → Act τ ο ε → Prop) (G : Tasks ω τ → Prop)
    (L : ℕ → ω → τ → Prop) (P : τ → τ → Prop) : Prop where
  /-- A new task starts well. -/
  spawn : ∀ {s i t}, ok s (.spawn i t) → Invariant G L P s → s.task? i = none →
    p.initial t = true → G (s.put i (s.shared, t)) ∧ L i s.shared t
  /-- It gets on with every task there is. -/
  spawnPair : ∀ {s i t j u}, ok s (.spawn i t) → Invariant G L P s → p.initial t = true →
    s.task? j = some u → P t u ∧ P u t
  /-- A task's step keeps the whole and the task well. -/
  self : ∀ {s i o t w' t'}, ok s (.step i o) → Invariant G L P s → s.task? i = some t →
    p.run i s.shared o t = some (w', t') → G (s.put i (w', t')) ∧ L i w' t'
  /-- It leaves every other task well, and still gets on with it. -/
  other : ∀ {s i o t w' t' j u}, ok s (.step i o) → Invariant G L P s → s.task? i = some t →
    p.run i s.shared o t = some (w', t') → j ≠ i → s.task? j = some u →
    L j w' u ∧ P t' u ∧ P u t'
  /-- So does what comes from outside. -/
  outside : ∀ {s e w'}, ok s (.outside e) → Invariant G L P s → p.outside s.shared e = some w' →
    G { s with shared := w' } ∧ ∀ i t, s.task? i = some t → L i w' t
  /-- And what a new process finds is well. -/
  restart : ∀ {s o}, ok s (.crash o) → Invariant G L P s → G (.boot (p.restart s.shared o))

variable {ok : Tasks ω τ → Act τ ο ε → Prop} {G : Tasks ω τ → Prop} {L : ℕ → ω → τ → Prop}
  {P : τ → τ → Prop}

/-- A system without tasks has the invariant as soon as it is well as a whole. -/
theorem Invariant.boot {w : ω} (h : G (.boot w)) : Invariant G L P (Tasks.boot w) :=
  ⟨h, fun _ _ ht => absurd ht (by simp), fun _ _ _ _ _ ht => absurd ht (by simp)⟩

/-- **Every admitted action keeps the invariant.** -/
theorem Keeps.step (hk : p.Keeps ok G L P) (hi : Invariant G L P s) (hok : ok s a)
    (h : p.step s a = some s') : Invariant G L P s' := by
  cases step_cases h with
  | @spawned i t hnone hinit =>
    have hnew := hk.spawn hok hi hnone hinit
    refine ⟨hnew.1, fun j u hu => ?_, fun j k u v hjk hu hv => ?_⟩
    · rw [Tasks.task?_put] at hu
      split at hu
      · rename_i hj
        rw [hj, ← Option.some.inj hu]
        exact hnew.2
      · exact hi.task j u hu
    · rw [Tasks.task?_put] at hu hv
      split at hu <;> split at hv
      · rename_i hj hk
        exact absurd (hj.trans hk.symm) hjk
      · rw [← Option.some.inj hu]
        exact (hk.spawnPair hok hi hinit hv).1
      · rw [← Option.some.inj hv]
        exact (hk.spawnPair hok hi hinit hu).2
      · exact hi.pair j k u v hjk hu hv
  | @ran i o t t' w' ht hrun =>
    have hself := hk.self hok hi ht hrun
    have hother := fun j u => hk.other (j := j) (u := u) hok hi ht hrun
    refine ⟨hself.1, fun j u hu => ?_, fun j k u v hjk hu hv => ?_⟩
    · rw [Tasks.task?_put] at hu
      split at hu
      · rename_i hj
        rw [hj, ← Option.some.inj hu]
        exact hself.2
      · rename_i hj
        exact (hother j u hj hu).1
    · rw [Tasks.task?_put] at hu hv
      split at hu <;> split at hv
      · rename_i hj hk
        exact absurd (hj.trans hk.symm) hjk
      · rename_i hj hk
        rw [← Option.some.inj hu]
        exact (hother k v hk hv).2.1
      · rename_i hj hk
        rw [← Option.some.inj hv]
        exact (hother j u hj hu).2.2
      · exact hi.pair j k u v hjk hu hv
  | outside hout =>
    have := hk.outside hok hi hout
    exact ⟨this.1, fun i t ht => this.2 i t ht, hi.pair⟩
  | crashed => exact .boot (hk.restart hok hi)

/-- **The rule**: what is kept by every step against every task holds in every run. -/
theorem Keeps.reach (hk : p.Keeps ok G L P) {s₀ s : Tasks ω τ} (h : Reach p.step ok s₀ s)
    (h₀ : Invariant G L P s₀) : Invariant G L P s :=
  h.invariant (fun _ _ _ hi hok hs => hk.step hi hok hs) h₀

end Program

end Garret.Lib
