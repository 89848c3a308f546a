import Mathlib.Data.Nat.Notation
import Mathlib.Logic.Relation

/-!
# Runs of a labelled transition function

A system is a partial step function `step : σ → α → Option σ`: `none` when the action is not
enabled. A run may be restricted by a guard `ok : σ → α → Prop`, read at the state before each
step; assumptions on an environment ("no blob is lost", "an upload commits within an hour") are
guards.

* `Reach step ok s s'`: some guarded run leads from `s` to `s'`.
* `Reach.invariant`: what every guarded step preserves, every guarded run preserves;
  `Reach.assume` adds it to the guard, `Reach.simulate` carries a run over to another system.
* `Runs`: the run on a given sequence of actions, from one time to another.
* `exec`: the executable run of a list of actions; `exec_reach` makes it a `Reach`, and
  `exec_check` evaluates it.
-/

namespace Garret.Lib

variable {σ α : Type}

/-- One step the guard admits, its action forgotten. -/
def Next (step : σ → α → Option σ) (ok : σ → α → Prop) (s s' : σ) : Prop :=
  ∃ a, ok s a ∧ step s a = some s'

/-- The states a guarded run leads to. -/
def Reach (step : σ → α → Option σ) (ok : σ → α → Prop) : σ → σ → Prop :=
  Relation.ReflTransGen (Next step ok)

variable {step : σ → α → Option σ} {ok : σ → α → Prop}

theorem Reach.refl (s : σ) : Reach step ok s s := Relation.ReflTransGen.refl

theorem Reach.trans {s t u : σ} (h₁ : Reach step ok s t) (h₂ : Reach step ok t u) :
    Reach step ok s u := Relation.ReflTransGen.trans h₁ h₂

theorem Reach.tail {s t u : σ} {a : α} (h : Reach step ok s t) (ha : ok t a)
    (hs : step t a = some u) : Reach step ok s u :=
  Relation.ReflTransGen.tail h ⟨a, ha, hs⟩

/-- **The invariant rule**: what every guarded step preserves, every guarded run preserves. -/
theorem Reach.invariant {I : σ → Prop}
    (hstep : ∀ s a s', I s → ok s a → step s a = some s' → I s')
    {s s' : σ} (h : Reach step ok s s') (h₀ : I s) : I s' := by
  induction h with
  | refl => exact h₀
  | tail _ hn ih =>
    obtain ⟨a, ha, hs⟩ := hn
    exact hstep _ a _ ih ha hs

/-- **What every guarded run has may be assumed at each of its steps.** -/
theorem Reach.assume {I : σ → Prop}
    (hstep : ∀ s a s', I s → ok s a → step s a = some s' → I s')
    {s s' : σ} (h : Reach step ok s s') (h₀ : I s) :
    Reach step (fun s a => ok s a ∧ I s) s s' ∧ I s' := by
  induction h with
  | refl => exact ⟨.refl s, h₀⟩
  | tail _ hn ih =>
    obtain ⟨a, ha, hs⟩ := hn
    exact ⟨ih.1.tail ⟨ha, ih.2⟩ hs, hstep _ a _ ih.2 ha hs⟩

/-- **Forward simulation**: if every guarded step from a state with `I` is a step of `R` between the
images under `f`, or leaves the image as it is, every guarded run is a run of `R`. -/
theorem Reach.simulate {τ : Type} {R : τ → τ → Prop} {f : σ → τ} {I : σ → Prop}
    (hinv : ∀ s a s', I s → ok s a → step s a = some s' → I s')
    (hsim : ∀ s a s', I s → ok s a → step s a = some s' → f s' = f s ∨ R (f s) (f s'))
    {s s' : σ} (h : Reach step ok s s') (h₀ : I s) :
    Relation.ReflTransGen R (f s) (f s') ∧ I s' := by
  induction h with
  | refl => exact ⟨.refl, h₀⟩
  | tail _ hn ih =>
    obtain ⟨a, ha, hs⟩ := hn
    refine ⟨?_, hinv _ a _ ih.2 ha hs⟩
    rcases hsim _ a _ ih.2 ha hs with heq | hR
    · rw [heq]
      exact ih.1
    · exact ih.1.tail hR

/-- On the actions `acts`, the run that is in `s` at time `i` is in `s'` at time `j`. -/
inductive Runs (step : σ → α → Option σ) (acts : ℕ → α) : ℕ → σ → ℕ → σ → Prop
  | refl (i : ℕ) (s : σ) : Runs step acts i s i s
  | head {i j : ℕ} {s t u : σ} (hs : step s (acts i) = some t) (h : Runs step acts (i + 1) t j u) :
    Runs step acts i s j u

theorem Runs.trans {acts : ℕ → α} {i j k : ℕ} {s t u : σ} (h₁ : Runs step acts i s j t)
    (h₂ : Runs step acts j t k u) : Runs step acts i s k u := by
  induction h₁ with
  | refl => exact h₂
  | head hs _ ih => exact .head hs (ih h₂)

theorem Runs.tail {acts : ℕ → α} {i j : ℕ} {s t u : σ} (h : Runs step acts i s j t)
    (hs : step t (acts j) = some u) : Runs step acts i s (j + 1) u :=
  h.trans (.head hs (.refl _ _))

/-- Run `acts` one after the other; `none` once an action is not enabled or not admitted. -/
def exec (step : σ → α → Option σ) (ok : σ → α → Prop) [∀ s a, Decidable (ok s a)] :
    List α → σ → Option σ
  | [], s => some s
  | a :: as, s =>
    if ok s a then
      match step s a with
      | some s' => exec step ok as s'
      | none => none
    else none

/-- **An executed list of actions is a run.** -/
theorem exec_reach [∀ s a, Decidable (ok s a)] :
    ∀ {acts : List α} {s s' : σ}, exec step ok acts s = some s' → Reach step ok s s'
  | [], s, s', h => by
    simp only [exec, Option.some.injEq] at h
    exact h ▸ Reach.refl s
  | a :: as, s, s', h => by
    simp only [exec] at h
    split at h
    · rename_i ha
      split at h
      · rename_i t ht
        exact (Reach.tail (Reach.refl s) ha ht).trans (exec_reach h)
      · exact absurd h (by simp)
    · exact absurd h (by simp)

variable (step ok) in
/-- Where a run ends, and a property of its end, checked by evaluation. -/
theorem exec_end [∀ s a, Decidable (ok s a)] (acts : List α) (s : σ) (P : σ → Prop)
    [DecidablePred P] (h : (exec step ok acts s).any (fun s' => decide (P s')) = true) :
    ∃ s', exec step ok acts s = some s' ∧ P s' := by
  obtain ⟨s', hs', hP⟩ := (Option.any_eq_true _ _).mp h
  exact ⟨s', hs', of_decide_eq_true hP⟩

variable (step ok) in
/-- A run, and a property of its end, checked by evaluation. -/
theorem exec_check [∀ s a, Decidable (ok s a)] (acts : List α) (s : σ) (P : σ → Prop)
    [DecidablePred P] (h : (exec step ok acts s).any (fun s' => decide (P s')) = true) :
    ∃ s', Reach step ok s s' ∧ P s' := by
  obtain ⟨s', hs', hP⟩ := exec_end step ok acts s P h
  exact ⟨s', exec_reach hs', hP⟩

/-- **A variant bounds the length of a run**: what every step from a state with `I` uses up, no run
can take more steps than. -/
theorem exec_variant [∀ s a, Decidable (ok s a)] (I : σ → Prop) (cost : σ → ℕ)
    (hstep : ∀ s a s', I s → ok s a → step s a = some s' → I s' ∧ cost s' < cost s) :
    ∀ {acts : List α} {s s' : σ}, exec step ok acts s = some s' → I s →
      acts.length + cost s' ≤ cost s ∧ I s'
  | [], s, s', h, hi => by
    obtain rfl := Option.some.inj h
    exact ⟨by simp, hi⟩
  | a :: as, s, s', h, hi => by
    simp only [exec] at h
    split at h
    · rename_i ha
      split at h
      · rename_i t ht
        obtain ⟨hit, hlt⟩ := hstep s a t hi ha ht
        obtain ⟨hle, his⟩ := exec_variant I cost hstep h hit
        exact ⟨by rw [List.length_cons]; omega, his⟩
      · exact absurd h (by simp)
    · exact absurd h (by simp)

end Garret.Lib
