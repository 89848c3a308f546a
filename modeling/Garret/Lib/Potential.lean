import Mathlib.Data.Nat.Notation

/-!
# Steps of one party among those of others

A party shares its state with others. It takes `own` steps; the others take steps that commit
something (`Theirs`) and steps that do not (`Idle`). `Potential d` says what it takes for the party
to end unless the others keep committing: a bound `Within s b` on the steps it has left, which each
own step uses up and each commit of the others raises by at most `d`.

* **`Mixed.own_le`**: in every run of both, the party takes at most `b` steps and `d` more for each
  commit of the others.
-/

namespace Garret.Lib

variable {σ : Type}

/-- A run with `n` own steps and `c` commits of the others. -/
inductive Mixed (own idle theirs : σ → σ → Prop) : ℕ → ℕ → σ → σ → Prop
  | refl (s : σ) : Mixed own idle theirs 0 0 s s
  | own {n c : ℕ} {s t u : σ} (h : Mixed own idle theirs n c s t) (hs : own t u) :
    Mixed own idle theirs (n + 1) c s u
  | idle {n c : ℕ} {s t u : σ} (h : Mixed own idle theirs n c s t) (hs : idle t u) :
    Mixed own idle theirs n c s u
  | theirs {n c : ℕ} {s t u : σ} (h : Mixed own idle theirs n c s t) (hs : theirs t u) :
    Mixed own idle theirs n (c + 1) s u

/-- `Within s b`: the party has at most `b` steps left in `s` while the others commit nothing. -/
structure Potential (own idle theirs : σ → σ → Prop) (d : ℕ) (Within : σ → ℕ → Prop) : Prop where
  own : ∀ s t b, Within s b → own s t → ∃ b', b' < b ∧ Within t b'
  idle : ∀ s t b, Within s b → idle s t → Within t b
  theirs : ∀ s t b, Within s b → theirs s t → ∃ b', b' ≤ b + d ∧ Within t b'

variable {own idle theirs : σ → σ → Prop} {d : ℕ} {Within : σ → ℕ → Prop}

/-- **Each commit of the others costs the party at most `d` steps.** -/
theorem Mixed.own_le (hp : Potential own idle theirs d Within) {n c b : ℕ} {s t : σ}
    (h : Mixed own idle theirs n c s t) (hs : Within s b) :
    ∃ b', n + b' ≤ b + d * c ∧ Within t b' := by
  induction h with
  | refl s => exact ⟨b, by omega, hs⟩
  | own h hstep ih =>
    obtain ⟨b₁, hle, hw⟩ := ih hs
    obtain ⟨b₂, hlt, hw⟩ := hp.own _ _ _ hw hstep
    exact ⟨b₂, by omega, hw⟩
  | idle h hstep ih =>
    obtain ⟨b₁, hle, hw⟩ := ih hs
    exact ⟨b₁, hle, hp.idle _ _ _ hw hstep⟩
  | theirs h hstep ih =>
    obtain ⟨b₁, hle, hw⟩ := ih hs
    obtain ⟨b₂, hlt, hw⟩ := hp.theirs _ _ _ hw hstep
    refine ⟨b₂, ?_, hw⟩
    rw [Nat.mul_succ]
    omega

/-- A run maps to a run. -/
theorem Mixed.map {τ : Type} {own' idle' theirs' : τ → τ → Prop} (f : σ → τ) (I : σ → Prop)
    (hown : ∀ s t, I s → own s t → I t ∧ own' (f s) (f t))
    (hidle : ∀ s t, I s → idle s t → I t ∧ idle' (f s) (f t))
    (htheirs : ∀ s t, I s → theirs s t → I t ∧ theirs' (f s) (f t)) {n c : ℕ} {s t : σ}
    (h : Mixed own idle theirs n c s t) (hs : I s) :
    I t ∧ Mixed own' idle' theirs' n c (f s) (f t) := by
  induction h with
  | refl s => exact ⟨hs, .refl _⟩
  | own h hstep ih =>
    obtain ⟨hi, hm⟩ := ih hs
    obtain ⟨hi, hstep⟩ := hown _ _ hi hstep
    exact ⟨hi, .own hm hstep⟩
  | idle h hstep ih =>
    obtain ⟨hi, hm⟩ := ih hs
    obtain ⟨hi, hstep⟩ := hidle _ _ hi hstep
    exact ⟨hi, .idle hm hstep⟩
  | theirs h hstep ih =>
    obtain ⟨hi, hm⟩ := ih hs
    obtain ⟨hi, hstep⟩ := htheirs _ _ hi hstep
    exact ⟨hi, .theirs hm hstep⟩

end Garret.Lib
