import Mathlib.Algebra.BigOperators.Group.List.Basic
import Mathlib.Tactic.Ring

/-!
# A fair counting semaphore

Permits are handed out in order of arrival. A request that finds enough free permits takes them
at once; any other takes what is free and joins the line. Returned permits go to the first waiter
that still lacks some, and are free only when nobody lacks any. A waiter whose request is met
keeps its place until it is polled; one that gives up returns what it was given.

* `Semaphore`: the invariant is part of the type. Nothing is free while somebody waits
  (`dry`), and only the first unmet waiter may have been given anything (`fifo`).
* `inside`: the permits not handed out. Each operation says by how much it changes.
* `tickets`: what the owner `i` waits for. Each operation touches its own owner's tickets only.
* `inside_lt_of_stuck`: if no request in line is met, the first one asks for more than is inside,
  so somebody holds permits outside.
-/

namespace Garret.Lib

/-- A request in line: whose it is, how many permits it asked for and was given so far. -/
structure Waiter (ι : Type) where
  id : ι
  needed : ℕ
  got : ℕ
  deriving DecidableEq, Repr

namespace Waiter

variable {ι : Type}

/-- Some permits are still lacking. -/
def Unmet (w : Waiter ι) : Prop := w.got < w.needed

instance (w : Waiter ι) : Decidable w.Unmet := inferInstanceAs (Decidable (_ < _))

/-- Only the first unmet waiter of a line may have been given anything. -/
def Ordered (line : List (Waiter ι)) : Prop := line.Pairwise fun a b => a.Unmet → b.got = 0

/-- The permits given along a line. -/
def total (line : List (Waiter ι)) : ℕ := (line.map Waiter.got).sum

/-- Hand `n` permits along the line; the first component is what is left over. -/
def assign : ℕ → List (Waiter ι) → ℕ × List (Waiter ι)
  | n, [] => (n, [])
  | n, w :: ws =>
    let given := min n (w.needed - w.got)
    let rest := assign (n - given) ws
    (rest.1, { w with got := w.got + given } :: rest.2)

@[simp] theorem total_nil : total ([] : List (Waiter ι)) = 0 := rfl

@[simp] theorem total_cons (w : Waiter ι) (ws : List (Waiter ι)) :
    total (w :: ws) = w.got + total ws := by simp [total]

@[simp] theorem total_append (l l' : List (Waiter ι)) : total (l ++ l') = total l + total l' := by
  simp [total]

theorem assign_zero : ∀ line : List (Waiter ι), assign 0 line = (0, line)
  | [] => rfl
  | w :: ws => by simp [assign, assign_zero ws]

/-- No permit is lost on the way. -/
theorem assign_total (n : ℕ) (line : List (Waiter ι)) :
    (assign n line).1 + total (assign n line).2 = n + total line := by
  induction line generalizing n with
  | nil => rfl
  | cons w ws ih =>
    have := ih (n - min n (w.needed - w.got))
    simp only [assign, total_cons]
    omega

/-- The line keeps its requests, in their order. -/
theorem assign_map {β : Type} (f : ι → ℕ → β) (n : ℕ) (line : List (Waiter ι)) :
    (assign n line).2.map (fun w => f w.id w.needed) = line.map fun w => f w.id w.needed := by
  induction line generalizing n with
  | nil => rfl
  | cons w ws ih => simp [assign, ih]

/-- Nobody is given more than it asked for. -/
theorem assign_fits {n : ℕ} {line : List (Waiter ι)} (h : ∀ w ∈ line, w.got ≤ w.needed) :
    ∀ w ∈ (assign n line).2, w.got ≤ w.needed := by
  induction line generalizing n with
  | nil => simp [assign]
  | cons w ws ih =>
    have hw := h w (List.mem_cons_self ..)
    have hws := ih (n := n - min n (w.needed - w.got)) fun v hv => h v (List.mem_cons_of_mem _ hv)
    intro v hv
    simp only [assign, List.mem_cons] at hv
    rcases hv with rfl | hv
    · simp only
      omega
    · exact hws v hv

/-- If somebody still lacks permits afterwards, somebody did before, and none are left over. -/
theorem assign_unmet {n : ℕ} {line : List (Waiter ι)} {w : Waiter ι}
    (hw : w ∈ (assign n line).2) (hu : w.Unmet) :
    (assign n line).1 = 0 ∧ ∃ v ∈ line, v.Unmet := by
  induction line generalizing n with
  | nil => simp [assign] at hw
  | cons v vs ih =>
    simp only [assign, List.mem_cons] at hw ⊢
    rcases hw with rfl | hw
    · simp only [Unmet] at hu
      have hn : n - min n (v.needed - v.got) = 0 := by omega
      refine ⟨by rw [hn, assign_zero], v, Or.inl rfl, ?_⟩
      simp only [Unmet]
      omega
    · obtain ⟨h0, x, hx, hxu⟩ := ih hw
      exact ⟨h0, x, Or.inr hx, hxu⟩

/-- What a waiter has afterwards, it had before or took from a share that got past those
before it. -/
theorem assign_got_eq_zero {n : ℕ} {line : List (Waiter ι)} (hn : n = 0)
    (h : ∀ v ∈ line, v.got = 0) : ∀ w ∈ (assign n line).2, w.got = 0 := by
  rw [hn, assign_zero]
  exact h

theorem assign_ordered {n : ℕ} {line : List (Waiter ι)} (h : Ordered line) :
    Ordered (assign n line).2 := by
  induction line generalizing n with
  | nil => exact List.Pairwise.nil
  | cons w ws ih =>
    obtain ⟨hw, hws⟩ := List.pairwise_cons.mp h
    refine List.pairwise_cons.mpr ⟨fun v hv hu => ?_, ih hws⟩
    -- an unmet head took all of `n`, and was unmet before: the rest has nothing
    simp only [Unmet] at hu
    have hn : n - min n (w.needed - w.got) = 0 := by omega
    have hwu : w.Unmet := by
      simp only [Unmet]
      omega
    exact assign_got_eq_zero hn (fun x hx => hw x hx hwu) v hv

end Waiter

open Waiter

/-- The free permits and the line. -/
structure Semaphore (ι : Type) where
  free : ℕ
  line : List (Waiter ι)
  fits : ∀ w ∈ line, w.got ≤ w.needed
  fifo : Ordered line
  dry : ∀ w ∈ line, w.Unmet → free = 0

namespace Semaphore

variable {ι : Type}

/-- The permits that nobody has taken out. -/
def inside (s : Semaphore ι) : ℕ := s.free + total s.line

/-- A semaphore nobody has asked yet. -/
def new (permits : ℕ) : Semaphore ι where
  free := permits
  line := []
  fits := by simp
  fifo := List.Pairwise.nil
  dry := by simp

/-- Take free permits at once. -/
def take (s : Semaphore ι) (n : ℕ) : Semaphore ι where
  free := s.free - n
  line := s.line
  fits := s.fits
  fifo := s.fifo
  dry w hw hu := by rw [s.dry w hw hu, Nat.zero_sub]

/-- Join the line, with whatever is free. -/
def wait (s : Semaphore ι) (i : ι) (n : ℕ) (h : s.free < n) : Semaphore ι where
  free := 0
  line := s.line ++ [⟨i, n, s.free⟩]
  fits w hw := by
    rcases List.mem_append.mp hw with hw | hw
    · exact s.fits w hw
    · rw [List.mem_singleton.mp hw]
      exact h.le
  fifo := List.pairwise_append.mpr ⟨s.fifo, List.pairwise_singleton _ _, fun a ha b hb hu => by
    rw [List.mem_singleton.mp hb]
    exact s.dry a ha hu⟩
  dry _ _ _ := rfl

/-- Ask for `n` permits: the second component says whether they were there. -/
def acquire (s : Semaphore ι) (i : ι) (n : ℕ) : Semaphore ι × Bool :=
  if h : n ≤ s.free then (s.take n, true) else (s.wait i n (Nat.lt_of_not_le h), false)

/-- Return `n` permits. -/
def release (s : Semaphore ι) (n : ℕ) : Semaphore ι where
  free := s.free + (assign n s.line).1
  line := (assign n s.line).2
  fits := assign_fits s.fits
  fifo := assign_ordered s.fifo
  dry w hw hu := by
    obtain ⟨h0, v, hv, hvu⟩ := assign_unmet hw hu
    rw [h0, s.dry v hv hvu]

/-- Take the first waiter `p` admits out of the line, with what it was given. -/
def leave (s : Semaphore ι) (p : Waiter ι → Bool) : Semaphore ι where
  free := s.free
  line := s.line.eraseP p
  fits w hw := s.fits w (List.mem_of_mem_eraseP hw)
  fifo := s.fifo.sublist List.eraseP_sublist
  dry w hw := s.dry w (List.mem_of_mem_eraseP hw)

theorem acquire_cases {s s' : Semaphore ι} {i : ι} {n : ℕ} {there : Bool}
    (h : s.acquire i n = (s', there)) :
    (there = true ∧ n ≤ s.free ∧ s' = s.take n) ∨
      (there = false ∧ ∃ hlt : s.free < n, s' = s.wait i n hlt) := by
  unfold acquire at h
  split at h
  · rename_i hle
    obtain ⟨rfl, rfl⟩ := Prod.mk.inj h
    exact Or.inl ⟨rfl, hle, rfl⟩
  · rename_i hle
    obtain ⟨rfl, rfl⟩ := Prod.mk.inj h
    exact Or.inr ⟨rfl, Nat.lt_of_not_le hle, rfl⟩

variable [DecidableEq ι]

/-- The owner's request, if it is met. -/
def met (i : ι) (w : Waiter ι) : Bool := decide (w.id = i ∧ ¬w.Unmet)

/-- The owner `i` looks whether its request is met, and then takes the permits out. -/
def poll (s : Semaphore ι) (i : ι) : Option (ℕ × Semaphore ι) :=
  (s.line.find? (met i)).map fun w => (w.needed, s.leave (met i))

/-- The owner `i` gives its request up; what it was given is returned. -/
def cancel (s : Semaphore ι) (i : ι) : Semaphore ι :=
  match s.line.find? (fun w => decide (w.id = i)) with
  | some w => (s.leave fun w => decide (w.id = i)).release w.got
  | none => s

/-- What the owner `i` waits for. -/
def tickets (s : Semaphore ι) (i : ι) : List ℕ :=
  (s.line.filter fun w => decide (w.id = i)).map Waiter.needed

/-! ## The permits inside -/

omit [DecidableEq ι] in
@[simp] theorem inside_new (n : ℕ) : (new n : Semaphore ι).inside = n := by simp [inside, new]

omit [DecidableEq ι] in
theorem inside_take {s : Semaphore ι} {n : ℕ} (h : n ≤ s.free) :
    (s.take n).inside + n = s.inside := by
  simp only [inside, take]
  omega

omit [DecidableEq ι] in
theorem inside_wait {s : Semaphore ι} {i : ι} {n : ℕ} (h : s.free < n) :
    (s.wait i n h).inside = s.inside := by
  simp only [inside, wait, total_append, total_cons, total_nil]
  omega

omit [DecidableEq ι] in
@[simp] theorem inside_release (s : Semaphore ι) (n : ℕ) : (s.release n).inside = s.inside + n := by
  have := assign_total n s.line
  simp only [inside, release]
  omega

omit [DecidableEq ι] in
/-- A waiter that leaves takes what it was given along. -/
theorem inside_leave {s : Semaphore ι} {p : Waiter ι → Bool} {w : Waiter ι}
    (h : s.line.find? p = some w) : (s.leave p).inside + w.got = s.inside := by
  have htotal : ∀ line : List (Waiter ι), line.find? p = some w →
      total (line.eraseP p) + w.got = total line := by
    intro line
    induction line with
    | nil => simp
    | cons v vs ih =>
      intro hf
      by_cases hv : p v
      · rw [List.find?_cons_of_pos hv, Option.some.injEq] at hf
        subst hf
        rw [List.eraseP_cons_of_pos hv, total_cons, Nat.add_comm]
      · rw [List.find?_cons_of_neg hv] at hf
        rw [List.eraseP_cons_of_neg hv, total_cons, total_cons, ← ih hf, Nat.add_assoc]
  have := htotal s.line h
  simp only [inside, leave]
  omega

theorem inside_poll {s s' : Semaphore ι} {i : ι} {n : ℕ} (h : s.poll i = some (n, s')) :
    s'.inside + n = s.inside := by
  obtain ⟨w, hw, he⟩ := Option.map_eq_some_iff.mp h
  obtain ⟨rfl, rfl⟩ := Prod.mk.inj he
  have hmet := List.find?_some hw
  simp only [met, decide_eq_true_eq, Unmet, Nat.not_lt] at hmet
  have hfit := s.fits w (List.mem_of_find?_eq_some hw)
  have := inside_leave hw
  omega

@[simp] theorem inside_cancel (s : Semaphore ι) (i : ι) : (s.cancel i).inside = s.inside := by
  unfold cancel
  split
  · rename_i w hw
    rw [inside_release, inside_leave hw]
  · rfl

/-! ## Whose requests are in line -/

@[simp] theorem tickets_new (n : ℕ) (i : ι) : (new n : Semaphore ι).tickets i = [] := rfl

@[simp] theorem tickets_take (s : Semaphore ι) (n : ℕ) (i : ι) :
    (s.take n).tickets i = s.tickets i := rfl

theorem tickets_wait (s : Semaphore ι) {i : ι} {n : ℕ} (h : s.free < n) (j : ι) :
    (s.wait i n h).tickets j = s.tickets j ++ if i = j then [n] else [] := by
  simp only [tickets, wait, List.filter_append, List.map_append]
  by_cases hij : i = j <;> simp [hij]

@[simp] theorem tickets_release (s : Semaphore ι) (n : ℕ) (i : ι) :
    (s.release n).tickets i = s.tickets i := by
  have hmap : ∀ line : List (Waiter ι),
      (line.filter fun w => decide (w.id = i)).map Waiter.needed =
        (line.map fun w => if w.id = i then [w.needed] else []).flatten := by
    intro line
    induction line with
    | nil => rfl
    | cons w ws ih => by_cases hw : w.id = i <;> simp [hw, ih]
  simp only [tickets, release, hmap]
  rw [assign_map fun k m => if k = i then [m] else []]

/-- Somebody else's request leaves the line. -/
theorem tickets_leave_of_ne {s : Semaphore ι} {p : Waiter ι → Bool} {i j : ι}
    (hp : ∀ w, p w = true → w.id = i) (hij : j ≠ i) : (s.leave p).tickets j = s.tickets j := by
  have herase : ∀ line : List (Waiter ι), (line.eraseP p).filter (fun w => decide (w.id = j)) =
      line.filter fun w => decide (w.id = j) := by
    intro line
    induction line with
    | nil => rfl
    | cons w ws ih =>
      by_cases hw : p w
      · have hwj : ¬w.id = j := fun e => hij (e.symm.trans (hp w hw))
        simp [List.eraseP_cons_of_pos hw, hwj]
      · simp [List.eraseP_cons_of_neg hw, List.filter_cons, ih]
  simp only [tickets, leave, herase]

/-- An owner with one request in line has none once that one has left. -/
theorem tickets_leave_self {s : Semaphore ι} {p : Waiter ι → Bool} {i : ι} {n : ℕ} {w : Waiter ι}
    (hp : ∀ w, p w = true → w.id = i) (hw : s.line.find? p = some w) (hi : s.tickets i = [n]) :
    w.needed = n ∧ (s.leave p).tickets i = [] := by
  have herase : ∀ line : List (Waiter ι), line.find? p = some w →
      (line.filter fun w => decide (w.id = i)).map Waiter.needed = [n] → w.needed = n ∧
        ((line.eraseP p).filter fun w => decide (w.id = i)).map Waiter.needed = [] := by
    intro line
    induction line with
    | nil => simp
    | cons v vs ih =>
      intro hf hn
      by_cases hv : p v
      · rw [List.find?_cons_of_pos hv, Option.some.injEq] at hf
        subst hf
        simp only [List.filter_cons, hp v hv, decide_true, if_true, List.map_cons,
          List.cons.injEq] at hn
        rw [List.eraseP_cons_of_pos hv]
        exact hn
      · rw [List.find?_cons_of_neg hv] at hf
        rw [List.eraseP_cons_of_neg hv]
        have hid : w.id = i := hp w (List.find?_some hf)
        have hmem : w ∈ vs := List.mem_of_find?_eq_some hf
        by_cases hvi : v.id = i
        · -- then `v` and `w` would both be in line for `i`
          simp only [List.filter_cons, hvi, decide_true, if_true, List.map_cons, List.cons.injEq,
            List.map_eq_nil_iff, List.filter_eq_nil_iff] at hn
          exact absurd (decide_eq_true hid) (hn.2 w hmem)
        · simp only [List.filter_cons, hvi, decide_false, Bool.false_eq_true, if_false] at hn ⊢
          exact ih hf hn
  exact herase s.line hw hi

theorem met_id {i : ι} {w : Waiter ι} (h : met i w = true) : w.id = i := by
  simp only [met, decide_eq_true_eq] at h
  exact h.1

theorem tickets_poll_of_ne {s s' : Semaphore ι} {i j : ι} {n : ℕ} (h : s.poll i = some (n, s'))
    (hij : j ≠ i) : s'.tickets j = s.tickets j := by
  obtain ⟨w, -, he⟩ := Option.map_eq_some_iff.mp h
  obtain ⟨-, rfl⟩ := Prod.mk.inj he
  exact tickets_leave_of_ne (fun _ => met_id) hij

theorem tickets_poll_self {s s' : Semaphore ι} {i : ι} {n m : ℕ} (h : s.poll i = some (n, s'))
    (hi : s.tickets i = [m]) : n = m ∧ s'.tickets i = [] := by
  obtain ⟨w, hw, he⟩ := Option.map_eq_some_iff.mp h
  obtain ⟨rfl, rfl⟩ := Prod.mk.inj he
  exact tickets_leave_self (fun _ => met_id) hw hi

theorem tickets_cancel_of_ne {s : Semaphore ι} {i j : ι} (hij : j ≠ i) :
    (s.cancel i).tickets j = s.tickets j := by
  unfold cancel
  split
  · rw [tickets_release]
    exact tickets_leave_of_ne (fun w hw => of_decide_eq_true hw) hij
  · rfl

theorem tickets_cancel_self {s : Semaphore ι} {i : ι} {n : ℕ} (hi : s.tickets i = [n]) :
    (s.cancel i).tickets i = [] := by
  unfold cancel
  split
  · rename_i w hw
    rw [tickets_release]
    exact (tickets_leave_self (fun w hw => of_decide_eq_true hw) hw hi).2
  · rename_i hnone
    have hempty : s.tickets i = [] := by
      simp only [tickets, List.map_eq_nil_iff, List.filter_eq_nil_iff]
      exact List.find?_eq_none.mp hnone
    rw [hempty] at hi
    exact absurd hi (by simp)

/-- A request in line is its owner's ticket. -/
theorem mem_tickets {s : Semaphore ι} {w : Waiter ι} (hw : w ∈ s.line) :
    w.needed ∈ s.tickets w.id :=
  List.mem_map_of_mem (List.mem_filter.mpr ⟨hw, decide_eq_true rfl⟩)

theorem exists_of_tickets {s : Semaphore ι} {i : ι} (h : s.tickets i ≠ []) : s.line ≠ [] := by
  intro hline
  simp [tickets, hline] at h

/-! ## Progress -/

/-- A request that is met can be polled. -/
theorem poll_isSome {s : Semaphore ι} {w : Waiter ι} (hw : w ∈ s.line) (hmet : ¬w.Unmet) :
    ∃ r, s.poll w.id = some r := by
  have hsome : (s.line.find? (met w.id)).isSome :=
    List.find?_isSome.mpr ⟨w, hw, by simp [met, hmet]⟩
  obtain ⟨v, hv⟩ := Option.isSome_iff_exists.mp hsome
  exact ⟨(v.needed, s.leave (met w.id)), by simp [poll, hv]⟩

omit [DecidableEq ι] in
/-- **If no request in line is met, the first asks for more than is inside.** -/
theorem inside_lt_of_stuck {s : Semaphore ι} (hline : s.line ≠ [])
    (hstuck : ∀ w ∈ s.line, w.Unmet) : ∃ w ∈ s.line, s.inside < w.needed := by
  obtain ⟨w, ws, hs⟩ := List.exists_cons_of_ne_nil hline
  have hw : w ∈ s.line := by simp [hs]
  have hunmet : w.got < w.needed := hstuck w hw
  have hord := s.fifo
  rw [hs] at hord
  have hrest : total ws = 0 := by
    refine List.sum_eq_zero fun x hx => ?_
    obtain ⟨v, hv, rfl⟩ := List.mem_map.mp hx
    exact (List.pairwise_cons.mp hord).1 v hv hunmet
  refine ⟨w, hw, ?_⟩
  simp only [inside, s.dry w hw hunmet, hs, total_cons, hrest]
  omega

end Semaphore

end Garret.Lib
