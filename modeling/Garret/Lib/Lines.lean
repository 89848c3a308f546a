import Mathlib.Data.List.Basic

/-!
# Lines

A stream of characters read line by line: `cut` cuts it at each newline and takes a carriage
return before it off; what follows the last newline is a line if there is anything. `readLine` is
the first line, its newline included.
-/

namespace Garret.Lib.Lines

/-- A character put before the first line. -/
def push (c : Char) : List (List Char) → List (List Char)
  | [] => [[c]]
  | l :: ls => (c :: l) :: ls

/-- The lines of a stream. -/
def cut : List Char → List (List Char)
  | [] => []
  | '\r' :: '\n' :: cs => [] :: cut cs
  | '\n' :: cs => [] :: cut cs
  | c :: cs => push c (cut cs)

/-- The first line of a stream with its newline. -/
def readLine : List Char → List Char
  | [] => []
  | '\n' :: _ => ['\n']
  | c :: cs => c :: readLine cs

/-- What a line holds: neither of the two characters that end one. -/
def OneLine (l : List Char) : Prop := ∀ c ∈ l, c ≠ '\n' ∧ c ≠ '\r'

instance (l : List Char) : Decidable (OneLine l) :=
  List.decidableBAll (fun c => c ≠ '\n' ∧ c ≠ '\r') l

theorem OneLine.not_mem {l : List Char} (h : OneLine l) : '\n' ∉ l := fun hn => (h '\n' hn).1 rfl

theorem OneLine.of_prefix {l l' : List Char} (h : OneLine l') (hl : l <+: l') : OneLine l :=
  fun c hc => h c (hl.mem hc)

theorem cut_cons {c : Char} (hn : c ≠ '\n') (hr : c ≠ '\r') (cs : List Char) :
    cut (c :: cs) = push c (cut cs) := by
  rw [cut]
  · exact fun _ h => absurd h hr
  · exact fun h => absurd h hn

/-- A line and its newline are cut off whatever follows. -/
theorem cut_append {l : List Char} (h : OneLine l) (cs : List Char) :
    cut (l ++ '\n' :: cs) = l :: cut cs := by
  induction l with
  | nil => rfl
  | cons c l ih =>
    have hc := h c List.mem_cons_self
    rw [List.cons_append, cut_cons hc.1 hc.2, ih fun d hd => h d (List.mem_cons_of_mem c hd)]
    rfl

/-- A line that is not ended yet is cut off all the same. -/
theorem cut_line : ∀ {l : List Char}, OneLine l → l ≠ [] → cut l = [l]
  | [], _, hne => absurd rfl hne
  | c :: l, h, _ => by
    have hc := h c List.mem_cons_self
    rw [cut_cons hc.1 hc.2]
    cases l with
    | nil => rfl
    | cons d l =>
      rw [cut_line (fun d hd => h d (List.mem_cons_of_mem c hd)) (List.cons_ne_nil d l)]
      rfl

theorem readLine_append {l : List Char} (h : OneLine l) (cs : List Char) :
    readLine (l ++ '\n' :: cs) = l ++ ['\n'] := by
  induction l with
  | nil => rfl
  | cons c l ih =>
    have hc := h c List.mem_cons_self
    rw [List.cons_append, readLine, ih fun d hd => h d (List.mem_cons_of_mem c hd)]
    · rfl
    · exact fun h => absurd h hc.1

theorem readLine_of_not_mem : ∀ {l : List Char}, '\n' ∉ l → readLine l = l
  | [], _ => rfl
  | c :: l, h => by
    rw [readLine, readLine_of_not_mem fun hl => h (List.mem_cons_of_mem c hl)]
    exact fun hc => h (hc ▸ List.mem_cons_self)

/-! ## What has come of a stream -/

/-- The lines ended so far, of which the first has begun with `line`, backwards. -/
def completeFrom (line : List Char) : List Char → List (List Char)
  | [] => []
  | c :: cs =>
    if c = '\n' then line.reverse :: completeFrom [] cs else completeFrom (c :: line) cs

/-- The lines that have been ended; what follows the last newline may not be a whole line yet. -/
def complete (cs : List Char) : List (List Char) := completeFrom [] cs

theorem completeFrom_append {l : List Char} (h : '\n' ∉ l) (line cs : List Char) :
    completeFrom line (l ++ cs) = completeFrom (l.reverse ++ line) cs := by
  induction l generalizing line with
  | nil => rfl
  | cons c l ih =>
    have hc : c ≠ '\n' := fun hc => h (hc ▸ List.mem_cons_self)
    rw [List.cons_append, completeFrom, if_neg hc, ih fun hl => h (List.mem_cons_of_mem c hl),
      List.reverse_cons, List.append_assoc, List.singleton_append]

theorem complete_of_not_mem {l : List Char} (h : '\n' ∉ l) : complete l = [] := by
  have happ := completeFrom_append h [] []
  rwa [List.append_nil] at happ

theorem complete_line {l : List Char} (h : '\n' ∉ l) (cs : List Char) :
    complete (l ++ '\n' :: cs) = l :: complete cs := by
  rw [complete, completeFrom_append h, completeFrom, if_pos rfl, List.append_nil,
    List.reverse_reverse]
  rfl

/-- **Of lines written one after another, whatever has come**: some of the first of them are whole,
and what follows is the beginning of the next. -/
theorem complete_prefix {α : Type} {f : α → List Char} :
    ∀ (xs : List α), (∀ x ∈ xs, '\n' ∉ f x) → ∀ {seen : List Char},
      seen <+: xs.flatMap (fun a => f a ++ ['\n']) →
      ∃ ys zs rest, xs = ys ++ zs ∧ complete seen = ys.map f ∧
        seen = ys.flatMap (fun a => f a ++ ['\n']) ++ rest ∧ (zs = [] → rest = [])
  | [], _, seen, h => ⟨[], [], [], rfl, by rw [List.prefix_nil.mp h]; rfl, List.prefix_nil.mp h,
      fun _ => rfl⟩
  | x :: xs, hf, seen, h => by
    have hx := hf x List.mem_cons_self
    rw [List.flatMap_cons, List.append_assoc, List.singleton_append] at h
    have hline : f x ++ ['\n'] <+: f x ++ '\n' :: xs.flatMap (fun a => f a ++ ['\n']) :=
      ⟨_, by rw [List.append_assoc, List.singleton_append]⟩
    rcases List.prefix_or_prefix_of_prefix hline h with ⟨more, rfl⟩ | hshort
    · rw [List.append_assoc, List.singleton_append] at h
      have hmore := List.prefix_cons_inj _ |>.mp (List.prefix_append_right_inj _ |>.mp h)
      obtain ⟨ys, zs, rest, rfl, hys, hsplit, hrest⟩ :=
        complete_prefix xs (fun y hy => hf y (List.mem_cons_of_mem x hy)) hmore
      refine ⟨x :: ys, zs, rest, rfl, ?_, ?_, hrest⟩
      · rw [List.append_assoc, List.singleton_append, complete_line hx, hys, List.map_cons]
      · rw [hsplit, List.flatMap_cons, List.append_assoc _ _ rest]
    · rcases List.prefix_concat_iff.mp hshort with rfl | hshort
      · refine ⟨[x], xs, [], rfl, ?_, ?_, fun _ => rfl⟩
        · rw [complete_line hx]
          rfl
        · simp
      · have hnot : '\n' ∉ seen := fun hn => hx (hshort.mem hn)
        exact ⟨[], x :: xs, seen, rfl, complete_of_not_mem hnot, rfl, fun hz => absurd hz (by simp)⟩

end Garret.Lib.Lines
