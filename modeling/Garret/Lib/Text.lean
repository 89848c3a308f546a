import Mathlib.Data.List.TakeDrop
import Mathlib.Data.String.Basic

/-!
# Words, lines and ends of a text

Cutting a list of characters: at a character, into words at blanks (`words`), into lines (`lines`),
and at its end (`trimEndMatches`), with what each makes of a text that was put together from pieces.
-/

namespace Garret.Lib

/-- The test that stops at a character passes every other one. -/
theorem bne_of_notMem {c : Char} {l : List Char} (h : c ∉ l) : ∀ x ∈ l, (x != c) = true := by
  intro x hx
  have hne : x ≠ c := by
    rintro rfl
    exact h hx
  simpa using hne

theorem takeWhile_bne {c : Char} {a : List Char} (h : c ∉ a) (b : List Char) :
    (a ++ c :: b).takeWhile (· != c) = a := by
  rw [List.takeWhile_append_of_pos (bne_of_notMem h)]
  simp

theorem dropWhile_bne {c : Char} {a : List Char} (h : c ∉ a) (b : List Char) :
    (a ++ c :: b).dropWhile (· != c) = c :: b := by
  rw [List.dropWhile_append_of_pos (bne_of_notMem h)]
  simp

/-- A word: some characters, none of them blank. -/
def IsWord (w : List Char) : Prop := w ≠ [] ∧ ∀ c ∈ w, c.isWhitespace = false

theorem isWord_iff {w : List Char} :
    w ≠ [] ∧ w.all (fun c => !c.isWhitespace) = true ↔ IsWord w := by
  simp only [IsWord, List.all_eq_true, Bool.not_eq_true']

instance (w : List Char) : Decidable (IsWord w) := decidable_of_iff _ isWord_iff

/-- The words of a text: what stands between blanks. -/
def words (text : List Char) : List (List Char) :=
  (text.splitOnP Char.isWhitespace).filter fun w => !w.isEmpty

@[simp] theorem words_nil : words [] = [] := rfl

theorem words_of_isWord {w : List Char} (h : IsWord w) : words w = [w] := by
  unfold words
  rw [List.splitOnP_eq_singleton h.2]
  simp [h.1]

/-- A word and a blank come off the front. -/
theorem words_cons {w : List Char} (h : IsWord w) {c : Char} (hc : c.isWhitespace = true)
    (rest : List Char) : words (w ++ c :: rest) = w :: words rest := by
  unfold words
  rw [List.splitOnP_append_cons_of_forall_mem h.2 c hc, List.filter_cons_of_pos (by simp [h.1])]

/-- Words put together with blanks between them are read back. -/
theorem words_intercalate {ws : List (List Char)} (h : ∀ w ∈ ws, IsWord w) {c : Char}
    (hc : c.isWhitespace = true) : words ([c].intercalate ws) = ws := by
  induction ws with
  | nil => rfl
  | cons w ws ih =>
    have hw := h w List.mem_cons_self
    have ih := ih fun x hx => h x (List.mem_cons_of_mem _ hx)
    cases ws with
    | nil => rw [List.intercalate_singleton, words_of_isWord hw]
    | cons v vs =>
      rw [List.intercalate_cons_cons, List.append_assoc, List.singleton_append, words_cons hw hc, ih]

/-- What stands in a text put together from pieces stands in one of them, or between them. -/
theorem mem_intercalate {c x : Char} : ∀ {ws : List (List Char)}, x ∈ [c].intercalate ws →
    x = c ∨ ∃ w ∈ ws, x ∈ w
  | [], h => absurd h (by simp)
  | [w], h => Or.inr ⟨w, List.mem_singleton_self w, by simpa using h⟩
  | w :: v :: ws, h => by
    rw [List.intercalate_cons_cons, List.append_assoc] at h
    rcases List.mem_append.mp h with h | h
    · exact Or.inr ⟨w, List.mem_cons_self, h⟩
    · rcases List.mem_cons.mp h with rfl | h
      · exact Or.inl rfl
      · rcases mem_intercalate h with rfl | ⟨u, hu, hx⟩
        · exact Or.inl rfl
        · exact Or.inr ⟨u, List.mem_cons_of_mem _ hu, hx⟩

/-- The lines of a text. -/
def lines (text : List Char) : List (List Char) := text.splitOn '\n'

/-- A literal does not hold a character; the list is that of the literal. -/
theorem not_mem_ofList {c : Char} {l : List Char} (h : c ∉ l) : c ∉ (String.ofList l).toList := by
  rwa [String.toList_ofList]

/-- A line comes off the front. -/
theorem lines_cons {l : List Char} (h : '\n' ∉ l) (rest : List Char) :
    lines (l ++ '\n' :: rest) = l :: lines rest := by
  unfold lines
  rw [List.splitOn_eq_splitOnP]
  refine List.splitOnP_append_cons_of_forall_mem ?_ '\n' (by decide) rest
  intro c hc
  simpa using bne_of_notMem h c hc

/-- The lines of two texts with a line break between them. -/
theorem lines_append (a b : List Char) : lines (a ++ '\n' :: b) = lines a ++ lines b :=
  List.splitOn_append_cons_self a b

/-- `s.trim_end_matches(c)`. -/
def trimEndMatches (c : Char) (text : List Char) : List Char :=
  (text.reverse.dropWhile (· == c)).reverse

/-- A text that does not end in `c` is left as it is. -/
theorem trimEndMatches_eq_self {c : Char} {text : List Char} :
    trimEndMatches c text = text ↔ text.getLast? ≠ some c := by
  unfold trimEndMatches
  rw [List.reverse_eq_iff, ← List.head?_reverse]
  cases text.reverse with
  | nil => simp
  | cons x xs =>
    by_cases hx : x = c
    · subst hx
      simp only [List.dropWhile_cons, beq_self_eq_true, if_true, List.head?_cons, ne_eq,
        not_true_eq_false, iff_false]
      intro h
      have hlen := congrArg List.length h
      have hle := (List.dropWhile_sublist (· == x) (l := xs)).length_le
      simp only [List.length_cons] at hlen
      omega
    · simp [hx]

/-- What is trimmed off are copies of `c`. -/
theorem mem_trimEndMatches {c x : Char} {text : List Char} (h : x ∈ text) :
    x ∈ trimEndMatches c text ∨ x = c := by
  unfold trimEndMatches
  rw [List.mem_reverse]
  rw [← List.mem_reverse, ← List.takeWhile_append_dropWhile (p := (· == c)) (l := text.reverse)] at h
  rcases List.mem_append.mp h with h | h
  · have hall := List.all_eq_true.mp (List.all_takeWhile (p := (· == c)) (l := text.reverse)) x h
    exact Or.inr (by simpa using hall)
  · exact Or.inl h

end Garret.Lib
