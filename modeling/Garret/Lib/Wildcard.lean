import Mathlib.Computability.Language
import Mathlib.Data.List.Infix

/-!
# Patterns with wildcards

A pattern is a text in which one character stands for any run of characters (`Marks.many`), one for
any single character (`Marks.one`), and a third makes the next character stand for itself
(`Marks.escape`). `parse` reads it, and `language` is what the pieces match: the product of their
languages. `same` says which characters match each other.

* `parse_escape`: an escaped text is read back as itself, in front of any pattern.
* `mem_between`, `mem_ending`: what a text matches between two runs, and after one.
-/

namespace Garret.Lib.Wildcard

/-- A piece of a pattern. -/
inductive Piece (α : Type)
  | many
  | one
  | lit (a : α)

/-- The characters with a meaning of their own. -/
structure Marks (α : Type) where
  many : α
  one : α
  escape : α

section

variable {α : Type} (same : α → α → Prop)

/-- What a piece matches. -/
def Piece.language : Piece α → Language α
  | .many => ⊤
  | .one => {text | ∃ a, text = [a]}
  | .lit a => {text | ∃ b, same a b ∧ text = [b]}

/-- What pieces match one after the other. -/
def language (pieces : List (Piece α)) : Language α := (pieces.map (Piece.language same)).prod

variable {same}

theorem mem_nil {text : List α} : text ∈ language same [] ↔ text = [] := by
  simp [language]

theorem mem_many {pieces : List (Piece α)} {text : List α} :
    text ∈ language same (.many :: pieces) ↔
      ∃ rest, rest <:+ text ∧ rest ∈ language same pieces := by
  unfold language
  rw [List.map_cons, List.prod_cons, Language.mem_mul]
  constructor
  · rintro ⟨a, -, rest, hrest, rfl⟩
    exact ⟨rest, List.suffix_append a rest, hrest⟩
  · rintro ⟨rest, ⟨a, rfl⟩, hrest⟩
    exact ⟨a, trivial, rest, hrest, rfl⟩

theorem mem_one {pieces : List (Piece α)} {text : List α} :
    text ∈ language same (.one :: pieces) ↔
      ∃ a rest, text = a :: rest ∧ rest ∈ language same pieces := by
  unfold language
  rw [List.map_cons, List.prod_cons, Language.mem_mul]
  constructor
  · rintro ⟨_, ⟨a, rfl⟩, rest, hrest, rfl⟩
    exact ⟨a, rest, rfl, hrest⟩
  · rintro ⟨a, rest, rfl, hrest⟩
    exact ⟨[a], ⟨a, rfl⟩, rest, hrest, rfl⟩

theorem mem_lit {a : α} {pieces : List (Piece α)} {text : List α} :
    text ∈ language same (.lit a :: pieces) ↔
      ∃ b rest, text = b :: rest ∧ same a b ∧ rest ∈ language same pieces := by
  unfold language
  rw [List.map_cons, List.prod_cons, Language.mem_mul]
  constructor
  · rintro ⟨_, ⟨b, hab, rfl⟩, rest, hrest, rfl⟩
    exact ⟨b, rest, rfl, hab, hrest⟩
  · rintro ⟨b, rest, rfl, hab, hrest⟩
    exact ⟨[b], ⟨b, hab, rfl⟩, rest, hrest, rfl⟩

/-- Literal characters in front of a pattern match as many characters. -/
theorem mem_lits {q : List α} {pieces : List (Piece α)} {text : List α} :
    text ∈ language same (q.map .lit ++ pieces) ↔
      ∃ u rest, text = u ++ rest ∧ List.Forall₂ same q u ∧ rest ∈ language same pieces := by
  induction q generalizing text with
  | nil => simp
  | cons a q ih =>
    rw [List.map_cons, List.cons_append, mem_lit]
    constructor
    · rintro ⟨b, rest, rfl, hab, hrest⟩
      obtain ⟨u, rest, rfl, hu, hrest⟩ := ih.mp hrest
      exact ⟨b :: u, rest, rfl, .cons hab hu, hrest⟩
    · rintro ⟨u, rest, rfl, hu, hrest⟩
      obtain ⟨b, v, hab, hv, rfl⟩ := List.forall₂_cons_left_iff.mp hu
      exact ⟨b, v ++ rest, rfl, hab, ih.mpr ⟨v, rest, rfl, hv, hrest⟩⟩

/-- A text between two runs occurs anywhere. -/
theorem mem_between {q text : List α} :
    text ∈ language same (.many :: (q.map .lit ++ [.many])) ↔
      ∃ u, u <:+: text ∧ List.Forall₂ same q u := by
  rw [mem_many]
  constructor
  · rintro ⟨rest, ⟨a, rfl⟩, hrest⟩
    obtain ⟨u, b, rfl, hu, -⟩ := mem_lits.mp hrest
    exact ⟨u, ⟨a, b, by rw [List.append_assoc]⟩, hu⟩
  · rintro ⟨u, ⟨a, b, rfl⟩, hu⟩
    refine ⟨u ++ b, ⟨a, (List.append_assoc a u b).symm⟩, mem_lits.mpr ⟨u, b, rfl, hu, ?_⟩⟩
    exact mem_many.mpr ⟨[], List.nil_suffix, mem_nil.mpr rfl⟩

/-- A text after a run occurs at the end. -/
theorem mem_ending {q text : List α} :
    text ∈ language same (.many :: q.map .lit) ↔ ∃ u, u <:+ text ∧ List.Forall₂ same q u := by
  rw [mem_many]
  constructor
  · rintro ⟨rest, hsuf, hrest⟩
    rw [← List.append_nil (q.map _)] at hrest
    obtain ⟨u, b, rfl, hu, hb⟩ := mem_lits.mp hrest
    rw [mem_nil.mp hb, List.append_nil] at hsuf
    exact ⟨u, hsuf, hu⟩
  · rintro ⟨u, hsuf, hu⟩
    refine ⟨u, hsuf, ?_⟩
    rw [← List.append_nil (q.map _)]
    exact mem_lits.mpr ⟨u, [], (List.append_nil u).symm, hu, mem_nil.mpr rfl⟩

end

/-! ## Reading and escaping -/

section

variable {α : Type} [DecidableEq α] (marks : Marks α)

/-- The pieces of a pattern; `none` when it ends in the escape character. -/
def parse : List α → Option (List (Piece α))
  | [] => some []
  | c :: pattern =>
    if c = marks.escape then
      match pattern with
      | [] => none
      | d :: pattern => (parse pattern).map (.lit d :: ·)
    else if c = marks.many then (parse pattern).map (.many :: ·)
    else if c = marks.one then (parse pattern).map (.one :: ·)
    else (parse pattern).map (.lit c :: ·)

/-- A text as a pattern of itself. -/
def escape (q : List α) : List α :=
  q.flatMap fun c =>
    if c = marks.escape ∨ c = marks.many ∨ c = marks.one then [marks.escape, c] else [c]

variable {marks}

/-- After the escape character any character stands for itself. -/
theorem parse_quoted (c : α) (pattern : List α) :
    parse marks (marks.escape :: c :: pattern) = (parse marks pattern).map (.lit c :: ·) := by
  rw [parse.eq_def]
  simp

/-- So does one without a meaning of its own. -/
theorem parse_plain {c : α} (h : ¬ (c = marks.escape ∨ c = marks.many ∨ c = marks.one))
    (pattern : List α) : parse marks (c :: pattern) = (parse marks pattern).map (.lit c :: ·) := by
  simp only [not_or] at h
  rw [parse.eq_def]
  simp [h.1, h.2.1, h.2.2]

theorem parse_many (h : marks.many ≠ marks.escape) (pattern : List α) :
    parse marks (marks.many :: pattern) = (parse marks pattern).map (.many :: ·) := by
  rw [parse.eq_def]
  simp [h]

theorem parse_one (h : marks.one ≠ marks.escape) (h' : marks.one ≠ marks.many) (pattern : List α) :
    parse marks (marks.one :: pattern) = (parse marks pattern).map (.one :: ·) := by
  rw [parse.eq_def]
  simp [h, h']

variable (marks)

/-- **An escaped text is read back as itself.** -/
theorem parse_escape (q pattern : List α) :
    parse marks (escape marks q ++ pattern) = (parse marks pattern).map (q.map .lit ++ ·) := by
  induction q with
  | nil => simp [escape]
  | cons c q ih =>
    have hcons : escape marks (c :: q) =
        (if c = marks.escape ∨ c = marks.many ∨ c = marks.one then [marks.escape, c] else [c]) ++
          escape marks q := List.flatMap_cons
    rw [hcons, List.append_assoc]
    by_cases hc : c = marks.escape ∨ c = marks.many ∨ c = marks.one
    · rw [if_pos hc, List.cons_append, List.singleton_append, parse_quoted, ih, Option.map_map]
      rfl
    · rw [if_neg hc, List.singleton_append, parse_plain hc, ih, Option.map_map]
      rfl

end

end Garret.Lib.Wildcard
