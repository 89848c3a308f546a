import Garret.Lib.Lines
import Mathlib.Data.Countable.Basic
import Mathlib.Data.List.Infix
import Mathlib.Data.Set.Basic
import Mathlib.Logic.Equiv.List

/-!
# Formats

A library's way of writing values as texts and of reading texts back, for a program that only hands
values over: how a value is written is the format's own.

* `Lawful`, on the values the program writes: a text is one line, and what was written is read back.
* `Closed`: where a text ends can be seen. It is read with a line end after it as well, and no
  beginning of it is read as anything.

`ofPrint` reads what a given writer writes, and nothing else; of the writer **`closed_ofPrint`** needs
that no text begins another. `known` is such a writer for any countable type: it has the texts of a
table for the values in it (`closed_known`).
-/

namespace Garret.Lib

/-- A writer and a reader of values. -/
structure Format (α : Type) where
  print : α → List Char
  parse : List Char → Option α

namespace Format

variable {α : Type}

/-- Values of `s` are written on one line and read back. -/
structure Lawful (f : Format α) (s : Set α) : Prop where
  one_line : ∀ a ∈ s, Lines.OneLine (f.print a)
  reads : ∀ a ∈ s, f.parse (f.print a) = some a

/-- Every value is written on one line that shows where it ends. -/
structure Closed (f : Format α) : Prop extends f.Lawful Set.univ where
  reads_line : ∀ a, f.parse (f.print a ++ ['\n']) = some a
  refuses : ∀ a l, l <+: f.print a → l ≠ f.print a → f.parse l = none

theorem Lawful.mono {f : Format α} {s t : Set α} (h : f.Lawful t) (hst : s ⊆ t) : f.Lawful s :=
  ⟨fun a ha => h.one_line a (hst ha), fun a ha => h.reads a (hst ha)⟩

/-! ## Reading what a writer writes -/

section

variable {print : α → List Char}

/-- The reader of a writer: a text is read as what is written so, a line end after it left out. -/
noncomputable def ofPrint (print : α → List Char) : Format α where
  print := print
  parse text := Function.partialInv print (text.takeWhile (· ≠ '\n'))

theorem takeWhile_line {l : List Char} (h : '\n' ∉ l) (rest : List Char) :
    (l ++ '\n' :: rest).takeWhile (· ≠ '\n') = l ∧ l.takeWhile (· ≠ '\n') = l := by
  induction l with
  | nil => exact ⟨rfl, rfl⟩
  | cons c l ih =>
    have hc : c ≠ '\n' := fun hc => h (hc ▸ List.mem_cons_self)
    obtain ⟨h₁, h₂⟩ := ih fun hl => h (List.mem_cons_of_mem c hl)
    exact ⟨by simpa [hc] using h₁, by simpa [hc] using h₂⟩

/-- **A writer whose texts do not begin one another can be read.** -/
theorem closed_ofPrint (hline : ∀ a, Lines.OneLine (print a))
    (hfree : ∀ a b, print a <+: print b → a = b) : (ofPrint print).Closed := by
  have hinj : Function.Injective print := fun a b h => hfree a b (h ▸ List.prefix_rfl)
  have hnot : ∀ a, '\n' ∉ print a := fun a => (hline a).not_mem
  refine ⟨⟨fun a _ => hline a, fun a _ => ?_⟩, fun a => ?_, fun a l hl hne => ?_⟩
  · show Function.partialInv print ((print a).takeWhile _) = some a
    rw [(takeWhile_line (hnot a) []).2, Function.partialInv_left hinj]
  · show Function.partialInv print ((print a ++ ['\n']).takeWhile _) = some a
    rw [(takeWhile_line (hnot a) []).1, Function.partialInv_left hinj]
  · -- what is read was written, and begins `print a`
    show Function.partialInv print (l.takeWhile _) = none
    rw [(takeWhile_line (fun hn => hnot a (hl.mem hn)) []).2]
    refine dif_neg ?_
    rintro ⟨b, rfl⟩
    exact hne (congrArg print (hfree b a hl))

end

/-! ## A writer with known texts -/

instance : Countable Char :=
  Function.Injective.countable (f := Char.toNat) fun _ _ h => Char.ext (UInt32.toNat_inj.mp h)

instance : Countable String :=
  Function.Injective.countable (f := String.toList) fun _ _ h => String.toList_injective h

instance : Countable Int64 :=
  Function.Injective.countable (f := Int64.toInt) fun _ _ h => Int64.toInt_inj.mp h

instance : Countable UInt64 :=
  Function.Injective.countable (f := UInt64.toNat) fun _ _ h => UInt64.toNat_inj.mp h

/-- A number in strokes. -/
def strokes : ℕ → List Char
  | 0 => ['.']
  | n + 1 => 'I' :: strokes n

theorem eq_of_strokes : ∀ {m n : ℕ}, strokes m <+: strokes n → m = n
  | 0, 0, _ => rfl
  | 0, n + 1, h => absurd (List.cons_prefix_cons.mp h).1 (by decide)
  | m + 1, 0, h => absurd (List.cons_prefix_cons.mp h).1 (by decide)
  | m + 1, n + 1, h => congrArg _ (eq_of_strokes (List.cons_prefix_cons.mp h).2)

theorem mem_strokes {c : Char} : ∀ {n : ℕ}, c ∈ strokes n → c = 'I' ∨ c = '.'
  | 0, h => Or.inr (List.mem_singleton.mp h)
  | _ + 1, h => (List.mem_cons.mp h).elim Or.inl mem_strokes

/-- What a table of texts must be: lines that are no strokes and do not begin one another. -/
structure Texts (texts : List (α × List Char)) : Prop where
  one_line : ∀ e ∈ texts, Lines.OneLine e.2
  marked : ∀ e ∈ texts, e.2 ≠ [] ∧ e.2.head? ≠ some '#'
  free : ∀ e ∈ texts, ∀ e' ∈ texts, e.2 <+: e'.2 → e.1 = e'.1

instance [DecidableEq α] (texts : List (α × List Char)) : Decidable (Texts texts) :=
  decidable_of_iff ((∀ e ∈ texts, Lines.OneLine e.2) ∧
      (∀ e ∈ texts, e.2 ≠ [] ∧ e.2.head? ≠ some '#') ∧
      ∀ e ∈ texts, ∀ e' ∈ texts, e.2 <+: e'.2 → e.1 = e'.1)
    ⟨fun h => ⟨h.1, h.2.1, h.2.2⟩, fun h => ⟨h.one_line, h.marked, h.free⟩⟩

section

variable [DecidableEq α] (code : α → ℕ) (texts : List (α × List Char))

/-- A value of the table as the table has it, another one by its number. -/
def knownText (a : α) : List Char := (texts.lookup a).getD ('#' :: strokes (code a))

theorem knownText_cases (a : α) :
    (∃ text, (a, text) ∈ texts ∧ knownText code texts a = text) ∨
      knownText code texts a = '#' :: strokes (code a) := by
  unfold knownText
  cases h : texts.lookup a with
  | none => exact Or.inr rfl
  | some text =>
    obtain ⟨l₁, l₂, rfl, -⟩ := List.lookup_eq_some_iff.mp h
    exact Or.inl ⟨text, List.mem_append_right l₁ List.mem_cons_self, rfl⟩

variable {code} {texts}

theorem knownText_line (ht : Texts texts) (a : α) : Lines.OneLine (knownText code texts a) := by
  rcases knownText_cases code texts a with ⟨text, hmem, heq⟩ | heq
  · rw [heq]
    exact ht.one_line _ hmem
  · rw [heq]
    intro c hc
    rcases List.mem_cons.mp hc with rfl | hc
    · decide
    · rcases mem_strokes hc with rfl | rfl <;> decide

/-- **No text begins another.** -/
theorem knownText_free (hcode : Function.Injective code) (ht : Texts texts) {a b : α}
    (h : knownText code texts a <+: knownText code texts b) : a = b := by
  rcases knownText_cases code texts a with ⟨x, hx, ha⟩ | ha <;>
    rcases knownText_cases code texts b with ⟨y, hy, hb⟩ | hb <;>
      rw [ha, hb] at h
  · exact ht.free _ hx _ hy h
  · -- a text of the table begins with another character than a number
    cases x with
    | nil => exact absurd rfl (ht.marked _ hx).1
    | cons c rest =>
      exact absurd (congrArg some (List.cons_prefix_cons.mp h).1) (ht.marked _ hx).2
  · cases y with
    | nil => exact absurd h (by simp)
    | cons c rest =>
      exact absurd (congrArg some (List.cons_prefix_cons.mp h).1.symm) (ht.marked _ hy).2
  · exact hcode (eq_of_strokes (List.cons_prefix_cons.mp h).2)

end

/-- The format that writes the values of a table as the table has them. -/
noncomputable def known [Countable α] [DecidableEq α] (texts : List (α × List Char)) : Format α :=
  ofPrint (knownText (exists_injective_nat α).choose texts)

theorem closed_known [Countable α] [DecidableEq α] {texts : List (α × List Char)}
    (ht : Texts texts) : (known texts).Closed :=
  closed_ofPrint (knownText_line ht) fun _ _ h =>
    knownText_free (exists_injective_nat α).choose_spec ht h

end Format

end Garret.Lib
