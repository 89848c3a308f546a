import Mathlib.Algebra.BigOperators.Group.List.Basic
import Garret.Integer
import Garret.Lib.Text

/-!
# TOML documents of strings

The TOML a program writes when it renders a configuration line by line: comments, blank lines, table
headers, and bare keys bound to strings, to lists of strings or to integers. How a string is quoted
and read is the TOML library's (`Strings`), and so are its laws (`Strings.Lawful`).

* `parse` reads such a document. It is no reader of TOML: dotted and quoted keys, inline and repeated
  tables, other values and values with blanks of other kinds are refused or read as they stand, and
  nothing checks that a key is bound once. It stands for a TOML reader on the documents `text`
  writes, where `parse_text` says what any reader must give, and on no others.
* `Line.text` is a line as a renderer writes it, and **`parse_text`** reads a document of such lines
  back, whatever its strings are.
-/

namespace Garret.Lib.Toml

/-- How strings are written, and how one is read off the front of a text. -/
structure Strings where
  quote : String → String
  unquote : List Char → Option (String × List Char)

/-- A quotation mark, of either kind. -/
def isQuote (c : Char) : Bool := c == '"' || c == '\''

/-- What a quoted string is: it starts with a quotation mark, it is on one line unless the string is
not, and it is read back where no further quotation mark follows. -/
structure Strings.Lawful (t : Strings) : Prop where
  opens : ∀ s, ∃ c rest, (t.quote s).toList = c :: rest ∧ isQuote c = true
  one_line : ∀ s, '\n' ∉ s.toList → '\n' ∉ (t.quote s).toList
  reads_back : ∀ s rest, (∀ c ∈ rest.head?, isQuote c = false) →
    t.unquote ((t.quote s).toList ++ rest) = some (s, rest)

/-- A value. -/
inductive Value where
  | str (s : String)
  | strs (l : List String)
  | int (n : Int)
  deriving DecidableEq, Repr

/-- What a document says, in order. -/
inductive Item where
  | table (name : String)
  | entry (key : String) (value : Value)
  deriving DecidableEq, Repr

/-! ## Reading -/

/-- A character of a bare key. -/
def isBare (c : Char) : Bool := c.isAlphanum || c == '_' || c == '-'

/-- Blanks and line ends are skipped. -/
def skip (text : List Char) : List Char := text.dropWhile Char.isWhitespace

/-- Nothing but blanks and a comment is left on the line. -/
def endsLine (text : List Char) : Bool :=
  match text.dropWhile (fun c => c == ' ' || c == '\t' || c == '\r') with
  | [] => true
  | c :: _ => c == '\n' || c == '#'

/-- The strings of a list, after its opening bracket or a comma. -/
def parseStrs (t : Strings) : ℕ → List Char → Option (List String × List Char)
  | 0, _ => none
  | fuel + 1, text =>
    match skip text with
    | ']' :: rest => some ([], rest)
    | text => (t.unquote text).bind fun r =>
      match skip r.2 with
      | ',' :: rest => (parseStrs t fuel rest).map fun l => (r.1 :: l.1, l.2)
      | ']' :: rest => some ([r.1], rest)
      | _ => none

/-- A value at the front of a text. -/
def parseValue (t : Strings) (text : List Char) : Option (Value × List Char) :=
  match text with
  | [] => none
  | '[' :: rest => (parseStrs t (rest.length + 1) rest).map fun r => (.strs r.1, r.2)
  | c :: rest =>
    if isQuote c then (t.unquote (c :: rest)).map fun r => (.str r.1, r.2)
    else
      let isNumber := fun c : Char => c.isDigit || c == '-' || c == '+'
      (parseI64 ((c :: rest).takeWhile isNumber)).map fun n =>
        (.int n, (c :: rest).dropWhile isNumber)

/-- A table header, after its opening bracket. -/
def parseTable (text : List Char) : Option (Item × List Char) :=
  match text.dropWhile isBare with
  | ']' :: rest =>
    if endsLine rest then some (.table (String.ofList (text.takeWhile isBare)), rest) else none
  | _ => none

/-- A key and its value. -/
def parseEntry (t : Strings) (text : List Char) : Option (Item × List Char) :=
  match skip (text.dropWhile isBare) with
  | '=' :: rest => do
    let (value, rest) ← parseValue t (skip rest)
    if endsLine rest then some (.entry (String.ofList (text.takeWhile isBare)) value, rest)
    else none
  | _ => none

/-- The items of a document, line by line. -/
def parseItems (t : Strings) : ℕ → List Char → Option (List Item)
  | 0, _ => none
  | fuel + 1, text =>
    match skip text with
    | [] => some []
    | '#' :: rest => parseItems t fuel (rest.dropWhile (· != '\n'))
    | '[' :: rest => do
      let (item, rest) ← parseTable rest
      (parseItems t fuel rest).map (item :: ·)
    | text => do
      let (item, rest) ← parseEntry t text
      (parseItems t fuel rest).map (item :: ·)

/-- The items of a document that `text` writes; what it gives on another text says nothing. -/
def parse (t : Strings) (text : String) : Option (List Item) :=
  parseItems t (text.toList.length + 1) text.toList

/-! ## Writing -/

/-- A line of a rendered document. -/
inductive Line where
  | blank
  | comment (text : String)
  | table (name : String)
  | str (key s : String)
  | strs (key : String) (l : List String)

/-- A line as it is written. -/
def Line.text (t : Strings) : Line → List Char
  | blank => ['\n']
  | comment s => '#' :: s.toList ++ ['\n']
  | table name => '[' :: name.toList ++ [']', '\n']
  | str key s => key.toList ++ [' ', '=', ' '] ++ (t.quote s).toList ++ ['\n']
  | strs key l => key.toList ++ [' ', '=', ' ', '['] ++
      [',', ' '].intercalate (l.map fun s => (t.quote s).toList) ++ [']', '\n']

/-- What a line says. -/
def Line.item? : Line → Option Item
  | blank => none
  | comment _ => none
  | table name => some (.table name)
  | str key s => some (.entry key (.str s))
  | strs key l => some (.entry key (.strs l))

/-- A bare key or table name. -/
def Bare (s : String) : Prop := s ≠ "" ∧ ∀ c ∈ s.toList, isBare c = true

theorem bare_iff {s : String} : s ≠ "" ∧ s.toList.all isBare = true ↔ Bare s := by
  rw [List.all_eq_true]
  rfl

instance (s : String) : Decidable (Bare s) := decidable_of_iff _ bare_iff

theorem bare_ofList {l : List Char} (hne : l ≠ []) (h : l.all isBare = true) :
    Bare (String.ofList l) := by
  refine bare_iff.mp ⟨fun he => hne (String.ofList_injective he), ?_⟩
  rwa [String.toList_ofList]

/-- Names are bare, and a comment is one line. -/
def Line.Wf : Line → Prop
  | blank => True
  | comment s => '\n' ∉ s.toList
  | table name => Bare name
  | str key _ => Bare key
  | strs key _ => Bare key

/-- A document of these lines. -/
def text (t : Strings) (doc : List Line) : String := String.ofList (doc.flatMap (Line.text t))

/-! ## What is written is read back -/

theorem skip_blank {pre : List Char} (h : ∀ c ∈ pre, c.isWhitespace = true) (rest : List Char) :
    skip (pre ++ rest) = skip rest := by
  unfold skip
  exact List.dropWhile_append_of_pos h

theorem skip_cons {c : Char} (h : c.isWhitespace = false) (rest : List Char) :
    skip (c :: rest) = c :: rest := by
  simp [skip, h]

theorem isQuote_iff {c : Char} : isQuote c = true ↔ c = '"' ∨ c = '\'' := by
  simp [isQuote]

theorem isWhitespace_of_isBare {c : Char} (h : isBare c = true) : c.isWhitespace = false := by
  by_contra hw
  simp only [Char.isWhitespace, Bool.not_eq_false, Bool.or_eq_true, decide_eq_true_eq] at hw
  rcases hw with ((rfl | rfl) | rfl) | rfl <;> exact absurd h (by decide)

theorem skip_key {key : String} (h : Bare key) (rest : List Char) :
    skip (key.toList ++ rest) = key.toList ++ rest := by
  obtain ⟨hne, hbare⟩ := h
  cases hkey : key.toList with
  | nil => exact absurd (String.toList_injective hkey) hne
  | cons c cs => exact skip_cons (isWhitespace_of_isBare (hbare c (by simp [hkey]))) (cs ++ rest)

theorem takeWhile_bare {name : List Char} (h : ∀ c ∈ name, isBare c = true) {c : Char}
    (hc : isBare c = false) (rest : List Char) :
    (name ++ c :: rest).takeWhile isBare = name ∧
      (name ++ c :: rest).dropWhile isBare = c :: rest := by
  constructor
  · rw [List.takeWhile_append_of_pos h]
    simp [hc]
  · rw [List.dropWhile_append_of_pos h]
    simp [hc]

theorem parseTable_name {name : String} (h : Bare name) (rest : List Char) :
    parseTable (name.toList ++ ']' :: '\n' :: rest) = some (.table name, '\n' :: rest) := by
  obtain ⟨htake, hdrop⟩ := takeWhile_bare h.2 (c := ']') (by decide) ('\n' :: rest)
  unfold parseTable
  rw [htake, hdrop]
  simp [endsLine]

theorem parseValue_quote {t : Strings} {c : Char} (hc : isQuote c = true) (rest : List Char) :
    parseValue t (c :: rest) = (t.unquote (c :: rest)).map fun r => (.str r.1, r.2) := by
  rcases isQuote_iff.mp hc with rfl | rfl
  · rfl
  · rfl

/-- A string of a list, and what follows it. -/
theorem parseStrs_quote {t : Strings} {c : Char} (hc : isQuote c = true) {s : String}
    {text rest after tail : List Char} (h : skip text = c :: rest)
    (hread : t.unquote (c :: rest) = some (s, after)) (fuel : ℕ) :
    (skip after = ']' :: tail → parseStrs t (fuel + 1) text = some ([s], tail)) ∧
    (skip after = ',' :: tail → parseStrs t (fuel + 1) text =
      (parseStrs t fuel tail).map fun l => (s :: l.1, l.2)) := by
  constructor
  · intro hend
    rw [parseStrs, h]
    rcases isQuote_iff.mp hc with rfl | rfl <;> simp [hread, hend]
  · intro hend
    rw [parseStrs, h]
    rcases isQuote_iff.mp hc with rfl | rfl <;> simp [hread, hend]

/-- A key is read up to its value. -/
theorem parseEntry_key {t : Strings} {key : String} (h : Bare key) {c : Char}
    {text rest : List Char} {value : Value} (hc : c.isWhitespace = false)
    (hv : parseValue t (c :: text) = some (value, '\n' :: rest)) :
    parseEntry t (key.toList ++ ' ' :: '=' :: ' ' :: c :: text) =
      some (.entry key value, '\n' :: rest) := by
  obtain ⟨htake, hdrop⟩ := takeWhile_bare h.2 (c := ' ') (by decide) ('=' :: ' ' :: c :: text)
  have hsign : skip (' ' :: '=' :: ' ' :: c :: text) = '=' :: ' ' :: c :: text := rfl
  have hskip : skip (' ' :: c :: text) = c :: text := skip_cons hc text
  unfold parseEntry
  rw [htake, hdrop, hsign]
  simp [hskip, hv, endsLine]

/-- An entry comes off the front. -/
theorem parseItems_key {t : Strings} {key : String} (h : Bare key) {text value rest : List Char}
    {item : Item} (hskip : skip text = key.toList ++ value)
    (hentry : parseEntry t (key.toList ++ value) = some (item, rest)) (fuel : ℕ) :
    parseItems t (fuel + 1) text = (parseItems t fuel rest).map (item :: ·) := by
  obtain ⟨hne, hbare⟩ := h
  cases hkey : key.toList with
  | nil => exact absurd (String.toList_injective hkey) hne
  | cons c cs =>
    have hc := hbare c (by simp [hkey])
    have hcomment : c ≠ '#' := by
      rintro rfl
      exact absurd hc (by decide)
    have hbracket : c ≠ '[' := by
      rintro rfl
      exact absurd hc (by decide)
    rw [hkey, List.cons_append] at hskip hentry
    rw [parseItems, hskip]
    simp [hcomment, hbracket, hentry]

section

variable {t : Strings} (ht : t.Lawful)
include ht

theorem parseValue_str (s : String) (rest : List Char) :
    parseValue t ((t.quote s).toList ++ '\n' :: rest) = some (.str s, '\n' :: rest) := by
  have hread := ht.reads_back s ('\n' :: rest) (by simp [isQuote])
  obtain ⟨c, tail, htext, hc⟩ := ht.opens s
  rw [htext, List.cons_append] at hread ⊢
  rw [parseValue_quote hc, hread]
  rfl

/-- The strings of a list, from anywhere in it. -/
theorem parseStrs_join (rest : List Char) : ∀ (l : List String) (fuel : ℕ) (pre : List Char),
    l.length < fuel → (∀ c ∈ pre, c.isWhitespace = true) →
    parseStrs t fuel (pre ++ ([',', ' '].intercalate (l.map fun s => (t.quote s).toList) ++
      ']' :: rest)) = some (l, rest)
  | [], fuel + 1, pre, _, hpre => by
    have hskip : skip (pre ++ ([',', ' '].intercalate [] ++ ']' :: rest)) = ']' :: rest := by
      rw [skip_blank hpre]
      rfl
    rw [List.map_nil, parseStrs, hskip]
    rfl
  | s :: l, fuel + 1, pre, hlt, hpre => by
    obtain ⟨c, tail, htext, hc⟩ := ht.opens s
    have hblank : c.isWhitespace = false := by
      rcases isQuote_iff.mp hc with rfl | rfl <;> decide
    cases l with
    | nil =>
      have hread := ht.reads_back s (']' :: rest) (by simp [isQuote])
      have hskip : skip (pre ++ ([',', ' '].intercalate ([s].map fun s => (t.quote s).toList) ++
          ']' :: rest)) = c :: (tail ++ ']' :: rest) := by
        rw [skip_blank hpre]
        simp [htext, skip_cons hblank]
      rw [htext, List.cons_append] at hread
      exact (parseStrs_quote hc hskip hread fuel).1 rfl
    | cons r l =>
      have hspace : ∀ c ∈ [' '], c.isWhitespace = true := List.forall_mem_singleton.mpr rfl
      have hrec := parseStrs_join rest (r :: l) fuel [' '] (by simpa using hlt) hspace
      have hread := ht.reads_back s (',' :: ([' '] ++
        ([',', ' '].intercalate ((r :: l).map fun s => (t.quote s).toList) ++ ']' :: rest)))
        (by simp [isQuote])
      have hskip : skip (pre ++ ([',', ' '].intercalate
          ((s :: r :: l).map fun s => (t.quote s).toList) ++ ']' :: rest)) =
          c :: (tail ++ ',' :: ([' '] ++ ([',', ' '].intercalate
            ((r :: l).map fun s => (t.quote s).toList) ++ ']' :: rest))) := by
        rw [skip_blank hpre, List.map_cons, List.map_cons, List.intercalate_cons_cons, htext]
        simp [skip_cons hblank]
      rw [htext, List.cons_append] at hread
      rw [(parseStrs_quote hc hskip hread fuel).2 rfl, hrec]
      rfl

theorem length_le_join (l : List String) :
    l.length ≤ ([',', ' '].intercalate (l.map fun s => (t.quote s).toList)).length := by
  induction l with
  | nil => simp
  | cons s l ih =>
    obtain ⟨c, tail, htext, -⟩ := ht.opens s
    cases l with
    | nil => simp [htext]
    | cons r l =>
      simp only [List.map_cons, List.intercalate_cons_cons, List.length_cons, List.length_append,
        htext] at ih ⊢
      omega

theorem parseValue_strs (l : List String) (rest : List Char) :
    parseValue t ('[' :: ([',', ' '].intercalate (l.map fun s => (t.quote s).toList) ++
      ']' :: rest)) = some (.strs l, rest) := by
  have hlen := length_le_join ht l
  have hread := parseStrs_join ht rest l
    (([',', ' '].intercalate (l.map fun s => (t.quote s).toList) ++ ']' :: rest).length + 1) []
    (by simp only [List.length_append]; omega) (by simp)
  rw [List.nil_append] at hread
  simp only [parseValue, hread]
  rfl

/-- A line is read, and the end of it is left. -/
theorem parseItems_line {l : Line} (hl : l.Wf) (hblank : l ≠ .blank) {pre : List Char}
    (hpre : ∀ c ∈ pre, c.isWhitespace = true) (rest : List Char) (fuel : ℕ) :
    parseItems t (fuel + 1) (pre ++ (l.text t ++ rest)) =
      (parseItems t fuel ('\n' :: rest)).map (l.item?.toList ++ ·) := by
  have hskip := skip_blank hpre (l.text t ++ rest)
  cases l with
  | blank => exact absurd rfl hblank
  | comment s =>
    have hcut : (s.toList ++ '\n' :: rest).dropWhile (· != '\n') = '\n' :: rest :=
      dropWhile_bne hl rest
    have htext : Line.text t (.comment s) ++ rest = '#' :: (s.toList ++ '\n' :: rest) := by
      simp [Line.text]
    rw [htext, skip_cons (by decide)] at hskip
    rw [htext, parseItems, hskip]
    simp [hcut, Line.item?]
  | table name =>
    have htext : Line.text t (.table name) ++ rest =
        '[' :: (name.toList ++ ']' :: '\n' :: rest) := by
      simp [Line.text]
    rw [htext, skip_cons (by decide)] at hskip
    rw [htext, parseItems, hskip]
    simp [parseTable_name hl, Line.item?]
  | str key s =>
    have hread := parseValue_str ht s rest
    obtain ⟨c, tail, hquote, hc⟩ := ht.opens s
    have hblank : c.isWhitespace = false := by
      rcases isQuote_iff.mp hc with rfl | rfl <;> decide
    have htext : Line.text t (.str key s) ++ rest =
        key.toList ++ ' ' :: '=' :: ' ' :: c :: (tail ++ '\n' :: rest) := by
      simp [Line.text, hquote]
    rw [hquote, List.cons_append] at hread
    rw [htext, skip_key hl] at hskip
    rw [htext, parseItems_key hl hskip (parseEntry_key hl hblank hread)]
    simp [Line.item?]
  | strs key l =>
    have hread := parseValue_strs ht l ('\n' :: rest)
    have htext : Line.text t (.strs key l) ++ rest = key.toList ++ ' ' :: '=' :: ' ' :: '[' ::
        ([',', ' '].intercalate (l.map fun s => (t.quote s).toList) ++ ']' :: '\n' :: rest) := by
      simp [Line.text]
    rw [htext, skip_key hl] at hskip
    rw [htext, parseItems_key hl hskip (parseEntry_key hl (by decide) hread)]
    simp [Line.item?]

theorem parseItems_text : ∀ (doc : List Line) (fuel : ℕ) (pre : List Char),
    (∀ l ∈ doc, l.Wf) → doc.length < fuel → (∀ c ∈ pre, c.isWhitespace = true) →
    parseItems t fuel (pre ++ doc.flatMap (Line.text t)) = some (doc.filterMap Line.item?)
  | [], fuel + 1, pre, _, _, hpre => by
    have hskip : skip (pre ++ []) = [] := skip_blank hpre []
    rw [List.flatMap_nil, parseItems, hskip]
    rfl
  | l :: doc, fuel + 1, pre, hwf, hlt, hpre => by
    have hdoc : ∀ x ∈ doc, x.Wf := fun x hx => hwf x (List.mem_cons_of_mem _ hx)
    have hlt' : doc.length < fuel := by simpa using hlt
    rw [List.flatMap_cons]
    by_cases hl : l = .blank
    · have hpre' : ∀ c ∈ pre ++ ['\n'], c.isWhitespace = true := by
        intro c hc
        rcases List.mem_append.mp hc with hc | hc
        · exact hpre c hc
        · rw [List.mem_singleton.mp hc]
          rfl
      have hrec := parseItems_text doc (fuel + 1) _ hdoc (by omega) hpre'
      rw [List.append_assoc] at hrec
      subst hl
      exact hrec
    · have hbreak : ∀ c ∈ ['\n'], c.isWhitespace = true := List.forall_mem_singleton.mpr rfl
      have hrec := parseItems_text doc fuel ['\n'] hdoc hlt' hbreak
      rw [parseItems_line ht (hwf l List.mem_cons_self) hl hpre, ← List.singleton_append, hrec]
      cases hitem : l.item? with
      | none => simp [hitem]
      | some item => simp [hitem]

/-- **A document of lines is read back.** -/
theorem parse_text {doc : List Line} (hwf : ∀ l ∈ doc, l.Wf) :
    parse t (text t doc) = some (doc.filterMap Line.item?) := by
  have hlen : doc.length ≤ (doc.flatMap (Line.text t)).length := by
    rw [List.length_flatMap]
    have hone : ∀ n ∈ doc.map fun l => (Line.text t l).length, 1 ≤ n := by
      intro n hn
      obtain ⟨l, -, rfl⟩ := List.mem_map.mp hn
      cases l <;> simp only [Line.text, List.length_append, List.length_cons] <;> omega
    simpa using List.length_le_sum_of_one_le _ hone
  have hread := parseItems_text ht doc ((doc.flatMap (Line.text t)).length + 1) [] hwf (by omega)
    (by simp)
  unfold parse text
  rw [String.toList_ofList]
  exact hread

end

/-! ## Basic strings -/

/-- A character inside quotation marks. -/
def escapeChar (c : Char) : List Char :=
  if c = '"' then ['\\', '"']
  else if c = '\\' then ['\\', '\\']
  else if c = '\n' then ['\\', 'n']
  else [c]

/-- The contents of a basic string up to its closing mark. -/
def readBasic : List Char → Option (List Char × List Char)
  | [] => none
  | '"' :: rest => some ([], rest)
  | ['\\'] => none
  | '\\' :: c :: rest =>
    (readBasic rest).map fun r => ((if c = 'n' then '\n' else c) :: r.1, r.2)
  | c :: rest => (readBasic rest).map fun r => (c :: r.1, r.2)

/-- Basic strings: double quotation marks, with backslash escapes. -/
def basic : Strings where
  quote s := String.ofList ('"' :: (s.toList.flatMap escapeChar ++ ['"']))
  unquote
    | '"' :: rest => (readBasic rest).map fun r => (String.ofList r.1, r.2)
    | _ => none

theorem readBasic_escape (rest : List Char) : ∀ s : List Char,
    readBasic (s.flatMap escapeChar ++ '"' :: rest) = some (s, rest)
  | [] => rfl
  | c :: s => by
    have hrec := readBasic_escape rest s
    rw [List.flatMap_cons, List.append_assoc]
    by_cases hquote : c = '"'
    · subst hquote
      simp [escapeChar, readBasic, hrec]
    · by_cases hslash : c = '\\'
      · subst hslash
        simp [escapeChar, readBasic, hrec]
      · by_cases hline : c = '\n'
        · subst hline
          simp [escapeChar, readBasic, hrec]
        · simp [escapeChar, readBasic, hquote, hslash, hline, hrec]

theorem basic_lawful : basic.Lawful where
  opens s := by
    refine ⟨'"', s.toList.flatMap escapeChar ++ ['"'], ?_, rfl⟩
    simp [basic]
  one_line s h := by
    simp only [basic, String.toList_ofList, List.mem_cons, List.mem_append, List.mem_flatMap,
      not_or, not_exists, not_and]
    refine ⟨by decide, fun c hc hin => ?_, by decide⟩
    unfold escapeChar at hin
    split at hin
    · exact absurd hin (by decide)
    · split at hin
      · exact absurd hin (by decide)
      · split at hin
        · exact absurd hin (by decide)
        · rw [List.mem_singleton] at hin
          exact h (hin ▸ hc)
  reads_back s rest _ := by
    have hread := readBasic_escape rest s.toList
    simp [basic, hread]

end Garret.Lib.Toml
