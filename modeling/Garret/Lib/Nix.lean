import Garret.Lib.Text

/-!
# Nix settings and Nix strings

Two grammars a text may be written for.

* `parseConf`: a settings file, line by line. `#` starts a comment, the rest splits at blanks into a
  name, `=` and values.
* `lex` and `parseBinding`: the Nix expressions that bind an attribute path to a set of lists of
  strings, `a.b = { c = [ "…" ]; };`. Double-quoted strings follow Nix: a backslash escapes the next
  character, and a dollar sign before a brace interpolates, which is no plain string and refused.
  A dollar sign takes the next character with it, so the second of two does not interpolate.
* `lex_string`: a text without quotes, backslashes and braces is the contents of a string.
-/

namespace Garret.Lib.Nix

/-! ## Settings files -/

/-- A line without its comment. -/
def uncomment (l : List Char) : List Char := l.takeWhile (· != '#')

/-- One line of a settings file: a setting, nothing, or a line that is refused (`none`). -/
def parseLine (l : List Char) : Option (Option (String × List String)) :=
  match words (uncomment l) with
  | [] => some none
  | name :: ['='] :: values => some (some (String.ofList name, values.map String.ofList))
  | _ => none

/-- The settings of a file, in order. -/
def parseConf (text : String) : Option (List (String × List String)) :=
  ((lines text.toList).mapM parseLine).map List.reduceOption

theorem uncomment_append {l : List Char} (h : '#' ∉ l) (rest : List Char) :
    uncomment (l ++ rest) = l ++ uncomment rest := by
  unfold uncomment
  exact List.takeWhile_append_of_pos (bne_of_notMem h)

theorem uncomment_eq_self {l : List Char} (h : '#' ∉ l) : uncomment l = l := by
  simpa [uncomment] using uncomment_append h []

theorem mem_uncomment {l : List Char} {c : Char} (h : c ∈ uncomment l) : c ∈ l ∧ c ≠ '#' := by
  refine ⟨(List.takeWhile_sublist _).subset h, ?_⟩
  have hall := List.all_eq_true.mp (List.all_takeWhile (p := (· != '#')) (l := l)) c h
  simpa using hall

/-! ## Expressions -/

/-- A token of the expressions read here. -/
inductive Token where
  | ident (name : String)
  | str (s : String)
  | dot
  | eq
  | lbrace
  | rbrace
  | lbracket
  | rbracket
  | semi
  deriving DecidableEq, Repr

/-- Where the lexer stands; what has been read of a word or a string is kept in reverse. -/
inductive Mode where
  | code (word : List Char)
  | comment
  | str (acc : List Char)
  /-- After a backslash. -/
  | esc (acc : List Char)
  /-- After a dollar sign that may start an interpolation. -/
  | dollar (acc : List Char)

/-- A character of an identifier. -/
def isIdent (c : Char) : Bool := c.isAlphanum || c == '_' || c == '-'

/-- The punctuation of the expressions read here. -/
def punct : Char → Option Token
  | '.' => some .dot
  | '=' => some .eq
  | '\x7b' => some .lbrace
  | '\x7d' => some .rbrace
  | '[' => some .lbracket
  | ']' => some .rbracket
  | ';' => some .semi
  | _ => none

/-- What an escaped character stands for. -/
def unescape : Char → Char
  | 'n' => '\n'
  | 'r' => '\r'
  | 't' => '\t'
  | c => c

/-- The tokens so far, in reverse, with the word that just ended. -/
def flush (word : List Char) (acc : List Token) : List Token :=
  if word = [] then acc else .ident (String.ofList word.reverse) :: acc

/-- The tokens of a text, after those in `acc`. -/
def lex : Mode → List Token → List Char → Option (List Token)
  | .code word, acc, [] => some (flush word acc).reverse
  | .comment, acc, [] => some acc.reverse
  | .str _, _, [] => none
  | .esc _, _, [] => none
  | .dollar _, _, [] => none
  | .code word, acc, c :: cs =>
    if isIdent c then lex (.code (c :: word)) acc cs
    else if c.isWhitespace then lex (.code []) (flush word acc) cs
    else if c = '#' then lex .comment (flush word acc) cs
    else if c = '"' then lex (.str []) (flush word acc) cs
    else
      match punct c with
      | some t => lex (.code []) (t :: flush word acc) cs
      | none => none
  | .comment, acc, c :: cs => if c = '\n' then lex (.code []) acc cs else lex .comment acc cs
  | .str s, acc, c :: cs =>
    if c = '"' then lex (.code []) (.str (String.ofList s.reverse) :: acc) cs
    else if c = '\\' then lex (.esc s) acc cs
    else if c = '$' then lex (.dollar s) acc cs
    else lex (.str (c :: s)) acc cs
  | .esc s, acc, c :: cs => lex (.str (unescape c :: s)) acc cs
  | .dollar s, acc, c :: cs =>
    if c = '\x7b' then none
    else if c = '"' then lex (.code []) (.str (String.ofList ('$' :: s).reverse) :: acc) cs
    else if c = '\\' then lex (.esc ('$' :: s)) acc cs
    else lex (.str (c :: '$' :: s)) acc cs

/-- A character that means nothing inside a string. -/
def isPlain (c : Char) : Bool := c != '"' && c != '\\' && c != '\x7b'

/-- **Plain characters are the contents of a string**, dollar signs included. -/
theorem lex_string {w : List Char} (h : ∀ c ∈ w, isPlain c = true) (acc : List Token)
    (rest : List Char) : ∀ s,
    lex (.str s) acc (w ++ '"' :: rest) =
        lex (.code []) (.str (String.ofList (s.reverse ++ w)) :: acc) rest ∧
      lex (.dollar s) acc (w ++ '"' :: rest) =
        lex (.code []) (.str (String.ofList (s.reverse ++ '$' :: w)) :: acc) rest := by
  induction w with
  | nil => intro s; simp [lex]
  | cons c w ih =>
    have ih := ih fun x hx => h x (List.mem_cons_of_mem _ hx)
    have hc := h c List.mem_cons_self
    simp only [isPlain, Bool.and_eq_true, bne_iff_ne] at hc
    obtain ⟨⟨hquote, hslash⟩, hbrace⟩ := hc
    intro s
    rw [List.cons_append]
    constructor
    · by_cases hdollar : c = '$'
      · subst hdollar
        simp only [lex, hquote, hslash, if_false, if_true]
        exact (ih s).2
      · simp only [lex, hquote, hslash, hdollar, if_false]
        simpa using (ih (c :: s)).1
    · simp only [lex, hquote, hslash, hbrace, if_false]
      simpa using (ih (c :: '$' :: s)).1

/-- `name = [ "…" … ];`, any number of times and up to the closing brace. The binding under way is
the first argument. -/
def parseAttrs : Option (String × List String) → List Token →
    Option (List (String × List String) × List Token)
  | none, .ident name :: .eq :: .lbracket :: ts => parseAttrs (some (name, [])) ts
  | none, .rbrace :: ts => some ([], ts)
  | some (name, values), .str s :: ts => parseAttrs (some (name, values ++ [s])) ts
  | some (name, values), .rbracket :: .semi :: ts =>
    (parseAttrs none ts).map fun r => ((name, values) :: r.1, r.2)
  | _, _ => none

/-- `a.b = {`. -/
def parsePath : List Token → Option (List String × List Token)
  | .ident name :: .dot :: ts => (parsePath ts).map fun r => (name :: r.1, r.2)
  | .ident name :: .eq :: .lbrace :: ts => some ([name], ts)
  | _ => none

/-- `a.b = { … };` and nothing else. -/
def parseBinding (text : String) : Option (List String × List (String × List String)) := do
  let tokens ← lex (.code []) [] text.toList
  let (path, rest) ← parsePath tokens
  let (attrs, rest) ← parseAttrs none rest
  if rest = [.semi] then some (path, attrs) else none

/-- The strings of a list are read one after the other. -/
theorem parseAttrs_strings (name : String) (ts : List Token) : ∀ (strings values : List String),
    parseAttrs (some (name, values)) (strings.map .str ++ ts) =
      parseAttrs (some (name, values ++ strings)) ts
  | [], values => by simp
  | s :: strings, values => by
    rw [List.map_cons, List.cons_append, parseAttrs, parseAttrs_strings name ts strings]
    simp

/-- One binding is read off the front. -/
theorem parseAttrs_binding (name : String) (strings : List String) (ts : List Token) :
    parseAttrs none (.ident name :: .eq :: .lbracket ::
      (strings.map .str ++ .rbracket :: .semi :: ts)) =
      (parseAttrs none ts).map fun r => ((name, strings) :: r.1, r.2) := by
  rw [parseAttrs, parseAttrs_strings, List.nil_append, parseAttrs]

end Garret.Lib.Nix
