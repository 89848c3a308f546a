import Garret.Laws.Paging
import Garret.Lib.Wildcard
import Mathlib.Data.List.TakeWhile

/-!
# Search is a literal substring match

`LIKE … ESCAPE '\'` is the language of its pattern (`Like`, `likeChars_iff`), and the pattern of a
query is read back as the query between two runs (`parse_pattern`).

* `search_literal`: the pattern matches the names the query occurs in, up to ASCII case.
* `search_ending`: of a query with a NUL SQLite reads the part before it and no closing `%`, so it
  finds the names that end in that part.
* `search_returns`: a walk to the last page of a search returns the rows the query occurs in.
-/

namespace Garret.Browse

open Garret.Lib Garret.Lib.Wildcard

/-! ## `LIKE` as a language -/

/-- `%`, `_` and the escape character `\`. -/
def likeMarks : Marks Char where
  many := '%'
  one := '_'
  escape := '\\'

/-- `a` and `b` are the same character, or one ASCII letter in two cases. -/
def SameChar (a b : Char) : Prop := sameChar a b = true

/-- `text LIKE pattern ESCAPE '\'`: the pattern is well formed and matches. -/
def Like (pattern text : List Char) : Prop :=
  ∃ pieces, parse likeMarks pattern = some pieces ∧ text ∈ language SameChar pieces

theorem parse_backslash (c : Char) (pattern : List Char) :
    parse likeMarks ('\\' :: c :: pattern) = (parse likeMarks pattern).map (.lit c :: ·) :=
  parse_quoted c pattern

theorem parse_percent (pattern : List Char) :
    parse likeMarks ('%' :: pattern) = (parse likeMarks pattern).map (.many :: ·) :=
  parse_many (by decide) pattern

theorem parse_underscore (pattern : List Char) :
    parse likeMarks ('_' :: pattern) = (parse likeMarks pattern).map (.one :: ·) :=
  parse_one (by decide) (by decide) pattern

/-- A pattern that starts with a piece. -/
theorem like_cons {pattern rest text : List Char} {piece : Piece Char}
    (h : parse likeMarks pattern = (parse likeMarks rest).map (piece :: ·)) :
    Like pattern text ↔
      ∃ pieces, parse likeMarks rest = some pieces ∧
        text ∈ language SameChar (piece :: pieces) := by
  unfold Like
  rw [h]
  constructor
  · rintro ⟨_, hp, ht⟩
    obtain ⟨pieces, hpieces, rfl⟩ := Option.map_eq_some_iff.mp hp
    exact ⟨pieces, hpieces, ht⟩
  · rintro ⟨pieces, hpieces, ht⟩
    exact ⟨piece :: pieces, by rw [hpieces]; rfl, ht⟩

theorem like_lit {pattern rest text : List Char} {c : Char}
    (h : parse likeMarks pattern = (parse likeMarks rest).map (.lit c :: ·)) :
    Like pattern text ↔ ∃ x text', text = x :: text' ∧ SameChar c x ∧ Like rest text' := by
  rw [like_cons h]
  constructor
  · rintro ⟨pieces, hp, ht⟩
    obtain ⟨x, text', rfl, hx, ht'⟩ := mem_lit.mp ht
    exact ⟨x, text', rfl, hx, pieces, hp, ht'⟩
  · rintro ⟨x, text', rfl, hx, pieces, hp, ht'⟩
    exact ⟨pieces, hp, mem_lit.mpr ⟨x, text', rfl, hx, ht'⟩⟩

theorem like_many {pattern text : List Char} :
    Like ('%' :: pattern) text ↔ ∃ rest, rest <:+ text ∧ Like pattern rest := by
  rw [like_cons (parse_percent pattern)]
  constructor
  · rintro ⟨pieces, hp, ht⟩
    obtain ⟨rest, hrest, hmem⟩ := mem_many.mp ht
    exact ⟨rest, hrest, pieces, hp, hmem⟩
  · rintro ⟨rest, hrest, pieces, hp, hmem⟩
    exact ⟨pieces, hp, mem_many.mpr ⟨rest, hrest, hmem⟩⟩

theorem like_one {pattern text : List Char} :
    Like ('_' :: pattern) text ↔ ∃ x text', text = x :: text' ∧ Like pattern text' := by
  rw [like_cons (parse_underscore pattern)]
  constructor
  · rintro ⟨pieces, hp, ht⟩
    obtain ⟨x, text', rfl, ht'⟩ := mem_one.mp ht
    exact ⟨x, text', rfl, pieces, hp, ht'⟩
  · rintro ⟨x, text', rfl, pieces, hp, ht'⟩
    exact ⟨pieces, hp, mem_one.mpr ⟨x, text', rfl, ht'⟩⟩

/-- The last branch of `likeChars` is for characters without a meaning. -/
theorem not_mark {c : Char} {pattern : List Char} (hend : c = '\\' → pattern = [] → False)
    (hesc : ∀ d rest, c = '\\' → pattern = d :: rest → False) (hmany : c = '%' → False)
    (hone : c = '_' → False) :
    ¬ (c = likeMarks.escape ∨ c = likeMarks.many ∨ c = likeMarks.one) := by
  rintro (h | h | h)
  · cases pattern with
    | nil => exact hend h rfl
    | cons d rest => exact hesc d rest h rfl
  · exact hmany h
  · exact hone h

/-- **What SQLite computes is the language of the pattern.** -/
theorem likeChars_iff {pattern text : List Char} :
    likeChars pattern text = true ↔ Like pattern text := by
  induction pattern, text using likeChars.induct with
  | case1 text =>
    rw [likeChars, List.isEmpty_iff]
    simp [Like, parse, mem_nil]
  | case2 text =>
    rw [likeChars]
    simp [Like, parse, likeMarks]
  | case3 c pattern =>
    rw [likeChars, like_lit (parse_backslash c pattern)]
    simp
  | case4 c pattern x text ih =>
    rw [likeChars, like_lit (parse_backslash c pattern), Bool.and_eq_true, ih]
    simp [SameChar]
  | case5 pattern text ih =>
    rw [likeChars, like_many, List.any_eq_true]
    simp only [List.mem_tails, ih]
  | case6 pattern =>
    rw [likeChars, like_one]
    simp
  | case7 pattern x text ih =>
    rw [likeChars, like_one, ih]
    simp
  | case8 c pattern hend hesc hmany hone =>
    rw [likeChars, like_lit (parse_plain (not_mark hend hesc hmany hone) pattern)]
    · simp
    all_goals assumption
  | case9 c pattern hend hesc hmany hone x text ih =>
    rw [likeChars, like_lit (parse_plain (not_mark hend hesc hmany hone) pattern),
      Bool.and_eq_true, ih]
    · simp [SameChar]
    all_goals assumption

/-! ## Queries -/

/-- `q` stands in `name`, the case of ASCII letters aside. -/
def Occurs (q name : String) : Prop :=
  ∃ before mid after : String, name = before ++ mid ++ after ∧ mid.toLower = q.toLower

/-- `name` ends in `q`, the case of ASCII letters aside. -/
def EndsIn (q name : String) : Prop :=
  ∃ before mid : String, name = before ++ mid ∧ mid.toLower = q.toLower

theorem sameChar_iff {a b : Char} : SameChar a b ↔ b.toLower = a.toLower := by
  rw [SameChar, sameChar, beq_iff_eq, eq_comm]

theorem forall₂_sameChar {q u : List Char} :
    List.Forall₂ SameChar q u ↔ u.map Char.toLower = q.map Char.toLower := by
  induction q generalizing u with
  | nil => simp
  | cons c q ih =>
    cases u with
    | nil => simp
    | cons x u =>
      rw [List.forall₂_cons, ih, sameChar_iff, List.map_cons, List.map_cons, List.cons.injEq]

theorem toList_toLower (s : String) : s.toLower.toList = s.toList.map Char.toLower :=
  String.toList_map

theorem toLower_eq_iff {a b : String} :
    a.toLower = b.toLower ↔ List.Forall₂ SameChar b.toList a.toList := by
  rw [forall₂_sameChar, ← String.toList_inj, toList_toLower, toList_toLower]

theorem occurs_iff {q name : String} :
    Occurs q name ↔ ∃ u, u <:+: name.toList ∧ List.Forall₂ SameChar q.toList u := by
  constructor
  · rintro ⟨before, mid, after, rfl, hmid⟩
    refine ⟨mid.toList, ⟨before.toList, after.toList, ?_⟩, toLower_eq_iff.mp hmid⟩
    rw [String.toList_append, String.toList_append]
  · rintro ⟨u, ⟨a, b, hname⟩, hu⟩
    refine ⟨String.ofList a, String.ofList u, String.ofList b, ?_, toLower_eq_iff.mpr ?_⟩
    · apply String.toList_injective
      simp [← hname]
    · rwa [String.toList_ofList]

theorem endsIn_iff {q name : String} :
    EndsIn q name ↔ ∃ u, u <:+ name.toList ∧ List.Forall₂ SameChar q.toList u := by
  constructor
  · rintro ⟨before, mid, rfl, hmid⟩
    exact ⟨mid.toList, ⟨before.toList, (String.toList_append).symm⟩, toLower_eq_iff.mp hmid⟩
  · rintro ⟨u, ⟨a, hname⟩, hu⟩
    refine ⟨String.ofList a, String.ofList u, ?_, toLower_eq_iff.mpr ?_⟩
    · apply String.toList_injective
      simp [← hname]
    · rwa [String.toList_ofList]

/-- The pattern of a query: a run, the query itself, a run. -/
theorem parse_pattern (q : List Char) :
    parse likeMarks ('%' :: (escapeChars q ++ ['%'])) =
      some (.many :: (q.map .lit ++ [.many])) := by
  have hescape : escapeChars q = escape likeMarks q := rfl
  rw [parse_percent, hescape, parse_escape, parse_percent]
  rfl

theorem parse_opened (q : List Char) :
    parse likeMarks ('%' :: escapeChars q) = some (.many :: q.map .lit) := by
  have hescape : escapeChars q = escape likeMarks q ++ [] := (List.append_nil _).symm
  rw [parse_percent, hescape, parse_escape]
  simp [parse]

theorem toList_pattern (q : String) :
    ("%" ++ escapeLike q ++ "%").toList = '%' :: (escapeChars q.toList ++ ['%']) := by
  simp [escapeLike]

theorem matchesQuery_some (q name : String) :
    matchesQuery (some q) name = like ("%" ++ escapeLike q ++ "%") name := by
  rw [matchesQuery, pattern, Option.map_some, Option.all_some]

theorem untilNul_eq {s : String} (h : '\x00' ∉ s.toList) : untilNul s = s.toList :=
  List.takeWhile_eq_self_iff.mpr (bne_of_notMem h)

/-- Escaping puts nothing but `\` beside the characters of the query. -/
theorem mem_escapeChars {q : List Char} {c : Char} (h : c ∈ escapeChars q) : c ∈ q ∨ c = '\\' := by
  obtain ⟨d, hd, hc⟩ := List.mem_flatMap.mp h
  split at hc
  · simp only [List.mem_cons, List.not_mem_nil, or_false] at hc
    rcases hc with rfl | rfl
    · exact Or.inr rfl
    · exact Or.inl hd
  · rw [List.mem_singleton.mp hc]
    exact Or.inl hd

theorem nul_notMem_escapeChars {q : List Char} (h : '\x00' ∉ q) : '\x00' ∉ escapeChars q := by
  intro hin
  rcases mem_escapeChars hin with hq | hc
  · exact h hq
  · exact absurd hc (by decide)

/-- A pattern that is read as some pieces matches their language. -/
theorem like_iff {pattern text : List Char} {pieces : List (Piece Char)}
    (h : parse likeMarks pattern = some pieces) :
    Like pattern text ↔ text ∈ language SameChar pieces := by
  unfold Like
  rw [h]
  constructor
  · rintro ⟨_, hp, ht⟩
    rwa [Option.some.inj hp]
  · exact fun ht => ⟨pieces, rfl, ht⟩

/-- **Search is a literal substring match**: the pattern of a query is well formed and matches the
names the query occurs in, and so does SQLite where neither text has a NUL. -/
theorem search_literal (q name : String) :
    (parse likeMarks ("%" ++ escapeLike q ++ "%").toList).isSome = true ∧
    (Like ("%" ++ escapeLike q ++ "%").toList name.toList ↔ Occurs q name) ∧
    ('\x00' ∉ q.toList → '\x00' ∉ name.toList →
      (matchesQuery (some q) name = true ↔ Occurs q name)) := by
  have hparse := parse_pattern q.toList
  rw [← toList_pattern] at hparse
  have hlike : Like ("%" ++ escapeLike q ++ "%").toList name.toList ↔ Occurs q name := by
    rw [like_iff hparse, mem_between, occurs_iff]
  refine ⟨by rw [hparse]; rfl, hlike, fun hq hname => ?_⟩
  have hpattern : '\x00' ∉ ("%" ++ escapeLike q ++ "%").toList := by
    rw [toList_pattern, List.mem_cons, List.mem_append, List.mem_singleton, not_or, not_or]
    exact ⟨by decide, nul_notMem_escapeChars hq, by decide⟩
  rw [matchesQuery_some, like, untilNul_eq hpattern, untilNul_eq hname, likeChars_iff, hlike]

/-- A query of wildcards finds the name that holds them, in either case. -/
theorem search_literal_wildcards : matchesQuery (some "0%_O") "50%_off" = true :=
  ((search_literal "0%_O" "50%_off").2.2 (by decide) (by decide)).mpr
    ⟨"5", "0%_o", "ff", by decide, toLower_eq_iff.mpr (forall₂_sameChar.mpr (by decide))⟩

example : matchesQuery (some "0%_O") "500-off" = false := by decide

/-- **A query with a NUL** is cut off at it, the closing `%` with it. -/
theorem search_ending {q name rest : String} (hq : '\x00' ∉ q.toList)
    (hname : '\x00' ∉ name.toList) :
    matchesQuery (some (q ++ "\x00" ++ rest)) name = true ↔ EndsIn q name := by
  have hpattern : untilNul ("%" ++ escapeLike (q ++ "\x00" ++ rest) ++ "%") =
      '%' :: escapeChars q.toList := by
    have hcut : ("%" ++ escapeLike (q ++ "\x00" ++ rest) ++ "%").toList =
        ('%' :: escapeChars q.toList) ++ '\x00' :: (escapeChars rest.toList ++ ['%']) := by
      rw [toList_pattern, String.toList_append, String.toList_append]
      simp [escapeChars]
    have hnul : '\x00' ∉ '%' :: escapeChars q.toList := by
      rw [List.mem_cons, not_or]
      exact ⟨by decide, nul_notMem_escapeChars hq⟩
    rw [untilNul, hcut, takeWhile_bne hnul]
  rw [matchesQuery_some, like, hpattern, untilNul_eq hname, likeChars_iff,
    like_iff (parse_opened q.toList), mem_ending, endsIn_iff]

/-- **What a search returns**: over a table that stays, the rows whose name the query occurs in. -/
theorem search_returns {q : String} {db : Db} {vs : List Visit} (hq : '\x00' ∉ q.toList)
    (hwalk : Walk (some q) .first vs .ended) (hsame : ∀ v ∈ vs, v.db = db) (hdb : db.Listable)
    {hash : String} {row : Row} (hrow : db.row? hash = some row)
    (hname : '\x00' ∉ row.name.toList) :
    (row.createdAt, hash) ∈ returned vs ↔ Occurs q row.name := by
  rw [← (search_literal q row.name).2.2 hq hname]
  constructor
  · intro hin
    obtain ⟨v, hv, hplace⟩ := List.mem_flatMap.mp hin
    obtain ⟨o, ho, heq⟩ := List.mem_map.mp hplace
    obtain ⟨row', hrow', hsum, hmatch⟩ := walk_matches hwalk v hv o ho
    have hhash : o.hash = hash := congrArg Prod.snd heq
    rw [hsame v hv, hhash, hrow] at hrow'
    obtain rfl := Option.some.inj hrow'
    rw [hsum] at hmatch
    exact hmatch
  · intro hmatch
    have hlist : ∀ v ∈ vs, v.db.Listable := fun v hv => hsame v hv ▸ hdb
    have hcount := walk_complete hwalk hlist fun v hv =>
      ⟨row, (hsame v hv).symm ▸ hrow, rfl, hmatch⟩
    exact List.count_pos_iff.mp (hcount ▸ Nat.one_pos)

end Garret.Browse
