import Garret.Db.Ops
import Garret.Integer

/-!
# Browsing: the listing

Model of `Cursor` and `list` of `crates/garret-server/src/browse.rs`.

* `LIKE … ESCAPE '\'` is `like`: `%` matches any run of characters, `_` one, the character after the
  escape only itself, and ASCII letters match in either case. SQLite reads both texts up to a NUL.
* The columns compared are `created_at`, an `i64`, and `store_path_hash`, text in byte order, which
  is the order of `String` (`Lib.utf8_le_iff`).
* A query that fails (a busy database, a pattern over SQLite's length limit) answers with the
  oracle's error and no page.
-/

namespace Garret.Browse

open Garret.Lib

/-- `MAX_LIMIT`: the largest page a listing returns. -/
def maxLimit : ℕ := 500

/-! ## Cursors -/

/-- Where the next page starts: the last row's `created_at` and hash. -/
structure Cursor where
  createdAt : Int
  hash : String
  deriving DecidableEq, Repr

/-- `Display for Cursor`. -/
def Cursor.display (c : Cursor) : String := toString c.createdAt ++ ":" ++ c.hash

/-- `FromStr for Cursor`; anything else is the caller's error. -/
def Cursor.fromStr (s : String) : Option Cursor := do
  let (time, hash) ← splitOnce ':' s
  let createdAt ← parseI64 time.toList
  return ⟨createdAt, hash⟩

/-! ## Search -/

/-- `escape_like`, on characters. -/
def escapeChars (q : List Char) : List Char :=
  q.flatMap fun c => if c = '\\' ∨ c = '%' ∨ c = '_' then ['\\', c] else [c]

/-- `escape_like`: `q` as a literal inside a `LIKE … ESCAPE '\'` pattern. -/
def escapeLike (q : String) : String := String.ofList (escapeChars q.toList)

/-- Two characters that `LIKE` takes for one: ASCII letters match in either case. -/
def sameChar (a b : Char) : Bool := a.toLower == b.toLower

/-- `LIKE … ESCAPE '\'`, on characters. -/
def likeChars : List Char → List Char → Bool
  | [], text => text.isEmpty
  | ['\\'], _ => false
  | '\\' :: c :: pattern, text =>
    match text with
    | [] => false
    | x :: text => sameChar c x && likeChars pattern text
  | '%' :: pattern, text => text.tails.any fun rest => likeChars pattern rest
  | '_' :: pattern, text =>
    match text with
    | [] => false
    | _ :: text => likeChars pattern text
  | c :: pattern, text =>
    match text with
    | [] => false
    | x :: text => sameChar c x && likeChars pattern text

/-- The characters SQLite reads of a text: those before a NUL. -/
def untilNul (s : String) : List Char := s.toList.takeWhile (· != '\x00')

/-- `name LIKE pattern ESCAPE '\'`. -/
def like (pattern name : String) : Bool := likeChars (untilNul pattern) (untilNul name)

/-- `?1` of a listing: the query as a literal substring. -/
def pattern (query : Option String) : Option String := query.map fun q => "%" ++ escapeLike q ++ "%"

/-- `?1 IS NULL OR o.name LIKE ?1 ESCAPE '\'`. -/
def matchesQuery (query : Option String) (name : String) : Bool :=
  (pattern query).all fun p => like p name

/-! ## The listing -/

/-- One object in a listing (`Summary`). -/
structure Summary where
  hash : String
  name : String
  storePath : String
  narSize : Int
  fileSize : Int
  createdAt : Int
  deriving DecidableEq, Repr

/-- `summary_from_row`. -/
def summaryFromRow (hash : String) (row : Row) : Summary where
  hash := hash
  name := row.name
  storePath := row.storePath
  narSize := row.narSize
  fileSize := row.fileSize
  createdAt := row.createdAt

/-- A page of a listing. -/
structure Page where
  objects : List Summary
  nextCursor : Option String
  deriving DecidableEq, Repr

/-- `ORDER BY o.created_at DESC, o.store_path_hash ASC`, on these two columns. -/
def listOrder (a b : Int × String) : Prop := b.1 < a.1 ∨ a.1 = b.1 ∧ a.2 ≤ b.2

instance : DecidableRel listOrder := fun _ _ => inferInstanceAs (Decidable (_ ∨ _))

/-- `o.created_at < ?2 OR (o.created_at = ?2 AND o.store_path_hash > ?3)`. -/
def isPast (after row : Int × String) : Bool :=
  decide (row.1 < after.1) || (row.1 == after.1 && decide (after.2 < row.2))

/-- `?2` and `?3`: the last row of the page before, or what precedes every row. -/
def startOf : Option Cursor → Int × String
  | some c => (c.createdAt, c.hash)
  | none => (i64Max, "")

/-- The columns a row is ordered by. -/
def place (e : Sigma fun _ : String => Row) : Int × String := (e.2.createdAt, e.1)

/-- `LIST`, without its `LIMIT`. -/
def listRows (query : Option String) (after : Int × String) (db : Db) :
    List (Sigma fun _ : String => Row) :=
  let rows := db.objects.entries.filter fun e =>
    matchesQuery query e.2.name && isPast after (place e)
  rows.insertionSort fun a b => listOrder (place a) (place b)

/-- `list`: one row more than the page is fetched, to learn whether another page exists. -/
def list (io : Faults) (query : Option String) (limit : ℕ) (cursor : Option Cursor) (db : Db) :
    Except DbError Page := do
  let limit := min (max limit 1) maxLimit
  statement io 0
  let rows := (listRows query (startOf cursor) db).take (limit + 1)
  let objects := rows.map fun e => summaryFromRow e.1 e.2
  if limit < objects.length then
    let objects := objects.take limit
    -- `limit` is at least 1, so the page has a last row
    return ⟨objects, objects.getLast?.map fun last => Cursor.display ⟨last.createdAt, last.hash⟩⟩
  else return ⟨objects, none⟩

/-! ## What these compute -/

/-- **A cursor survives its text**, whatever its hash. -/
theorem Cursor.fromStr_display {c : Cursor} (h : IsI64 c.createdAt) :
    Cursor.fromStr c.display = some c := by
  have hcolon : ':' ∉ (toString c.createdAt).toList := 
    not_mem_toString_int (by decide) (by decide) c.createdAt
  have hsplit : splitOnce ':' c.display = some (toString c.createdAt, c.hash) :=
    splitOnce_append c.hash hcolon
  simp only [fromStr, hsplit, parseI64_toString h, Option.bind_eq_bind, Option.bind_some,
    Option.pure_def]

end Garret.Browse
