import Garret.Common
import Garret.Integer
import Garret.Lib.Calendar

/-!
# Prune cutoffs and ages

Model of `parse_duration`, `parse_cutoff` and `days_from_civil`
(`crates/garret-admin/src/main.rs`). A text is its list of characters.

* `str::split_at` takes a byte position and panics inside a character: `splitAt`. A plain arithmetic
  operator whose result leaves `i64` is `Panic.overflow`: the process stops in a debug build, and
  the number is wrong in a release build. `checked_mul` and `checked_sub` return an error there.
* `days_from_civil` is one definition over any arithmetic: `i64` is the arithmetic of the program,
  and `daysFromCivil` reads the same formula over the integers. `div_euclid` is `/`; Rust's `/` and
  `%` truncate (`tdiv`, `tmod`).
* The texts quote their input with `{text:?}`; `quoted` stands for that spelling.
-/

namespace Garret.Admin

open Garret.Lib

/-- Why the process stops. -/
inductive Panic
  | charBoundary
  | overflow
deriving Repr, DecidableEq

/-- The errors of the two parsers. -/
inductive AgeError
  | badDuration
  | tooLong
  | beforeClock
  | badDate
deriving Repr, DecidableEq

/-- The text of an error about `quoted`. -/
def AgeError.message (quoted : String) : AgeError → String
  | .badDuration => "bad duration " ++ quoted ++ " — use e.g. 90s, 30m, 36h, 30d"
  | .tooLong => "duration " ++ quoted ++ " is too long"
  | .beforeClock => "age " ++ quoted ++ " reaches before the clock's range"
  | .badDate => "bad date " ++ quoted ++ " — use YYYY-MM-DD or an age like 90d"

/-- A call that did not return a value. -/
inductive Stop
  | panic (p : Panic)
  | bail (e : AgeError)
deriving Repr, DecidableEq

/-- `text.len()`. -/
def utf8Len (text : List Char) : ℕ := (text.map Char.utf8Size).sum

/-- `text.split_at(mid)`. -/
def splitAt (mid : ℕ) (text : List Char) : Except Stop (List Char × List Char) :=
  ((takeBytes mid text).map fun a => (a, text.drop a.length)).elim (.error (.panic .charBoundary))
    .ok

/-- `text.splitn(n, c)`. -/
def splitn (c : Char) : ℕ → List Char → List (List Char)
  | 0, _ => []
  | 1, text => [text]
  | n + 2, text =>
    match text.dropWhile (· != c) with
    | [] => [text]
    | _ :: rest => text.takeWhile (· != c) :: splitn c (n + 1) rest

/-- The seconds of a unit. -/
def scale? (suffix : List Char) : Option Int :=
  if suffix = ['s'] then some 1
  else if suffix = ['m'] then some 60
  else if suffix = ['h'] then some 3600
  else if suffix = ['d'] then some 86400
  else none

/-- `parse_duration`: `<number><s|m|h|d>` in seconds. -/
def parseDuration (text : List Char) : Except Stop Int := do
  let (digits, suffix) ← splitAt (utf8Len text - 1) text
  match scale? suffix with
  | none => .error (.bail .badDuration)
  | some scale =>
    match (parseI64 digits).filter (fun n => decide (0 < n)) with
    | none => .error (.bail .badDuration)
    | some n => if IsI64 (n * scale) then .ok (n * scale) else .error (.bail .tooLong)

/-- A plain operator on `i64`: the result, when the type has it. -/
def i64 (n : Int) : Except Stop Int := if IsI64 n then .ok n else .error (.panic .overflow)

/-- `days_from_civil`, every result passed through `fit`. -/
def daysFromCivilM {M : Type → Type} [Monad M] (fit : Int → M Int) (y m d : Int) : M Int := do
  let y ← (if m ≤ 2 then fit (y - 1) else pure y)
  let era := y / 400
  let start ← fit (era * 400)
  let yoe ← fit (y - start)
  let mp ← fit (m + 9)
  let days ← fit (153 * mp.tmod 12)
  let days ← fit (days + 2)
  let doy ← fit (days.tdiv 5 + d)
  let doy ← fit (doy - 1)
  let doe ← fit (yoe * 365)
  let doe ← fit (doe + yoe.tdiv 4)
  let doe ← fit (doe - yoe.tdiv 100)
  let doe ← fit (doe + doy)
  let base ← fit (era * 146097)
  let n ← fit (base + doe)
  fit (n - 719468)

/-- `days_from_civil` over the integers. -/
def daysFromCivil (y m d : Int) : Int := Id.run (daysFromCivilM pure y m d)

/-- The date branch of `parse_cutoff`, its three numbers read. -/
def dateCutoff (y m d : Int) : Except Stop Int := do
  if ¬ (1 ≤ y ∧ y ≤ 9999) ∨ ¬ (1 ≤ m ∧ m ≤ 12) ∨ d < 1 then .error (.bail .badDate)
  else
    let first ← daysFromCivilM i64 y m 1
    let nextFirst ← (if m = 12 then do daysFromCivilM i64 (← i64 (y + 1)) 1 1
      else do daysFromCivilM i64 y (← i64 (m + 1)) 1)
    let length ← i64 (nextFirst - first)
    if d > length then .error (.bail .badDate)
    else
      let day ← i64 (first + d)
      let day ← i64 (day - 1)
      i64 (day * 86400)

/-- `parse_cutoff`: a date, at midnight UTC, or an age counted back from `now`. -/
def parseCutoff (text : List Char) (now : Int) : Except Stop Int :=
  if ¬ text.contains '-' then do
    let age ← parseDuration text
    if IsI64 (now - age) then .ok (now - age) else .error (.bail .beforeClock)
  else
    match (splitn '-' 3 text).map parseI64 with
    | [some y, some m, some d] => dateCutoff y m d
    | _ => .error (.bail .badDate)

/-! ## Cutting a text at a byte -/

@[simp] theorem utf8Len_nil : utf8Len [] = 0 := rfl

@[simp] theorem utf8Len_cons (c : Char) (text : List Char) :
    utf8Len (c :: text) = c.utf8Size + utf8Len text := by simp [utf8Len]

theorem utf8Len_append (a b : List Char) : utf8Len (a ++ b) = utf8Len a + utf8Len b := by
  simp [utf8Len]

/-- A cut after some characters goes through them. -/
theorem takeBytes_append (a b : List Char) (n : ℕ) :
    takeBytes (utf8Len a + n) (a ++ b) = (takeBytes n b).map (a ++ ·) := by
  induction a with
  | nil => simp
  | cons c a ih =>
    have hpos := c.utf8Size_pos
    obtain ⟨k, hk⟩ : ∃ k, utf8Len (c :: a) + n = k + 1 :=
      ⟨c.utf8Size + utf8Len a + n - 1, by rw [utf8Len_cons]; omega⟩
    have hle : c.utf8Size ≤ k + 1 := by
      rw [← hk, utf8Len_cons]
      omega
    have hrest : k + 1 - c.utf8Size = utf8Len a + n := by
      rw [← hk, utf8Len_cons]
      omega
    rw [hk, List.cons_append, takeBytes, if_pos hle, hrest, ih, Option.map_map]
    rfl

/-- A cut inside a character fails. -/
theorem takeBytes_inside {c : Char} {n : ℕ} (h₀ : 0 < n) (h : n < c.utf8Size) (rest : List Char) :
    takeBytes n (c :: rest) = none := by
  cases n with
  | zero => exact absurd h₀ (Nat.lt_irrefl 0)
  | succ n => rw [takeBytes, if_neg (by omega)]

/-- The last character comes off when it is one byte. -/
theorem splitAt_last {a : List Char} {c : Char} (hc : c.utf8Size = 1) :
    splitAt (utf8Len (a ++ [c]) - 1) (a ++ [c]) = .ok (a, [c]) := by
  have hlen : utf8Len (a ++ [c]) - 1 = utf8Len a + 0 := by
    rw [utf8Len_append, utf8Len_cons, utf8Len_nil, hc]
    omega
  unfold splitAt
  rw [hlen, takeBytes_append]
  simp [takeBytes]

/-- The cut of a longer last character is inside it. -/
theorem splitAt_wide {a : List Char} {c : Char} (hc : c.utf8Size ≠ 1) :
    splitAt (utf8Len (a ++ [c]) - 1) (a ++ [c]) = .error (.panic .charBoundary) := by
  have hpos := c.utf8Size_pos
  have hlen : utf8Len (a ++ [c]) - 1 = utf8Len a + (c.utf8Size - 1) := by
    rw [utf8Len_append, utf8Len_cons, utf8Len_nil]
    omega
  unfold splitAt
  rw [hlen, takeBytes_append, takeBytes_inside (by omega) (by omega)]
  rfl

end Garret.Admin
