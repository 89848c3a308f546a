import Garret.Db.Browse
import Garret.Lib.Keyset
import Garret.Pusher.Effect
import Mathlib.Data.Prod.Lex

/-!
# Walking the listing

A client walks `list` from its first page to its last by handing each `next_cursor` back
(`Walk`). Every page is read from the table as it is then; the limit of each request is its own.

A row's place in the listing is its `key`: newest first, ties by hash. `list` answers a keyset page
over it (`list_page`), so a walk is a `Lib.Scan` (`walk_scan`) and inherits what holds of one.

* **`paging_contract`**: for every query, every choice of limits and whatever is committed between
  the pages, the walk is strictly ordered, skips no matching row that stays, returns nothing the
  query does not match, and ends over a table that stays.
* `Db.Listable` is what the first page's bound needs: creation times are `i64`s and no hash is
  empty. Every commit keeps it (`Edited.listable`).
-/

namespace Garret

open Garret.Lib

/-- Creation times fit their column and no hash is empty. -/
def Db.Listable (db : Db) : Prop :=
  ∀ hash row, db.row? hash = some row → hash ≠ "" ∧ IsI64 row.createdAt

/-- What the Pusher commits between two pages, any number of times: each object inserted has a hash
and its time is an `i64`. -/
inductive Edited : Db → Db → Prop
  | refl (db : Db) : Edited db db
  | commit {db : Db} {w w' : World} {e : Effect} : Edited db w.db → e.Does w w' →
      (∀ obj at', e = .inserted obj at' → obj.storePathHash ≠ "" ∧ IsI64 at') → Edited db w'.db

theorem Edited.listable {db db' : Db} (h : Edited db db') (hdb : db.Listable) : db'.Listable := by
  induction h with
  | refl => exact hdb
  | commit _ hdoes hins ih =>
    intro hash row hrow
    rcases hdoes.row_cases hash with heq | ⟨-, hgone⟩ | ⟨obj, at', he, rfl, hnew⟩ |
      ⟨a, b, ha, hb, hkin, -⟩
    · exact ih hash row (heq.symm.trans hrow)
    · exact absurd (hgone.symm.trans hrow) (by simp)
    · obtain rfl := Option.some.inj (hnew.symm.trans hrow)
      exact hins obj at' he
    · obtain rfl := Option.some.inj (hb.symm.trans hrow)
      have := ih hash a ha
      rw [hkin]
      exact this

namespace Browse

/-! ## The order of a listing -/

/-- Newest first, ties by hash, as a linear order. -/
abbrev Key := ℤᵒᵈ ×ₗ String

/-- The place of a row created at `r.1` with hash `r.2`. -/
def key (r : Int × String) : Key := toLex (OrderDual.toDual r.1, r.2)

/-- `a` is listed before `b`. -/
def Before (a b : Int × String) : Prop := b.1 < a.1 ∨ a.1 = b.1 ∧ a.2 < b.2

theorem key_injective : Function.Injective key := by
  intro a b h
  have hpair := toLex.injective h
  exact Prod.ext (OrderDual.toDual.injective (Prod.ext_iff.mp hpair).1) (Prod.ext_iff.mp hpair).2

theorem key_lt {a b : Int × String} : key a < key b ↔ Before a b := by
  unfold key Before
  rw [Prod.Lex.toLex_lt_toLex, OrderDual.toDual_lt_toDual]
  simp only [EmbeddingLike.apply_eq_iff_eq]

theorem key_le {a b : Int × String} : key a ≤ key b ↔ listOrder a b := by
  unfold key listOrder
  rw [Prod.Lex.toLex_le_toLex, OrderDual.toDual_lt_toDual]
  simp only [EmbeddingLike.apply_eq_iff_eq]

theorem isPast_iff {after row : Int × String} : isPast after row = true ↔ key after < key row := by
  rw [key_lt]
  unfold isPast Before
  simp only [Bool.or_eq_true, Bool.and_eq_true, decide_eq_true_eq, beq_iff_eq]
  constructor
  · rintro (h | ⟨h, hlt⟩)
    · exact Or.inl h
    · exact Or.inr ⟨h.symm, hlt⟩
  · rintro (h | ⟨h, hlt⟩)
    · exact Or.inl h
    · exact Or.inr ⟨h.symm, hlt⟩

theorem empty_lt {s : String} (h : s ≠ "") : "" < s := by
  rw [String.lt_iff_toList_lt]
  cases hs : s.toList with
  | nil => exact absurd (String.toList_injective hs) h
  | cons c cs => exact List.nil_lt_cons c cs

/-- Every row follows the bound of the first page. -/
theorem start_lt {time : Int} {hash : String} (hhash : hash ≠ "") (htime : IsI64 time) :
    key (startOf none) < key (time, hash) := by
  rw [key_lt]
  rcases htime.2.lt_or_eq with hlt | heq
  · exact Or.inl hlt
  · exact Or.inr ⟨heq.symm, empty_lt hhash⟩

/-! ## One page -/

/-- The pair a listing is ordered by. -/
def Summary.place (s : Summary) : Int × String := (s.createdAt, s.hash)

/-- The places of the rows `query` matches. -/
def matching (query : Option String) (db : Db) : Set Key :=
  {k | ∃ hash row, db.row? hash = some row ∧ matchesQuery query row.name = true ∧
    k = key (row.createdAt, hash)}

/-- The rows a page is cut from, in order: their places increase. -/
theorem listRows_sorted (query : Option String) (after : Int × String) (db : Db) :
    ((listRows query after db).map fun e => key (place e)).Pairwise (· < ·) := by
  have hkeys : (db.objects.entries.map fun e => e.1).Nodup := db.objects.nodupKeys
  have hplaces : (db.objects.entries.map fun e => key (place e)).Nodup := by
    refine List.Nodup.of_map (fun k : Key => (ofLex k).2) ?_
    rw [List.map_map]
    exact hkeys
  exact pairwise_lt_sorted (fun e => key (place e)) (fun _ _ => key_le.symm)
    (hplaces.sublist (List.filter_sublist.map _))

theorem mem_listRows {query : Option String} {after : Int × String} {db : Db}
    {e : Sigma fun _ : String => Row} : e ∈ listRows query after db ↔
      db.row? e.1 = some e.2 ∧ matchesQuery query e.2.name = true ∧
        isPast after (place e) = true := by
  unfold listRows
  rw [List.mem_insertionSort, List.mem_filter, Bool.and_eq_true]
  exact and_congr_left fun _ => Table.lookup_eq_some_iff.symm

/-- The rows a page is cut from are the matching ones past its cursor. -/
theorem mem_places {query : Option String} {after : Int × String} {db : Db} {k : Key} :
    k ∈ (listRows query after db).map (fun e => key (place e)) ↔
      k ∈ matching query db ∧ key after < k := by
  constructor
  · intro hk
    obtain ⟨e, he, rfl⟩ := List.mem_map.mp hk
    obtain ⟨hrow, hq, hpast⟩ := mem_listRows.mp he
    exact ⟨⟨e.1, e.2, hrow, hq, rfl⟩, isPast_iff.mp hpast⟩
  · rintro ⟨⟨hash, row, hrow, hq, rfl⟩, hlt⟩
    exact List.mem_map.mpr ⟨⟨hash, row⟩, mem_listRows.mpr ⟨hrow, hq, isPast_iff.mpr hlt⟩, rfl⟩

/-- The page `list` cuts off the rows: the first `limit` of them, and a cursor at the last one when
there are more. -/
theorem list_cut {io : Faults} {query : Option String} {limit : ℕ} {cursor : Option Cursor}
    {db : Db} {page : Page} (h : list io query limit cursor db = .ok page) :
    ∃ rows n, 1 ≤ n ∧ rows = listRows query (startOf cursor) db ∧
      page.objects = (rows.take n).map (fun e => summaryFromRow e.1 e.2) ∧
      page.nextCursor = if n < rows.length then
        ((rows.take n).getLast?).map fun e => Cursor.display ⟨e.2.createdAt, e.1⟩ else none := by
  refine ⟨_, min (max limit 1) maxLimit, le_min (le_max_right _ _) (by decide), rfl, ?_⟩
  simp only [list, bind_eq_ok] at h
  obtain ⟨_, -, h⟩ := h
  generalize listRows query (startOf cursor) db = rows at h ⊢
  generalize min (max limit 1) maxLimit = n at h ⊢
  rw [List.length_map, List.length_take] at h
  split at h
  · rename_i hlt
    obtain rfl := pure_eq_ok.mp h
    have hlong : n < rows.length := by omega
    have htake : ((rows.take (n + 1)).map fun e => summaryFromRow e.1 e.2).take n =
        (rows.take n).map fun e => summaryFromRow e.1 e.2 := by
      rw [← List.map_take, List.take_take, Nat.min_eq_left (Nat.le_succ n)]
    refine ⟨htake, ?_⟩
    simp only [htake, List.getLast?_map, Option.map_map, hlong, if_true]
    rfl
  · rename_i hlt
    obtain rfl := pure_eq_ok.mp h
    have hshort : rows.length ≤ n := by omega
    refine ⟨?_, (if_neg (by omega)).symm⟩
    simp only [List.take_of_length_le hshort, List.take_of_length_le (Nat.le_succ_of_le hshort)]

/-- **One page of the listing is a keyset page** of the matching rows, after its cursor. -/
theorem list_page {io : Faults} {query : Option String} {limit : ℕ} {cursor : Option Cursor}
    {db : Db} {page : Page} (h : list io query limit cursor db = .ok page) :
    ∃ next : Option Cursor, page.nextCursor = next.map Cursor.display ∧
      IsPage (matching query db) (key (startOf cursor)) (page.objects.map fun o => key o.place)
        (next.map fun c => key (c.createdAt, c.hash)) ∧
      (∀ c, next = some c → ∃ o ∈ page.objects, o.place = (c.createdAt, c.hash)) ∧
      ∀ o ∈ page.objects, ∃ row, db.row? o.hash = some row ∧ o = summaryFromRow o.hash row ∧
        matchesQuery query o.name = true := by
  obtain ⟨rows, n, hn, hrows, hobjects, hnext⟩ := list_cut h
  have hmap : page.objects.map (fun o => key o.place) =
      (rows.map fun e => key (place e)).take n := by
    rw [hobjects, List.map_map, ← List.map_take]
    rfl
  have hsorted : (rows.map fun e => key (place e)).Pairwise (· < ·) :=
    hrows ▸ listRows_sorted query _ db
  have hmem : ∀ k, k ∈ rows.map (fun e => key (place e)) ↔
      k ∈ matching query db ∧ key (startOf cursor) < k := fun k => hrows ▸ mem_places
  have hpage := IsPage.of_take hsorted hmem hn
  refine ⟨if n < rows.length then ((rows.take n).getLast?).map fun e => ⟨e.2.createdAt, e.1⟩
    else none, ?_, ?_, ?_, ?_⟩
  · rw [hnext]
    by_cases hlt : n < rows.length
    · simp only [hlt, if_true, Option.map_map]
      rfl
    · simp only [hlt, if_false, Option.map_none]
  · rw [hmap]
    rw [List.length_map, ← List.map_take, List.getLast?_map] at hpage
    rw [← List.map_take]
    by_cases hlt : n < rows.length
    · simp only [hlt, if_true, Option.map_map] at hpage ⊢
      exact hpage
    · simp only [hlt, if_false, Option.map_none] at hpage ⊢
      exact hpage
  · intro c hc
    split at hc
    · obtain ⟨e, he, rfl⟩ := Option.map_eq_some_iff.mp hc
      refine ⟨summaryFromRow e.1 e.2, ?_, rfl⟩
      rw [hobjects]
      exact List.mem_map_of_mem (List.mem_of_getLast? he)
    · exact absurd hc (by simp)
  · intro o ho
    rw [hobjects] at ho
    obtain ⟨e, he, rfl⟩ := List.mem_map.mp ho
    have hin := (List.take_sublist n rows).subset he
    obtain ⟨hrow, hq, -⟩ := mem_listRows.mp (hrows ▸ hin)
    exact ⟨e.2, hrow, rfl, hq⟩

/-! ## Walks -/

/-- One request of a walk and the page it is answered with. -/
structure Visit where
  io : Faults
  /-- The table as it is at the time. -/
  db : Db
  limit : ℕ
  page : Page

/-- Where a walk stands. -/
inductive Stage where
  /-- Nothing has been asked for. -/
  | first
  /-- The last page named this `next_cursor`. -/
  | following (cursor : String)
  /-- The last page named none. -/
  | ended
  deriving DecidableEq

/-- The cursor of the next request, as the server parses it; none when there is no such request. -/
def Stage.cursor? : Stage → Option (Option Cursor)
  | first => some none
  | following s => (Cursor.fromStr s).map some
  | ended => none

/-- Where a page leaves the walk. -/
def Page.stage (p : Page) : Stage := (p.nextCursor.map Stage.following).getD .ended

/-- A walk follows `next_cursor`, each page read from the table of its own time. -/
inductive Walk (query : Option String) : Stage → List Visit → Stage → Prop
  | stop (s : Stage) : Walk query s [] s
  | page {s t : Stage} {cursor : Option Cursor} {v : Visit} {vs : List Visit} :
    s.cursor? = some cursor → list v.io query v.limit cursor v.db = .ok v.page →
    Walk query v.page.stage vs t → Walk query s (v :: vs) t

/-- The `(created_at, hash)` pairs a walk returns. -/
def returned (vs : List Visit) : List (Int × String) :=
  vs.flatMap fun v => v.page.objects.map Summary.place

/-- Where a walk stands, in the order of the listing. -/
def Stage.position (s : Stage) : Option Key := s.cursor?.map fun c => key (startOf c)

/-- A visit as the keyset walk sees it. -/
def Visit.keys (query : Option String) (v : Visit) : Set Key × List Key :=
  (matching query v.db, v.page.objects.map fun o => key o.place)

/-- A page leaves the walk at the cursor it names, read back. -/
theorem position_stage {page : Page} {next : Option Cursor}
    (h : page.nextCursor = next.map Cursor.display)
    (hnext : ∀ c, next = some c → IsI64 c.createdAt) :
    page.stage.position = next.map fun c => key (c.createdAt, c.hash) := by
  unfold Page.stage Stage.position
  rw [h]
  cases next with
  | none => rfl
  | some c =>
    have hparse := Cursor.fromStr_display (hnext c rfl)
    simp only [Option.map_some, Option.getD_some, Stage.cursor?, hparse]
    rfl

/-- **A walk of the listing is a keyset walk** over the rows `query` matches. -/
theorem walk_scan {query : Option String} {s t : Stage} {vs : List Visit} (h : Walk query s vs t)
    (hdb : ∀ v ∈ vs, v.db.Listable) :
    Scan s.position (vs.map (Visit.keys query)) t.position := by
  induction h with
  | stop s => exact .stop _
  | @page s t cursor v vs hcursor hlist _ ih =>
    obtain ⟨next, hnext, hpage, hlast, hrows⟩ := list_page hlist
    have hrange : ∀ c, next = some c → IsI64 c.createdAt := by
      intro c hc
      obtain ⟨o, ho, hplace⟩ := hlast c hc
      obtain ⟨row, hrow, heq, -⟩ := hrows o ho
      have htime : o.createdAt = c.createdAt := congrArg Prod.fst hplace
      rw [← htime, heq]
      exact (hdb v List.mem_cons_self o.hash row hrow).2
    have ih := ih fun v hv => hdb v (List.mem_cons_of_mem _ hv)
    rw [position_stage hnext hrange] at ih
    have hstart : s.position = some (key (startOf cursor)) := by
      rw [Stage.position, hcursor, Option.map_some]
    rw [hstart]
    exact .page hpage ih

theorem scanned_keys (query : Option String) (vs : List Visit) :
    scanned (vs.map (Visit.keys query)) = (returned vs).map key := by
  induction vs with
  | nil => rfl
  | cons v vs ih =>
    rw [List.map_cons, scanned_cons, ih]
    simp only [Visit.keys, returned, List.flatMap_cons, List.map_append, List.map_map]
    rfl

/-! ## The walk as a whole -/

/-- What a walk returns is strictly ordered. -/
theorem walk_sorted {query : Option String} {s t : Stage} {vs : List Visit}
    (h : Walk query s vs t) (hdb : ∀ v ∈ vs, v.db.Listable) : (returned vs).Pairwise Before := by
  have hsorted := (walk_scan h hdb).sorted.1
  rw [scanned_keys, List.pairwise_map] at hsorted
  exact hsorted.imp key_lt.mp

/-- A matching row that stays is returned once. -/
theorem walk_complete {query : Option String} {vs : List Visit} (h : Walk query .first vs .ended)
    (hdb : ∀ v ∈ vs, v.db.Listable) {time : Int} {hash : String}
    (hrow : ∀ v ∈ vs, ∃ row, v.db.row? hash = some row ∧ row.createdAt = time ∧
      matchesQuery query row.name = true) : (returned vs).count (time, hash) = 1 := by
  have hscan := walk_scan h hdb
  -- a walk that ended has at least one page, and the row is in its table
  have hvisit : ∃ v, v ∈ vs := by
    cases h with
    | page _ _ _ => exact ⟨_, List.mem_cons_self⟩
  obtain ⟨v, hv⟩ := hvisit
  have hstart : key (startOf none) < key (time, hash) := by
    obtain ⟨row, hr, rfl, -⟩ := hrow v hv
    have hlist := hdb v hv hash row hr
    exact start_lt hlist.1 hlist.2
  have hmem : key (time, hash) ∈ scanned (vs.map (Visit.keys query)) := by
    refine hscan.complete ?_ (fun b hb => absurd hb (by simp [Stage.position, Stage.cursor?])) _ rfl
      hstart
    intro p hp
    obtain ⟨v, hv, rfl⟩ := List.mem_map.mp hp
    obtain ⟨row, hr, ht, hq⟩ := hrow v hv
    exact ⟨hash, row, hr, hq, by rw [ht]⟩
  rw [scanned_keys] at hmem
  obtain ⟨p, hp, hkey⟩ := List.mem_map.mp hmem
  rw [key_injective hkey] at hp
  refine List.count_eq_one_of_mem ?_ hp
  refine (walk_sorted h hdb).imp ?_
  rintro a _ hbefore rfl
  rcases hbefore with hlt | ⟨-, hlt⟩
  · exact lt_irrefl _ hlt
  · exact lt_irrefl _ hlt

/-- What a walk returns are rows of the table of that time, and the query matches them. -/
theorem walk_matches {query : Option String} {s t : Stage} {vs : List Visit}
    (h : Walk query s vs t) : ∀ v ∈ vs, ∀ o ∈ v.page.objects, ∃ row,
      v.db.row? o.hash = some row ∧ o = summaryFromRow o.hash row ∧
        matchesQuery query o.name = true := by
  induction h with
  | stop s => simp
  | page _ hlist _ ih =>
    intro v hv
    rcases List.mem_cons.mp hv with rfl | hv
    · exact (list_page hlist).choose_spec.2.2.2
    · exact ih v hv

/-- Over one table a walk has at most one page more than the table has rows. -/
theorem walk_length_le {query : Option String} {s t : Stage} {vs : List Visit}
    (h : Walk query s vs t) {db : Db} (hlist : db.Listable) (hdb : ∀ v ∈ vs, v.db = db) :
    vs.length ≤ db.objects.entries.length + 1 := by
  have hscan := walk_scan h fun v hv => (hdb v hv).symm ▸ hlist
  have hlen := hscan.length_le (l := db.objects.entries.map fun e => key (place e)) ?_
  · simpa using hlen
  · intro p hp k hk
    obtain ⟨v, hv, rfl⟩ := List.mem_map.mp hp
    obtain ⟨hash, row, hrow, -, rfl⟩ := hk
    rw [hdb v hv] at hrow
    exact List.mem_map.mpr ⟨⟨hash, row⟩, Table.lookup_eq_some_iff.mp hrow, rfl⟩

/-! ## A walk over a table that stays -/

/-- A listing answers unless its statement fails. -/
theorem list_ok {io : Faults} (h : io 0 = false) (query : Option String) (limit : ℕ)
    (cursor : Option Cursor) (db : Db) : ∃ page, list io query limit cursor db = .ok page := by
  have hstmt : statement io 0 = .ok () := statement_eq_ok.mpr h
  unfold list
  rw [hstmt]
  simp only [bind, Except.bind]
  split
  · exact ⟨_, rfl⟩
  · exact ⟨_, rfl⟩

/-- One page more. -/
theorem Walk.snoc {query : Option String} {s t : Stage} {vs : List Visit} (h : Walk query s vs t)
    {cursor : Option Cursor} (hcursor : t.cursor? = some cursor) {v : Visit}
    (hlist : list v.io query v.limit cursor v.db = .ok v.page) :
    Walk query s (vs ++ [v]) v.page.stage := by
  induction h with
  | stop s => exact .page hcursor hlist (.stop _)
  | page hc hl _ ih => exact .page hc hl (ih hcursor)

/-- A page names no cursor, or one the next request can carry. -/
theorem stage_cases {io : Faults} {query : Option String} {limit : ℕ} {cursor : Option Cursor}
    {db : Db} {page : Page} (h : list io query limit cursor db = .ok page) (hdb : db.Listable) :
    page.stage = .ended ∨ ∃ c, page.stage.cursor? = some (some c) := by
  obtain ⟨next, hnext, -, hlast, hrows⟩ := list_page h
  unfold Page.stage
  rw [hnext]
  cases next with
  | none => exact Or.inl rfl
  | some c =>
    obtain ⟨o, ho, hplace⟩ := hlast c rfl
    obtain ⟨row, hrow, heq, -⟩ := hrows o ho
    have htime : o.createdAt = c.createdAt := congrArg Prod.fst hplace
    have hrange : IsI64 c.createdAt := by
      rw [← htime, heq]
      exact (hdb o.hash row hrow).2
    refine Or.inr ⟨c, ?_⟩
    simp only [Option.map_some, Option.getD_some, Stage.cursor?, Cursor.fromStr_display hrange]

/-- Every visit reads `db`, without a fault, the `i`-th with the `i`-th limit. -/
def Unchanging (db : Db) (limit : ℕ → ℕ) (vs : List Visit) : Prop :=
  ∀ i v, vs[i]? = some v → v.io = noFaults ∧ v.db = db ∧ v.limit = limit i

theorem Unchanging.snoc {db : Db} {limit : ℕ → ℕ} {vs : List Visit} (h : Unchanging db limit vs)
    (page : Page) : Unchanging db limit (vs ++ [⟨noFaults, db, limit vs.length, page⟩]) := by
  intro i v hv
  by_cases hi : i < vs.length
  · rw [List.getElem?_append_left hi] at hv
    exact h i v hv
  · rw [List.getElem?_append_right (by omega)] at hv
    rw [List.getElem?_singleton] at hv
    split at hv
    · rename_i hi0
      obtain rfl := Option.some.inj hv
      have heq : i = vs.length := by omega
      exact ⟨rfl, rfl, by rw [heq]⟩
    · exact absurd hv (by simp)

/-- After `n` pages a walk over one table has ended, or it can go on. -/
theorem walk_steps (query : Option String) {db : Db} (hdb : db.Listable) (limit : ℕ → ℕ) (n : ℕ) :
    (∃ vs, Walk query .first vs .ended ∧ Unchanging db limit vs) ∨
      ∃ vs t cursor, Walk query .first vs t ∧ Unchanging db limit vs ∧ vs.length = n ∧
        t.cursor? = some cursor := by
  induction n with
  | zero => exact Or.inr ⟨[], .first, none, .stop _, fun i v hv => absurd hv (by simp), rfl, rfl⟩
  | succ n ih =>
    rcases ih with hended | ⟨vs, t, cursor, hwalk, hun, hlen, hcursor⟩
    · exact Or.inl hended
    · obtain ⟨page, hpage⟩ := @list_ok noFaults rfl query (limit vs.length) cursor db
      have hnext := hwalk.snoc (v := ⟨noFaults, db, limit vs.length, page⟩) hcursor hpage
      rcases stage_cases hpage hdb with hstage | ⟨c, hc⟩
      · rw [hstage] at hnext
        exact Or.inl ⟨_, hnext, hun.snoc page⟩
      · exact Or.inr ⟨_, _, some c, hnext, hun.snoc page, by simp [hlen], hc⟩

/-- A walk over a table that stays ends, whatever the limits. -/
theorem walk_ends (query : Option String) {db : Db} (hdb : db.Listable) (limit : ℕ → ℕ) :
    ∃ vs, Walk query .first vs .ended ∧ Unchanging db limit vs := by
  rcases walk_steps query hdb limit (db.objects.entries.length + 2) with
    hended | ⟨vs, t, cursor, hwalk, hun, hlen, -⟩
  · exact hended
  · have hbound := walk_length_le hwalk hdb fun v hv => by
      obtain ⟨i, hi⟩ := List.mem_iff_getElem?.mp hv
      exact (hun i v hi).2.1
    omega

/-- **Listing pages neither skip nor repeat**, whatever is committed between them. -/
theorem paging_contract (query : Option String) :
    (∀ vs t, Walk query .first vs t → (∀ v ∈ vs, v.db.Listable) →
      (returned vs).Pairwise Before ∧
      (t = .ended → ∀ hash time, (∀ v ∈ vs, ∃ row, v.db.row? hash = some row ∧
        row.createdAt = time ∧ matchesQuery query row.name = true) →
          (returned vs).count (time, hash) = 1) ∧
      ∀ v ∈ vs, ∀ o ∈ v.page.objects, ∃ row, v.db.row? o.hash = some row ∧
        o = summaryFromRow o.hash row ∧ matchesQuery query o.name = true) ∧
    (∀ db : Db, db.Listable →
      (∀ vs t, Walk query .first vs t → (∀ v ∈ vs, v.db = db) →
        vs.length ≤ db.objects.entries.length + 1) ∧
      ∀ limit, ∃ vs, Walk query .first vs .ended ∧ Unchanging db limit vs) ∧
    ∀ c : Cursor, IsI64 c.createdAt → Cursor.fromStr c.display = some c := by
  refine ⟨fun vs t hwalk hdb => ⟨walk_sorted hwalk hdb, ?_, walk_matches hwalk⟩, ?_, ?_⟩
  · rintro rfl hash time hrow
    exact walk_complete hwalk hdb hrow
  · intro db hdb
    exact ⟨fun vs t hwalk hsame => walk_length_le hwalk hdb hsame, walk_ends query hdb⟩
  · intro c hc
    exact Cursor.fromStr_display hc

/-! ### A push between two pages -/

namespace Pages

def row (time : Int) : Row where
  storePath := "/nix/store/hello"
  name := "hello"
  narHash := "sha256:x"
  narSize := 10
  fileHash := "sha256:y"
  fileSize := 5
  deriver := none
  ca := none
  sigs := []
  pushedBy := none
  createdAt := time
  lastAccessedAt := time
  pushedAt := time

def before : Db := (Db.empty.upsert "a" (row 100)).upsert "b" (row 101)

/-- `c` is pushed while the walk stands at `b`. -/
def after : Db := before.upsert "c" (row 102)

def visits : List Visit :=
  [⟨noFaults, before, 1, ⟨[summaryFromRow "b" (row 101)], some "101:b"⟩⟩,
    ⟨noFaults, after, 1, ⟨[summaryFromRow "a" (row 100)], none⟩⟩]

theorem listable_upsert {db : Db} (h : db.Listable) {hash : String} (hhash : hash ≠ "") {time : Int}
    (htime : IsI64 time) : (db.upsert hash (row time)).Listable := by
  intro k r hr
  rw [Db.row?_upsert] at hr
  split at hr
  · rename_i hk
    obtain rfl := Option.some.inj hr
    exact ⟨hk ▸ hhash, htime⟩
  · exact h k r hr

theorem listable_empty : Db.empty.Listable := fun _ _ h => absurd h (by simp)

theorem listable_before : before.Listable :=
  listable_upsert (listable_upsert listable_empty (by decide) (by decide)) (by decide) (by decide)

theorem listable_after : after.Listable := listable_upsert listable_before (by decide) (by decide)

theorem walk : Walk none .first visits .ended := by
  have hfirst : Stage.cursor? .first = some none := rfl
  have hsecond : Stage.cursor? (.following "101:b") = some (some ⟨101, "b"⟩) := by decide
  exact .page hfirst (by decide) (.page hsecond (by decide) (.stop _))

end Pages

theorem paging_contract_pushed : (returned Pages.visits).count (100, "a") = 1 := by
  refine ((paging_contract none).1 Pages.visits .ended Pages.walk ?_).2.1 rfl "a" 100 ?_
  · intro v hv
    rcases List.mem_cons.mp hv with rfl | hv
    · exact Pages.listable_before
    · rw [List.mem_singleton.mp hv]
      exact Pages.listable_after
  · intro v hv
    rcases List.mem_cons.mp hv with rfl | hv
    · exact ⟨Pages.row 100, by decide, rfl, rfl⟩
    · rw [List.mem_singleton.mp hv]
      exact ⟨Pages.row 100, by decide, rfl, rfl⟩

end Browse

end Garret
