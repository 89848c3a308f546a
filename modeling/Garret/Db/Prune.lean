import Garret.Db.Ops
import Garret.Lib.Graph

/-!
# Prune: mark, order, delete in batches

Model of `prunable`, `referrers_first` and `delete_pruned` (`crates/garret-server/src/db.rs`).

* `prunable` marks from the roots that stay (rows pushed at or after the cutoff, live pins)
  through `object_refs` and returns the rows the mark does not reach. The recursive query is
  `Lib.closure`.
* `referrersFirst` is Kahn's algorithm over the edges inside the listed rows (`Lib.Kahn.kahn`):
  `index` maps a hash to its last position in the list, as collecting a `HashMap` does, and edges
  to the row itself are skipped.
* `deletePrunedBatch` is one transaction of `delete_pruned`.

`Prunes db now todo` says what the code relies on while it deletes: the rows still to go are the
listed ones, none was pushed within the grace or has a live pin, and every other row that refers
to one of them goes before it. `prunable_doomed` and `prunes_start` establish it from the mark and
the order; `prunes_batch` carries it over one batch, and `deletePrunedBatch_closed` reads off that
no batch leaves a referrer without its reference.
-/

namespace Garret

open Garret.Lib

/-! ## The mark -/

/-- The rows and pins `prunable` marks from. -/
def pruneRoots (db : Db) (before now : Int) : List String :=
  ((db.objects.entries.filter fun e => decide (before ≤ e.2.pushedAt)).map (·.1)) ++
    ((db.pins.entries.filter fun e => e.2.live now).map (·.2.storePathHash))

/-- The recursive query `keep`. -/
def keep (db : Db) (before now : Int) : List String := closure db.edges (pruneRoots db before now)

/-- `ORDER BY name, store_path_hash`. -/
def nameOrder (a b : String × String) : Prop := a.1 < b.1 ∨ a.1 = b.1 ∧ a.2 ≤ b.2

instance : DecidableRel nameOrder := fun a b => by unfold nameOrder; infer_instance

/-- `prunable`: every row last pushed before `before` that no surviving closure needs. -/
def prunable (io : Faults) (before now : Int) (db : Db) : Except DbError (List ObjectBrief) :=
  if before ≤ now - pushGrace then do
    statement io 0
    let rows := db.objects.entries.filter fun e => decide (e.1 ∉ keep db before now)
    let rows := rows.insertionSort fun a b => nameOrder (a.2.name, a.1) (b.2.name, b.1)
    return rows.map fun e => e.2.brief e.1
  else .error (.refused (s!"the cutoff must be at least {pushGraceHours} hours ago, " ++
    "so a push in progress keeps its closure"))

/-! ## The order -/

/-- `index`: the last position of `hash` in the list. -/
def doomedIndex (doomed : List ObjectBrief) (hash : String) : Option ℕ :=
  ((List.range doomed.length).filter fun i =>
    (doomed[i]?.map ObjectBrief.storePathHash) == some hash).getLast?

/-- `references[i]`: the positions of the other listed rows that row `i` references. -/
def doomedRefs (db : Db) (doomed : List ObjectBrief) (i : ℕ) : List ℕ :=
  match doomed[i]? with
  | none => []
  | some b =>
    (db.objectRefs.filter fun r => r.referrer == b.storePathHash).filterMap fun r =>
      (doomedIndex doomed r.referenceHash).filter fun j => j != i

/-- `referrers_first`: positions in `doomed`, every referrer before what it references. -/
def referrersFirst (io : Faults) (db : Db) (doomed : List ObjectBrief) :
    Except DbError (List ℕ) :=
  -- one query per listed row
  if (List.range (doomed.length + 1)).any io then .error .io
  else
    let order := Kahn.kahn doomed.length (doomedRefs db doomed)
    if order.length = doomed.length then .ok order
    else .error (.refused "reference cycle among objects to prune; nothing deleted")

/-- `PRUNE_BATCH`. -/
def pruneBatch : ℕ := 500

/-- The rows of `order.chunks(PRUNE_BATCH)`. -/
def pruneBatches (doomed : List ObjectBrief) (order : List ℕ) : List (List ObjectBrief) :=
  (chunks pruneBatch order).map fun batch => batch.filterMap fun i => doomed[i]?

/-! ## The delete -/

/-- The deletes of one batch, each with its cascades. -/
def Db.deleteRows (db : Db) (hashes : List String) : Db := hashes.foldl Db.deleteRow db

/-- `n` statements from the `k`-th on, run for their effect. -/
def statements (io : Faults) (k n : ℕ) : Except DbError Unit :=
  if (List.range n).any fun i => io (k + i) then .error .io else .ok ()

/-- One transaction of `delete_pruned`. -/
def deletePrunedBatch (io : Faults) (batch : List ObjectBrief) : Db → Except DbError Unit × Db :=
  transaction fun db => do
    statement io 0
    statements io 1 batch.length
    let db := db.deleteRows (batch.map ObjectBrief.storePathHash)
    statement io (1 + batch.length)
    let db := db.debit (batch.map ObjectBrief.fileSize).sum
    statement io (2 + batch.length)
    return ((), db)

/-- The transactions of `delete_pruned`, from the `k`-th on; the first that fails ends it. -/
def deleteBatches (ios : ℕ → Faults) : ℕ → List (List ObjectBrief) → Db → Except DbError Unit × Db
  | _, [], db => (.ok (), db)
  | k, batch :: rest, db =>
    match deletePrunedBatch (ios k) batch db with
    | (.ok (), db) => deleteBatches ios (k + 1) rest db
    | (.error e, db) => (.error e, db)

/-- `delete_pruned`. -/
def deletePruned (io : Faults) (ios : ℕ → Faults) (doomed : List ObjectBrief) (db : Db) :
    Except DbError Unit × Db :=
  match referrersFirst io db doomed with
  | .ok order => deleteBatches ios 0 (pruneBatches doomed order) db
  | .error e => (.error e, db)

/-- What a committed batch leaves. -/
def Db.pruned (db : Db) (batch : List ObjectBrief) : Db :=
  (db.deleteRows (batch.map ObjectBrief.storePathHash)).debit (batch.map ObjectBrief.fileSize).sum

/-- **A batch of `delete_pruned` commits whole or not at all.** -/
theorem deletePrunedBatch_cases {io : Faults} {batch : List ObjectBrief} {db db' : Db}
    {r : Except DbError Unit} (h : deletePrunedBatch io batch db = (r, db')) :
    (r = .ok () ∧ db' = db.pruned batch) ∨ (∃ e, r = .error e) ∧ db' = db := by
  rcases transaction_cases h with ⟨u, rfl, hb⟩ | ⟨e, rfl, rfl⟩
  · refine Or.inl ⟨rfl, ?_⟩
    simp only [bind_eq_ok, pure_eq_ok, Prod.mk.injEq] at hb
    obtain ⟨_, -, _, -, _, -, _, -, -, rfl⟩ := hb
    rfl
  · exact Or.inr ⟨⟨e, rfl⟩, rfl⟩

theorem row?_deleteRows : ∀ (hashes : List String) (db : Db) (k : String),
    (db.deleteRows hashes).row? k = if k ∈ hashes then none else db.row? k
  | [], db, k => by simp [Db.deleteRows]
  | h :: hs, db, k => by
    have heq : db.deleteRows (h :: hs) = (db.deleteRow h).deleteRows hs := rfl
    rw [heq, row?_deleteRows hs, Db.row?_deleteRow]
    by_cases hk : k ∈ hs
    · simp [hk]
    · by_cases hkh : k = h <;> simp [hk, hkh]

theorem mem_refs_deleteRows : ∀ {hashes : List String} {db : Db} {r : ObjectRef},
    r ∈ (db.deleteRows hashes).objectRefs ↔ r ∈ db.objectRefs ∧ r.referrer ∉ hashes
  | [], db, r => by simp [Db.deleteRows]
  | h :: hs, db, r => by
    have heq : db.deleteRows (h :: hs) = (db.deleteRow h).deleteRows hs := rfl
    rw [heq, mem_refs_deleteRows, Db.mem_refs_deleteRow, List.mem_cons, not_or]
    tauto

theorem pin?_deleteRows : ∀ {hashes : List String} {db : Db} {name : String} {p : Pin},
    (db.deleteRows hashes).pins.lookup name = some p ↔
      db.pins.lookup name = some p ∧ p.storePathHash ∉ hashes
  | [], db, name, p => by simp [Db.deleteRows]
  | h :: hs, db, name, p => by
    have heq : db.deleteRows (h :: hs) = (db.deleteRow h).deleteRows hs := rfl
    rw [heq, pin?_deleteRows, Db.pin?_deleteRow, List.mem_cons, not_or]
    tauto

@[simp] theorem row?_pruned (db : Db) (batch : List ObjectBrief) (k : String) :
    (db.pruned batch).row? k =
      if k ∈ batch.map ObjectBrief.storePathHash then none else db.row? k :=
  row?_deleteRows _ db k

theorem mem_refs_pruned {db : Db} {batch : List ObjectBrief} {r : ObjectRef} :
    r ∈ (db.pruned batch).objectRefs ↔
      r ∈ db.objectRefs ∧ r.referrer ∉ batch.map ObjectBrief.storePathHash :=
  mem_refs_deleteRows

theorem pin?_pruned {db : Db} {batch : List ObjectBrief} {name : String} {p : Pin} :
    (db.pruned batch).pins.lookup name = some p ↔
      db.pins.lookup name = some p ∧ p.storePathHash ∉ batch.map ObjectBrief.storePathHash :=
  pin?_deleteRows

/-! ## What prune relies on while it deletes -/

/-- The rows still to go are the listed ones, past the grace and unpinned, and every other row
that refers to one of them goes before it. -/
structure Prunes (db : Db) (now : Int) (todo : List ObjectBrief) : Prop where
  row : ∀ b ∈ todo, ∃ row, db.row? b.storePathHash = some row ∧ b = row.brief b.storePathHash ∧
    row.pushedAt < now - pushGrace
  pin : ∀ b ∈ todo, ∀ name p, db.pins.lookup name = some p → p.storePathHash = b.storePathHash →
    p.live now = false
  nodup : (todo.map ObjectBrief.storePathHash).Nodup
  referrer : ∀ pre b post, todo = pre ++ b :: post → ∀ r ∈ db.objectRefs,
    r.referenceHash = b.storePathHash → r.referrer ≠ b.storePathHash →
    r.referrer ∈ pre.map ObjectBrief.storePathHash

/-- What `prunable` returns: the rows outside the mark, each once. -/
theorem prunable_ok {io : Faults} {before now : Int} {db : Db} {doomed : List ObjectBrief}
    (h : prunable io before now db = .ok doomed) :
    before ≤ now - pushGrace ∧ (doomed.map ObjectBrief.storePathHash).Nodup ∧
    ∀ b, b ∈ doomed ↔ ∃ row, db.row? b.storePathHash = some row ∧
      b = row.brief b.storePathHash ∧ b.storePathHash ∉ keep db before now := by
  unfold prunable at h
  split at h
  · rename_i hcut
    simp only [bind_eq_ok, pure_eq_ok] at h
    obtain ⟨_, -, rfl⟩ := h
    refine ⟨hcut, ?_, fun b => ?_⟩
    · have hkeys : (db.objects.entries.map fun e => e.1).Nodup := db.objects.nodupKeys
      rw [List.map_map]
      refine ((List.perm_insertionSort _ _).map _).nodup_iff.mpr ?_
      exact List.Nodup.sublist (List.Sublist.map _ List.filter_sublist) hkeys
    · simp only [List.mem_map, List.mem_insertionSort, List.mem_filter, decide_eq_true_eq]
      constructor
      · rintro ⟨e, ⟨he, hk⟩, rfl⟩
        exact ⟨e.2, Table.lookup_eq_some_iff.mpr he, rfl, hk⟩
      · rintro ⟨row, hrow, hb, hk⟩
        exact ⟨⟨b.storePathHash, row⟩, ⟨Table.lookup_eq_some_iff.mp hrow, hk⟩, hb.symm⟩
  · exact absurd h (by simp)

theorem not_keep_pushedAt {db : Db} {before now : Int} {hash : String} {row : Row}
    (hrow : db.row? hash = some row) (hk : hash ∉ keep db before now) : row.pushedAt < before := by
  by_contra hlt
  refine hk (subset_closure (List.mem_append_left _ ?_))
  exact List.mem_map.mpr ⟨⟨hash, row⟩,
    List.mem_filter.mpr ⟨Table.lookup_eq_some_iff.mp hrow, by simpa using hlt⟩, rfl⟩

theorem not_keep_pin {db : Db} {before now : Int} {name : String} {p : Pin}
    (hp : db.pins.lookup name = some p) (hk : p.storePathHash ∉ keep db before now) :
    p.live now = false := by
  by_contra hlive
  refine hk (subset_closure (List.mem_append_right _ ?_))
  exact List.mem_map.mpr ⟨⟨name, p⟩,
    List.mem_filter.mpr ⟨Table.lookup_eq_some_iff.mp hp, by simpa using hlive⟩, rfl⟩

theorem doomedIndex_lt {doomed : List ObjectBrief} {hash : String} {j : ℕ}
    (h : doomedIndex doomed hash = some j) :
    j < doomed.length ∧ doomed[j]?.map ObjectBrief.storePathHash = some hash := by
  have hm := List.mem_of_getLast? h
  obtain ⟨hlt, heq⟩ := List.mem_filter.mp hm
  exact ⟨List.mem_range.mp hlt, by simpa using heq⟩

/-- In a list of distinct hashes the index finds the position. -/
theorem doomedIndex_eq {doomed : List ObjectBrief}
    (hnd : (doomed.map ObjectBrief.storePathHash).Nodup) {i : ℕ} {b : ObjectBrief}
    (hi : doomed[i]? = some b) : doomedIndex doomed b.storePathHash = some i := by
  have hlt : i < doomed.length := (List.getElem?_eq_some_iff.mp hi).1
  have hmem : i ∈ (List.range doomed.length).filter fun k =>
      (doomed[k]?.map ObjectBrief.storePathHash) == some b.storePathHash :=
    List.mem_filter.mpr ⟨List.mem_range.mpr hlt, by simp [hi]⟩
  obtain ⟨j, hj⟩ : ∃ j, doomedIndex doomed b.storePathHash = some j := by
    unfold doomedIndex
    cases hx : ((List.range doomed.length).filter fun k =>
        (doomed[k]?.map ObjectBrief.storePathHash) == some b.storePathHash).getLast? with
    | none =>
      rw [List.getLast?_eq_none_iff] at hx
      exact absurd hx (List.ne_nil_of_mem hmem)
    | some j => exact ⟨j, rfl⟩
  obtain ⟨hjlt, hjeq⟩ := doomedIndex_lt hj
  have hij : (doomed.map ObjectBrief.storePathHash)[j]? =
      (doomed.map ObjectBrief.storePathHash)[i]? := by
    rw [List.getElem?_map, List.getElem?_map, hjeq, hi]
    rfl
  have : j = i := (List.getElem?_inj (by simpa using hjlt) hnd).mp hij
  rw [hj, this]

theorem doomedRefs_lt {db : Db} {doomed : List ObjectBrief} :
    ∀ i < doomed.length, ∀ j ∈ doomedRefs db doomed i, j < doomed.length := by
  intro i _ j hj
  unfold doomedRefs at hj
  split at hj
  · exact absurd hj List.not_mem_nil
  · obtain ⟨r, -, hr⟩ := List.mem_filterMap.mp hj
    exact (doomedIndex_lt (Option.filter_eq_some_iff.mp hr).1).1

theorem referrersFirst_ok {io : Faults} {db : Db} {doomed : List ObjectBrief} {order : List ℕ}
    (h : referrersFirst io db doomed = .ok order) :
    order = Kahn.kahn doomed.length (doomedRefs db doomed) ∧ order.length = doomed.length := by
  unfold referrersFirst at h
  split at h
  · exact absurd h (by simp)
  · simp only at h
    split at h
    · rename_i hlen
      obtain rfl := Except.ok.inj h
      exact ⟨rfl, hlen⟩
    · exact absurd h (by simp)

/-- What the listing promises while nothing but access times changes: its rows are past the grace
and unpinned, and it is closed under referrers. -/
structure Doomed (db : Db) (now : Int) (doomed : List ObjectBrief) : Prop where
  row : ∀ b ∈ doomed, ∃ row, db.row? b.storePathHash = some row ∧ b = row.brief b.storePathHash ∧
    row.pushedAt < now - pushGrace
  pin : ∀ b ∈ doomed, ∀ name p, db.pins.lookup name = some p → p.storePathHash = b.storePathHash →
    p.live now = false
  nodup : (doomed.map ObjectBrief.storePathHash).Nodup
  referrer : ∀ r ∈ db.objectRefs, r.referenceHash ∈ doomed.map ObjectBrief.storePathHash →
    r.referrer ∈ doomed.map ObjectBrief.storePathHash

/-- **The mark is closed**: what `prunable` returns is a doomed listing. -/
theorem prunable_doomed {io : Faults} {before now : Int} {db : Db} {doomed : List ObjectBrief}
    (h : prunable io before now db = .ok doomed) : Doomed db now doomed := by
  obtain ⟨hcut, hnd, hmem⟩ := prunable_ok h
  refine ⟨fun b hb => ?_, fun b hb name p hpin heq => ?_, hnd, fun r hr href => ?_⟩
  · obtain ⟨row, hrow, hbr, hk⟩ := (hmem b).mp hb
    have := not_keep_pushedAt hrow hk
    exact ⟨row, hrow, hbr, by omega⟩
  · obtain ⟨row, -, -, hk⟩ := (hmem b).mp hb
    exact not_keep_pin hpin (heq ▸ hk)
  · obtain ⟨b, hb, href⟩ := List.mem_map.mp href
    obtain ⟨-, -, -, hbk⟩ := (hmem b).mp hb
    have hrk : r.referrer ∉ keep db before now := by
      intro hin
      refine hbk (closure_closed (List.mem_map.mpr ⟨r, hr, ?_⟩) hin)
      rw [href]
    obtain ⟨row, hrow⟩ := Db.mem_objects_iff.mp (db.refs_fk r hr)
    exact List.mem_map.mpr ⟨row.brief r.referrer, (hmem _).mpr ⟨row, hrow, rfl, hrk⟩, rfl⟩

/-- **The order deletes referrers first.** -/
theorem prunes_start {io : Faults} {now : Int} {db : Db} {doomed : List ObjectBrief}
    {order : List ℕ} (hd : Doomed db now doomed) (ho : referrersFirst io db doomed = .ok order) :
    Prunes db now (order.filterMap fun i => doomed[i]?) := by
  obtain ⟨rfl, hlen⟩ := referrersFirst_ok ho
  set order := Kahn.kahn doomed.length (doomedRefs db doomed) with horder
  have hsub : ∀ b ∈ order.filterMap (fun i => doomed[i]?), b ∈ doomed := by
    intro b hb
    obtain ⟨i, -, hi⟩ := List.mem_filterMap.mp hb
    exact List.mem_of_getElem? hi
  refine ⟨fun b hb => hd.row b (hsub b hb), fun b hb => hd.pin b (hsub b hb), ?_,
    fun pre b post hsplit r hr href hne => ?_⟩
  · -- positions are distinct and each carries a different hash
    have hord : order.Nodup := Kahn.kahn_nodup doomedRefs_lt
    rw [List.map_filterMap]
    refine List.Nodup.filterMap (fun i j x hi hj => ?_) hord
    obtain ⟨b, hb, hbx⟩ := Option.map_eq_some_iff.mp hi
    obtain ⟨c, hc, hcx⟩ := Option.map_eq_some_iff.mp hj
    have h1 := doomedIndex_eq hd.nodup hb
    have h2 := doomedIndex_eq hd.nodup hc
    rw [hbx] at h1
    rw [hcx, h1] at h2
    exact Option.some.inj h2
  · -- `b` sits at position `j` of the order; its referrer is doomed too, at an earlier position
    obtain ⟨opre, orest, hoeq, hpre, hrest⟩ := List.filterMap_eq_append_iff.mp hsplit
    obtain ⟨omid, j, opost, horest, hmid, hj, hpost⟩ := List.filterMap_eq_cons_iff.mp hrest
    have hsplit' : order = (opre ++ omid) ++ j :: opost := by
      rw [hoeq, horest, List.append_assoc]
    have hjb : doomed[j]? = some b := hj
    have hbd : b ∈ doomed := List.mem_of_getElem? hjb
    obtain ⟨c, hcd, hcr⟩ := List.mem_map.mp
      (hd.referrer r hr (by rw [href]; exact List.mem_map_of_mem hbd))
    obtain ⟨i, hi⟩ := List.mem_iff_getElem?.mp hcd
    have hilt : i < doomed.length := (List.getElem?_eq_some_iff.mp hi).1
    have hij : j ∈ doomedRefs db doomed i := by
      unfold doomedRefs
      rw [hi]
      refine List.mem_filterMap.mpr ⟨r, List.mem_filter.mpr ⟨hr, by simp [hcr]⟩, ?_⟩
      rw [href, doomedIndex_eq hd.nodup hjb, Option.filter_some, if_pos]
      simp only [bne_iff_ne, ne_eq]
      rintro rfl
      rw [hi, Option.some.injEq] at hjb
      exact hne (by rw [← hjb, hcr])
    have hin : i ∈ opre ++ omid := Kahn.kahn_topo doomedRefs_lt hsplit' hilt hij
    have : c ∈ pre := by
      rw [← hpre]
      rcases List.mem_append.mp hin with h | h
      · exact List.mem_filterMap.mpr ⟨i, h, hi⟩
      · exact absurd (hmid i h) (by rw [hi]; simp)
    exact List.mem_map.mpr ⟨c, this, hcr⟩

/-- A row the listing names is the same up to its access time. -/
theorem brief_of_sameButAccess {db db' : Db} {b : ObjectBrief} {t : Int}
    (hrows : ∀ k, db'.row? k = db.row? k ∨
      ∃ a b, db.row? k = some a ∧ db'.row? k = some b ∧ a.SameButAccess b)
    (h : ∃ row, db.row? b.storePathHash = some row ∧ b = row.brief b.storePathHash ∧
      row.pushedAt < t) :
    ∃ row, db'.row? b.storePathHash = some row ∧ b = row.brief b.storePathHash ∧
      row.pushedAt < t := by
  obtain ⟨row, hrow, hbr, hlt⟩ := h
  rcases hrows b.storePathHash with heq | ⟨a, c, ha, hc, hac⟩
  · exact ⟨row, heq.trans hrow, hbr, hlt⟩
  · obtain rfl := Option.some.inj (ha.symm.trans hrow)
    unfold Row.SameButAccess at hac
    refine ⟨c, hc, ?_, ?_⟩
    · rw [hac]
      exact hbr
    · rw [hac]
      exact hlt

/-- The Puller may bump access times between two statements of a prune. -/
theorem Doomed.bumped {db db' : Db} {now : Int} {doomed : List ObjectBrief}
    (h : Doomed db now doomed) (hrefs : db'.objectRefs = db.objectRefs) (hpins : db'.pins = db.pins)
    (hrows : ∀ k, db'.row? k = db.row? k ∨
      ∃ a b, db.row? k = some a ∧ db'.row? k = some b ∧ a.SameButAccess b) :
    Doomed db' now doomed where
  row b hb := brief_of_sameButAccess hrows (h.row b hb)
  pin b hb name p hp := h.pin b hb name p (hpins ▸ hp)
  nodup := h.nodup
  referrer r hr := h.referrer r (hrefs ▸ hr)

theorem Prunes.bumped {db db' : Db} {now : Int} {todo : List ObjectBrief}
    (h : Prunes db now todo) (hrefs : db'.objectRefs = db.objectRefs) (hpins : db'.pins = db.pins)
    (hrows : ∀ k, db'.row? k = db.row? k ∨
      ∃ a b, db.row? k = some a ∧ db'.row? k = some b ∧ a.SameButAccess b) :
    Prunes db' now todo where
  row b hb := brief_of_sameButAccess hrows (h.row b hb)
  pin b hb name p hp := h.pin b hb name p (hpins ▸ hp)
  nodup := h.nodup
  referrer pre b post hs r hr := h.referrer pre b post hs r (hrefs ▸ hr)

/-- **Every listed row goes**: the batches together are the whole list. -/
theorem mem_pruneBatches {io : Faults} {db : Db} {doomed : List ObjectBrief} {order : List ℕ}
    (ho : referrersFirst io db doomed = .ok order) {b : ObjectBrief} (hb : b ∈ doomed) :
    b ∈ order.filterMap fun i => doomed[i]? := by
  obtain ⟨rfl, hlen⟩ := referrersFirst_ok ho
  obtain ⟨i, hi⟩ := List.mem_iff_getElem?.mp hb
  have hilt : i < doomed.length := (List.getElem?_eq_some_iff.mp hi).1
  exact List.mem_filterMap.mpr ⟨i, Kahn.mem_kahn_of_length doomedRefs_lt hlen hilt, hi⟩

theorem pruneBatches_flatten (doomed : List ObjectBrief) (order : List ℕ) :
    (pruneBatches doomed order).flatten = order.filterMap fun i => doomed[i]? := by
  unfold pruneBatches
  rw [← List.filterMap_flatten, flatten_chunks (by decide)]

/-- **One batch keeps what prune relies on.** -/
theorem prunes_batch {db : Db} {now : Int} {batch rest : List ObjectBrief}
    (h : Prunes db now (batch ++ rest)) : Prunes (db.pruned batch) now rest := by
  have hnd := h.nodup
  rw [List.map_append, List.nodup_append] at hnd
  have hout : ∀ b ∈ rest, b.storePathHash ∉ batch.map ObjectBrief.storePathHash := by
    intro b hb hin
    exact hnd.2.2 _ hin _ (List.mem_map_of_mem hb) rfl
  refine ⟨fun b hb => ?_, fun b hb name p hp heq => ?_, hnd.2.1,
    fun pre b post hsplit r hr href hne => ?_⟩
  · obtain ⟨row, hrow, hbr, hlt⟩ := h.row b (List.mem_append_right _ hb)
    exact ⟨row, by rw [row?_pruned, if_neg (hout b hb), hrow], hbr, hlt⟩
  · exact h.pin b (List.mem_append_right _ hb) name p (pin?_pruned.mp hp).1 heq
  · obtain ⟨hr, hgone⟩ := mem_refs_pruned.mp hr
    have := h.referrer (batch ++ pre) b post (by rw [hsplit, List.append_assoc]) r hr href hne
    rw [List.map_append] at this
    exact (List.mem_append.mp this).resolve_left hgone

/-- **No batch leaves a referrer without its reference.** -/
theorem deletePrunedBatch_closed {db : Db} {now : Int} {batch rest : List ObjectBrief}
    (h : Prunes db now (batch ++ rest)) {r : ObjectRef} (hr : r ∈ (db.pruned batch).objectRefs)
    (hne : r.referrer ≠ r.referenceHash) :
    (db.pruned batch).row? r.referenceHash = db.row? r.referenceHash := by
  rw [row?_pruned]
  split
  · rename_i hin
    obtain ⟨b, hb, heq⟩ := List.mem_map.mp hin
    obtain ⟨pre, post, hsplit⟩ := List.append_of_mem hb
    obtain ⟨hr, hgone⟩ := mem_refs_pruned.mp hr
    have := h.referrer pre b (post ++ rest) (by rw [hsplit]; simp) r hr heq.symm
      (by rw [heq]; exact hne)
    refine absurd ?_ hgone
    rw [hsplit, List.map_append]
    exact List.mem_append_left _ this
  · rfl

end Garret
