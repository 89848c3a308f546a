import Garret.Db.Prune
import Garret.Lib.Acyclic

/-!
# What a prune removes

`prunable` marks forward from the rows that stay; what it says it computes is the set that deleting
old roots, one after the other, would reach (`crates/garret-server/src/db.rs`).

* `Db.Peeled before now`: rows deleted one at a time, each old, unpinned and without another
  referrer left. On a reference graph without cycles every such run that cannot go on has removed
  exactly what `prunable` returns (`prunable_eq_peeled`).
* `referrersFirst` finds an order exactly when the listed rows have no reference cycle
  (`deletePruned_spec`); `deletePruned` then removes the listed rows and nothing else, in any number
  of batches.
-/

namespace Garret

open Garret.Lib

namespace Db

variable {db db₀ db' : Db} {before now : Int}

/-- `a` references the other row `b`. -/
def Links (db : Db) (a b : String) : Prop :=
  (∃ row, db.row? a = some row) ∧ (∃ row, db.row? b = some row) ∧ a ≠ b ∧
    ∃ r ∈ db.objectRefs, r.referrer = a ∧ r.referenceHash = b

/-- The row may be deleted from its root: old, unpinned, and no other row references it. -/
structure Removable (db : Db) (before now : Int) (hash : String) : Prop where
  old : ∃ row, db.row? hash = some row ∧ row.pushedAt < before
  unpinned : ∀ name p, db.pins.lookup name = some p → p.storePathHash = hash → p.live now = false
  root : ∀ r ∈ db.objectRefs, r.referenceHash = hash → r.referrer = hash

/-- One such row is deleted. -/
def PeelStep (before now : Int) (db db' : Db) : Prop :=
  ∃ hash, db.Removable before now hash ∧ db' = db.deleteRow hash

/-- Rows are deleted one after the other. -/
def Peeled (before now : Int) : Db → Db → Prop :=
  Relation.ReflTransGen (PeelStep before now)

/-- No row may be deleted any more. -/
def Bare (db : Db) (before now : Int) : Prop := ∀ hash, ¬ db.Removable before now hash

/-! ## Deleting rows is peeling a set -/

/-- The hashes that have a row. -/
def rows (db : Db) : Set String := {hash | ∃ row, db.row? hash = some row}

theorem finite_rows (db : Db) : db.rows.Finite := by
  refine (List.finite_toSet db.objects.keys).subset ?_
  rintro hash hrow
  exact AList.mem_keys.mp (mem_objects_iff.mpr hrow)

/-- `a` references `b`. -/
def References (db : Db) (a b : String) : Prop :=
  ∃ r ∈ db.objectRefs, r.referrer = a ∧ r.referenceHash = b

/-- Nothing but a referrer keeps the row. -/
def Free (db : Db) (before now : Int) (hash : String) : Prop :=
  (∀ row, db.row? hash = some row → row.pushedAt < before) ∧
    ∀ name p, db.pins.lookup name = some p → p.storePathHash = hash → p.live now = false

/-- `db` is `db₀` less some rows, their references and their pins. -/
structure Within (db₀ db : Db) : Prop where
  row : ∀ k row, db.row? k = some row → db₀.row? k = some row
  refs : ∀ r, r ∈ db.objectRefs ↔ r ∈ db₀.objectRefs ∧ r.referrer ∈ db.rows
  pins : ∀ name p, db.pins.lookup name = some p ↔
    db₀.pins.lookup name = some p ∧ p.storePathHash ∈ db.rows

theorem Within.refl (db : Db) : Within db db where
  row _ _ h := h
  refs r := ⟨fun h => ⟨h, mem_objects_iff.mp (db.refs_fk r h)⟩, And.left⟩
  pins name p := by
    refine ⟨fun h => ⟨h, mem_objects_iff.mp ?_⟩, And.left⟩
    exact db.pins_fk ⟨name, p⟩ (Table.lookup_eq_some_iff.mp h)

theorem rows_deleteRow (db : Db) (hash : String) : (db.deleteRow hash).rows = db.rows \ {hash} := by
  ext k
  unfold rows
  by_cases hk : k = hash <;> simp [hk]

theorem Within.deleteRow (hw : Within db₀ db) (hash : String) : Within db₀ (db.deleteRow hash) where
  row k row h := by
    rw [row?_deleteRow] at h
    split at h
    · exact absurd h (by simp)
    · exact hw.row k row h
  refs r := by
    rw [mem_refs_deleteRow, hw.refs, rows_deleteRow, and_assoc]
    rfl
  pins name p := by
    rw [pin?_deleteRow, hw.pins, rows_deleteRow, and_assoc]
    rfl

/-- A row may be deleted exactly when its hash may be peeled off the set of rows. -/
theorem Within.removable_iff (hw : Within db₀ db) {hash : String} :
    db.Removable before now hash ↔
      Peelable db₀.References (db₀.Free before now) db.rows hash := by
  constructor
  · rintro ⟨⟨row, hrow, hold⟩, hpin, hroot⟩
    refine ⟨⟨row, hrow⟩, ⟨fun row' hrow' => ?_, fun name p hp heq => ?_⟩, ?_⟩
    · obtain rfl := Option.some.inj ((hw.row hash row hrow).symm.trans hrow')
      exact hold
    · exact hpin name p ((hw.pins name p).mpr ⟨hp, heq ▸ ⟨row, hrow⟩⟩) heq
    · rintro y hy ⟨r, hr, rfl, href⟩
      exact hroot r ((hw.refs r).mpr ⟨hr, hy⟩) href
  · rintro ⟨⟨row, hrow⟩, ⟨hold, hpin⟩, hroot⟩
    refine ⟨⟨row, hrow, hold row (hw.row hash row hrow)⟩, fun name p hp heq => ?_, ?_⟩
    · exact hpin name p ((hw.pins name p).mp hp).1 heq
    · intro r hr href
      obtain ⟨hr, hrow⟩ := (hw.refs r).mp hr
      exact hroot _ hrow ⟨r, hr, rfl, href⟩

/-- **Every run of deletes is a run of peels**, and what is left lies within the start. -/
theorem Peeled.peels (h : Peeled before now db₀ db) :
    Within db₀ db ∧ Peels db₀.References (db₀.Free before now) db₀.rows db.rows := by
  induction h with
  | refl => exact ⟨Within.refl db₀, Relation.ReflTransGen.refl⟩
  | tail _ hstep ih =>
    obtain ⟨hw, hp⟩ := ih
    obtain ⟨hash, hrem, rfl⟩ := hstep
    exact ⟨hw.deleteRow hash, hp.tail ⟨hash, hw.removable_iff.mp hrem, rows_deleteRow _ hash⟩⟩

/-- Every run of peels is one of deletes. -/
theorem exists_peeled {S : Set String}
    (h : Peels db₀.References (db₀.Free before now) db₀.rows S) :
    ∃ db, Peeled before now db₀ db ∧ Within db₀ db ∧ db.rows = S := by
  induction h with
  | refl => exact ⟨db₀, Relation.ReflTransGen.refl, Within.refl db₀, rfl⟩
  | tail _ hstep ih =>
    obtain ⟨db, hp, hw, rfl⟩ := ih
    obtain ⟨hash, hpeel, rfl⟩ := hstep
    exact ⟨db.deleteRow hash, hp.tail ⟨hash, hw.removable_iff.mpr hpeel, rfl⟩,
      hw.deleteRow hash, rows_deleteRow db hash⟩

theorem Within.bare_iff (hw : Within db₀ db) :
    db.Bare before now ↔ PeelDone db₀.References (db₀.Free before now) db.rows :=
  forall_congr' fun _ => not_congr hw.removable_iff

/-! ## The mark -/

/-- A row that is not free is a root of the mark. -/
theorem mem_pruneRoots_iff {hash : String} (hrow : hash ∈ db.rows) :
    hash ∈ pruneRoots db before now ↔ ¬ db.Free before now hash := by
  unfold pruneRoots Free
  rw [List.mem_append, List.mem_map, List.mem_map, not_and_or]
  refine or_congr ?_ ?_
  · constructor
    · rintro ⟨e, he, rfl⟩ hold
      obtain ⟨he, hlt⟩ := List.mem_filter.mp he
      have := hold e.2 (Table.lookup_eq_some_iff.mpr he)
      have := of_decide_eq_true hlt
      omega
    · intro hold
      obtain ⟨row, hrow⟩ := hrow
      refine ⟨⟨hash, row⟩, List.mem_filter.mpr ⟨Table.lookup_eq_some_iff.mp hrow, ?_⟩, rfl⟩
      refine decide_eq_true (not_lt.mp fun hlt => hold fun row' hrow' => ?_)
      obtain rfl := Option.some.inj (hrow.symm.trans hrow')
      exact hlt
  · constructor
    · rintro ⟨e, he, rfl⟩ hpin
      obtain ⟨he, hlive⟩ := List.mem_filter.mp he
      have := hpin e.1 e.2 (Table.lookup_eq_some_iff.mpr he) rfl
      exact absurd hlive (by simp [this])
    · intro hpin
      by_contra hno
      refine hpin fun name p hp heq => ?_
      by_contra hlive
      refine hno ⟨⟨name, p⟩, List.mem_filter.mpr ⟨Table.lookup_eq_some_iff.mp hp, ?_⟩, heq⟩
      simpa using hlive

/-- **The mark keeps a row exactly when a root that stays reaches it.** -/
theorem mem_keep_iff {hash : String} (hrow : hash ∈ db.rows) : hash ∈ keep db before now ↔
    Needed db.References (db.Free before now) db.rows hash := by
  have hedge : ∀ {a b}, (a, b) ∈ db.edges ↔ db.References a b := by
    intro a b
    simp [edges, References]
  have hfk : ∀ {a b}, db.References a b → a ∈ db.rows := by
    rintro a b ⟨r, hr, rfl, -⟩
    exact mem_objects_iff.mp (db.refs_fk r hr)
  unfold keep
  rw [mem_closure]
  constructor
  · rintro ⟨r, hr, hpath⟩
    induction hpath with
    | refl => exact ⟨r, hrow, (mem_pruneRoots_iff hrow).mp hr, Relation.ReflTransGen.refl⟩
    | tail _ he ih =>
      have href := hedge.mp he
      obtain ⟨r', hr', hfree, hpath⟩ := ih (hfk href)
      exact ⟨r', hr', hfree, hpath.tail ⟨href, hrow⟩⟩
  · rintro ⟨r, hr, hfree, hpath⟩
    refine ⟨r, (mem_pruneRoots_iff hr).mpr hfree, ?_⟩
    exact Relation.ReflTransGen.mono (fun a b he => hedge.mpr he.1) _ _ hpath

end Db

/-- A readable database is marked. -/
theorem prunable_noFaults {before now : Int} (db : Db) (hcut : before ≤ now - pushGrace) :
    ∃ doomed, prunable noFaults before now db = .ok doomed := by
  unfold prunable
  rw [if_pos hcut]
  exact ⟨_, rfl⟩

/-- **The mark is root-first deletion.** On a reference graph without cycles, deleting old roots one
after the other ends, and however it goes, it has removed exactly what `prunable` returns. -/
theorem prunable_eq_peeled {db : Db} {before now : Int} (hac : Acyclic db.Links)
    (hcut : before ≤ now - pushGrace) :
    ∃ doomed, prunable noFaults before now db = .ok doomed ∧
      (∃ db', Db.Peeled before now db db' ∧ db'.Bare before now) ∧
      ∀ db', Db.Peeled before now db db' → db'.Bare before now →
        ∀ hash, hash ∈ doomed.map ObjectBrief.storePathHash ↔
          (∃ row, db.row? hash = some row) ∧ db'.row? hash = none := by
  obtain ⟨doomed, hdoomed⟩ := prunable_noFaults db hcut
  obtain ⟨-, -, hmem⟩ := prunable_ok hdoomed
  refine ⟨doomed, hdoomed, ?_, fun db' hp hbare hash => ?_⟩
  · obtain ⟨S, hS, hdone⟩ := exists_peels_done db.References (db.Free before now) db.finite_rows
    obtain ⟨db', hp, hw, rfl⟩ := Db.exists_peeled hS
    exact ⟨db', hp, hw.bare_iff.mpr hdone⟩
  · obtain ⟨hw, hpeels⟩ := hp.peels
    have hac' : Acyclic fun a b => a ∈ db.rows ∧ b ∈ db.rows ∧ a ≠ b ∧ db.References a b := hac
    have hleft := hpeels.eq_needed hac' db.finite_rows (hw.bare_iff.mp hbare)
    have hdoom : hash ∈ doomed.map ObjectBrief.storePathHash ↔
        hash ∈ db.rows ∧ hash ∉ keep db before now := by
      rw [List.mem_map]
      constructor
      · rintro ⟨b, hb, rfl⟩
        obtain ⟨row, hrow, -, hk⟩ := (hmem b).mp hb
        exact ⟨⟨row, hrow⟩, hk⟩
      · rintro ⟨⟨row, hrow⟩, hk⟩
        exact ⟨row.brief hash, (hmem _).mpr ⟨row, hrow, rfl, hk⟩, rfl⟩
    rw [hdoom]
    refine and_congr_right fun hrow => ?_
    rw [Db.mem_keep_iff hrow, ← hleft hash]
    cases hrow' : db'.row? hash with
    | none => simp [Db.rows, hrow']
    | some row => simp [Db.rows, hrow']

/-! ## A chain of two rows -/

namespace Chain

/-- An object under `hash`, referring to `references`. -/
def object (hash : String) (references : List String) : Object :=
  ⟨hash, "/nix/store/" ++ hash, hash, "sha256:0", 1, "sha256:1", 7, none, none, references, [],
    none⟩

/-- `a` refers to `b` and to itself. -/
def db : Db :=
  (insertObject noFaults (object "a" ["b", "a"]) 0
    (insertObject noFaults (object "b" []) 0 Db.empty).2).2

/-- Its rows as `prunable` returns them, the reference first. -/
def listed : List ObjectBrief := [⟨"b", "b", 0, 7⟩, ⟨"a", "a", 0, 7⟩]

theorem references {x y : String} (h : db.References x y) : x = "a" ∧ (y = "b" ∨ y = "a") := by
  obtain ⟨r, hr, rfl, rfl⟩ := h
  have hrefs : db.objectRefs = [⟨"a", "b"⟩, ⟨"a", "a"⟩] := rfl
  rw [hrefs] at hr
  simp only [List.mem_cons, List.not_mem_nil, or_false] at hr
  rcases hr with rfl | rfl
  · exact ⟨rfl, Or.inl rfl⟩
  · exact ⟨rfl, Or.inr rfl⟩

/-- What the rank of an edge between distinct rows looks like. -/
theorem rank {x y : String} (hne : x ≠ y) (h : db.References x y) :
    (if x = "a" then 0 else 1) < if y = "a" then 0 else 1 := by
  obtain ⟨rfl, rfl | rfl⟩ := references h
  · decide
  · exact absurd rfl hne

end Chain

/-- Both rows of the chain are old: they go, the referrer first. -/
theorem prunable_eq_peeled_chain :
    ∃ doomed, prunable noFaults 13600 100000 Chain.db = .ok doomed ∧ doomed.length = 2 ∧
      ∃ db', Db.Peeled 13600 100000 Chain.db db' ∧ db'.Bare 13600 100000 ∧
        ∀ hash, hash ∈ doomed.map ObjectBrief.storePathHash ↔
          (∃ row, Chain.db.row? hash = some row) ∧ db'.row? hash = none := by
  have hac : Acyclic Chain.db.Links :=
    Acyclic.of_rank (fun x => if x = "a" then 0 else 1) fun x y h => Chain.rank h.2.2.1 h.2.2.2
  obtain ⟨doomed, hdoomed, ⟨db', hp, hbare⟩, hall⟩ :=
    prunable_eq_peeled hac (by decide : (13600 : Int) ≤ 100000 - pushGrace)
  refine ⟨doomed, hdoomed, ?_, db', hp, hbare, hall db' hp hbare⟩
  have hlen : ((prunable noFaults 13600 100000 Chain.db).toOption.map List.length) = some 2 := by
    decide +kernel
  rw [hdoomed] at hlen
  exact Option.some.inj hlen

/-! ## The order of the deletes -/

namespace Db

/-- `a` references `b`, both listed and distinct. -/
def LinksIn (db : Db) (listed : List String) (a b : String) : Prop :=
  a ∈ listed ∧ b ∈ listed ∧ a ≠ b ∧ db.References a b

/-- `db'` is `db` less the listed rows, their references and their pins. -/
structure Without (db : Db) (listed : List String) (db' : Db) : Prop where
  row : ∀ k, db'.row? k = if k ∈ listed then none else db.row? k
  refs : ∀ r, r ∈ db'.objectRefs ↔ r ∈ db.objectRefs ∧ r.referrer ∉ listed
  pins : ∀ name p, db'.pins.lookup name = some p ↔
    db.pins.lookup name = some p ∧ p.storePathHash ∉ listed

theorem Without.nil (db : Db) : db.Without [] db where
  row k := by simp
  refs r := by simp
  pins name p := by simp

/-- A batch, and what goes after it. -/
theorem Without.batch {db db' : Db} {batch : List ObjectBrief} {rest : List String}
    (h : (db.pruned batch).Without rest db') :
    db.Without (batch.map ObjectBrief.storePathHash ++ rest) db' where
  row k := by
    rw [h.row, row?_pruned]
    by_cases hk : k ∈ rest <;> simp [hk]
  refs r := by
    rw [h.refs, mem_refs_pruned, List.mem_append, not_or, and_assoc]
  pins name p := by
    rw [h.pins, pin?_pruned, List.mem_append, not_or, and_assoc]

/-- The order of the list does not matter to what is gone. -/
theorem Without.congr {db db' : Db} {l l' : List String} (h : db.Without l db')
    (heq : ∀ k, k ∈ l ↔ k ∈ l') : db.Without l' db' where
  row k := by
    rw [h.row]
    simp only [heq]
  refs r := by rw [h.refs, heq]
  pins name p := by rw [h.pins, heq]

end Db

/-- A counter of Kahn's algorithm is positive whenever the loop decrements it. -/
def NoUnderflow (n : ℕ) (succs : ℕ → List ℕ) : Prop :=
  ∀ rounds i ready pre j post, (Kahn.loop succs rounds (Kahn.start n succs)).ready = i :: ready →
    succs i = pre ++ j :: post →
    0 < (pre.foldl Kahn.release
      ((Kahn.loop succs rounds (Kahn.start n succs)).cnt, ready)).1 j

theorem noUnderflow {n : ℕ} {succs : ℕ → List ℕ} (hlt : ∀ i < n, ∀ j ∈ succs i, j < n) :
    NoUnderflow n succs := by
  intro rounds i ready pre j post hready hsplit
  have hinv := Kahn.inv_loop hlt rounds (Kahn.start n succs) Kahn.inv_start
  have hle := Kahn.succs_count_le hinv hready
  rw [hsplit] at hle
  have hpre : ∀ k, pre.count k ≤ (Kahn.loop succs rounds (Kahn.start n succs)).cnt k := by
    intro k
    have := hle k
    rw [List.count_append] at this
    omega
  obtain ⟨-, -, -, hval, -⟩ := Kahn.foldl_release pre _ ready hpre
  have := hle j
  rw [List.count_append, List.count_cons_self] at this
  rw [hval]
  omega

variable {db : Db} {doomed : List ObjectBrief}

/-- The edges `referrers_first` collects: references between listed rows, self-references left
out. -/
theorem mem_doomedRefs (hnd : (doomed.map ObjectBrief.storePathHash).Nodup) {i j : ℕ} :
    j ∈ doomedRefs db doomed i ↔ i ≠ j ∧ ∃ a b, doomed[i]? = some a ∧ doomed[j]? = some b ∧
      db.References a.storePathHash b.storePathHash := by
  unfold doomedRefs
  constructor
  · intro h
    cases ha : doomed[i]? with
    | none => simp [ha] at h
    | some a =>
      simp only [ha, List.mem_filterMap, List.mem_filter, beq_iff_eq,
        Option.filter_eq_some_iff, bne_iff_ne, ne_eq] at h
      obtain ⟨r, ⟨hr, hreferrer⟩, hidx, hne⟩ := h
      obtain ⟨-, hj⟩ := doomedIndex_lt hidx
      obtain ⟨b, hb, hbr⟩ := Option.map_eq_some_iff.mp hj
      exact ⟨fun e => hne e.symm, a, b, rfl, hb, r, hr, hreferrer, hbr.symm⟩
  · rintro ⟨hne, a, b, ha, hb, r, hr, hreferrer, href⟩
    rw [ha]
    refine List.mem_filterMap.mpr ⟨r, List.mem_filter.mpr ⟨hr, by simp [hreferrer]⟩, ?_⟩
    rw [href, doomedIndex_eq hnd hb]
    simp [Ne.symm hne]

/-- **The collected edges have a cycle exactly when the listed rows do.** -/
theorem acyclic_doomedRefs (hnd : (doomed.map ObjectBrief.storePathHash).Nodup) :
    Acyclic (Kahn.Edge doomed.length (doomedRefs db doomed)) ↔
      Acyclic (db.LinksIn (doomed.map ObjectBrief.storePathHash)) := by
  constructor
  · intro hac
    -- a cycle of hashes is one of positions
    refine hac.comap (fun k => (doomedIndex doomed k).getD 0) ?_
    rintro a b ⟨ha, hb, hne, href⟩
    obtain ⟨ba, hba, rfl⟩ := List.mem_map.mp ha
    obtain ⟨bb, hbb, rfl⟩ := List.mem_map.mp hb
    obtain ⟨i, hi⟩ := List.mem_iff_getElem?.mp hba
    obtain ⟨j, hj⟩ := List.mem_iff_getElem?.mp hbb
    rw [doomedIndex_eq hnd hi, doomedIndex_eq hnd hj]
    refine ⟨(List.getElem?_eq_some_iff.mp hi).1, (List.getElem?_eq_some_iff.mp hj).1,
      (mem_doomedRefs hnd).mpr ⟨?_, ba, bb, hi, hj, href⟩⟩
    rintro rfl
    exact hne (congrArg _ (Option.some.inj (hi.symm.trans hj)))
  · intro hac
    refine hac.comap (fun i => (doomed[i]?.map ObjectBrief.storePathHash).getD "") ?_
    rintro i j ⟨hi, hj, hij⟩
    obtain ⟨hne, a, b, ha, hb, href⟩ := (mem_doomedRefs hnd).mp hij
    rw [ha, hb]
    refine ⟨List.mem_map_of_mem (List.mem_of_getElem? ha),
      List.mem_map_of_mem (List.mem_of_getElem? hb), fun heq => hne ?_, href⟩
    have hab : a.storePathHash = b.storePathHash := heq
    exact Option.some.inj ((doomedIndex_eq hnd ha).symm.trans (hab ▸ doomedIndex_eq hnd hb))

/-- **`referrers_first` succeeds exactly when the listed rows have no cycle.** -/
theorem referrersFirst_ok_iff (hnd : (doomed.map ObjectBrief.storePathHash).Nodup) :
    (∃ order, referrersFirst noFaults db doomed = .ok order) ↔
      Acyclic (db.LinksIn (doomed.map ObjectBrief.storePathHash)) := by
  rw [← acyclic_doomedRefs hnd, ← Kahn.kahn_length_iff doomedRefs_lt]
  have hio : ((List.range (doomed.length + 1)).any noFaults) = false :=
    List.any_eq_false.mpr fun _ _ => by simp [noFaults]
  unfold referrersFirst
  simp only [hio, Bool.false_eq_true, if_false]
  constructor
  · rintro ⟨order, h⟩
    by_contra hlen
    rw [if_neg hlen] at h
    exact absurd h (by simp)
  · intro hlen
    exact ⟨_, if_pos hlen⟩

/-- The order lists every position once. -/
theorem referrersFirst_perm {io : Faults} {order : List ℕ}
    (h : referrersFirst io db doomed = .ok order) : order.Perm (List.range doomed.length) := by
  obtain ⟨rfl, hlen⟩ := referrersFirst_ok h
  have hsub : (Kahn.kahn doomed.length (doomedRefs db doomed)).Subperm
      (List.range doomed.length) :=
    List.subperm_of_subset (Kahn.kahn_nodup doomedRefs_lt)
      fun j hj => List.mem_range.mpr (Kahn.kahn_lt doomedRefs_lt j hj)
  exact hsub.perm_of_length_le (by simp [hlen])

/-- A listed row stands before every other listed row it references. -/
theorem referrersFirst_before {io : Faults} {order pre post : List ℕ} {i j : ℕ}
    {a b : ObjectBrief} (hnd : (doomed.map ObjectBrief.storePathHash).Nodup)
    (h : referrersFirst io db doomed = .ok order) (hsplit : order = pre ++ j :: post)
    (ha : doomed[i]? = some a) (hb : doomed[j]? = some b) (hij : i ≠ j)
    (href : db.References a.storePathHash b.storePathHash) : i ∈ pre := by
  obtain ⟨rfl, -⟩ := referrersFirst_ok h
  exact Kahn.kahn_topo doomedRefs_lt hsplit (List.getElem?_eq_some_iff.mp ha).1
    ((mem_doomedRefs hnd).mpr ⟨hij, a, b, ha, hb, href⟩)

/-! ## The deletes -/

/-- A transaction without a failing statement commits its batch. -/
theorem deletePrunedBatch_noFaults (db : Db) (batch : List ObjectBrief) :
    deletePrunedBatch noFaults batch db = (.ok (), db.pruned batch) := by
  have hst : statements noFaults 1 batch.length = .ok () := by
    unfold statements
    rw [if_neg]
    simp [noFaults]
  unfold deletePrunedBatch transaction
  simp [statement, hst, noFaults, bind, Except.bind, pure, Except.pure, Db.pruned]

/-- **The batches remove what they list**, however many there are. -/
theorem deleteBatches_noFaults : ∀ (batches : List (List ObjectBrief)) (k : ℕ) (db : Db),
    ∃ db', deleteBatches (fun _ => noFaults) k batches db = (.ok (), db') ∧
      db.Without (batches.flatten.map ObjectBrief.storePathHash) db'
  | [], _, db => ⟨db, rfl, Db.Without.nil db⟩
  | batch :: rest, k, db => by
    obtain ⟨db', hdel, hw⟩ := deleteBatches_noFaults rest (k + 1) (db.pruned batch)
    refine ⟨db', ?_, ?_⟩
    · rw [deleteBatches, deletePrunedBatch_noFaults]
      exact hdel
    · rw [List.flatten_cons, List.map_append]
      exact hw.batch

/-- **Prune's delete order is Kahn's, in full.** It is found exactly when the listed rows have no
reference cycle; it lists every row once, referrers first, and no counter underflows on the way.
Without it nothing is deleted; with it the listed rows go, and nothing else. -/
theorem deletePruned_spec (db : Db) (doomed : List ObjectBrief)
    (hnd : (doomed.map ObjectBrief.storePathHash).Nodup) :
    ((∃ order, referrersFirst noFaults db doomed = .ok order) ↔
      Acyclic (db.LinksIn (doomed.map ObjectBrief.storePathHash))) ∧
    NoUnderflow doomed.length (doomedRefs db doomed) ∧
    (∀ order, referrersFirst noFaults db doomed = .ok order →
      order.Perm (List.range doomed.length) ∧
      (∀ pre j post i a b, order = pre ++ j :: post → doomed[i]? = some a → doomed[j]? = some b →
        i ≠ j → db.References a.storePathHash b.storePathHash → i ∈ pre) ∧
      ∃ db', deletePruned noFaults (fun _ => noFaults) doomed db = (.ok (), db') ∧
        db.Without (doomed.map ObjectBrief.storePathHash) db') ∧
    (∀ io ios e, referrersFirst io db doomed = .error e →
      deletePruned io ios doomed db = (.error e, db)) := by
  refine ⟨referrersFirst_ok_iff hnd, noUnderflow doomedRefs_lt, fun order h => ?_, ?_⟩
  · refine ⟨referrersFirst_perm h, fun pre j post i a b hs ha hb hij href =>
      referrersFirst_before hnd h hs ha hb hij href, ?_⟩
    obtain ⟨db', hdel, hw⟩ := deleteBatches_noFaults (pruneBatches doomed order) 0 db
    refine ⟨db', by rw [deletePruned, h]; exact hdel, hw.congr fun k => ?_⟩
    rw [pruneBatches_flatten, List.mem_map, List.mem_map]
    refine exists_congr fun b => and_congr_left fun _ => ⟨fun hb => ?_, mem_pruneBatches h⟩
    obtain ⟨i, -, hi⟩ := List.mem_filterMap.mp hb
    exact List.mem_of_getElem? hi
  · intro io ios e h
    rw [deletePruned, h]

/-- The chain, listed in the wrong order. -/
theorem deletePruned_spec_chain :
    ∃ order db', referrersFirst noFaults Chain.db Chain.listed = .ok order ∧ order = [1, 0] ∧
      Chain.db.Without ["b", "a"] db' := by
  have hspec := deletePruned_spec Chain.db Chain.listed (by decide)
  obtain ⟨order, horder⟩ := hspec.1.mpr (Acyclic.of_rank (fun x => if x = "a" then 0 else 1)
    fun x y h => Chain.rank h.2.2.1 h.2.2.2)
  obtain ⟨-, -, db', -, hw⟩ := hspec.2.2.1 order horder
  refine ⟨order, db', horder, ?_, hw⟩
  have hval : (referrersFirst noFaults Chain.db Chain.listed).toOption = some [1, 0] := by
    decide +kernel
  rw [horder] at hval
  exact Option.some.inj hval

end Garret
