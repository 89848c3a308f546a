import Garret.Db.Tree
import Garret.Lib.Graph
import Garret.Lib.Keyset
import Garret.Lib.Utf8

/-!
# What a dependency tree shows

* `truncated_expanded_iff`: a truncated node is expanded elsewhere in its tree, unless the walk cuts
  an object with references off at the depth limit and meets it again.
* `tree_spans`: with a depth limit of at least the number of objects the tree spans what the root
  reaches, each hash expanded once.
-/

namespace Garret.Browse

open Garret.Lib

variable {io : Faults} {db : Db} {hash : String} {depth : ℕ} {t : TreeNode}

/-! ## The nodes of a tree -/

theorem mem_nodes {n : TreeNode} : n ∈ nodes t ↔ ∃ k, (n, k) ∈ places depth t := by
  rw [nodes, map_fst_places 0 depth t, List.mem_map]
  constructor
  · rintro ⟨⟨m, k⟩, h, rfl⟩
    exact ⟨k, h⟩
  · rintro ⟨k, h⟩
    exact ⟨(n, k), h, rfl⟩

/-- Every node is one the query described. -/
theorem tree_placed (h : tree io db hash depth = .ok (some t)) :
    ∀ p ∈ places depth t, Expands.Placed db p := by
  obtain ⟨name, hname, hexp⟩ := tree_expands h
  have hsound : ∀ e ∈ [(⟨name, hash, false⟩ : Edge)], e.Sound db := by
    intro e he
    obtain rfl := List.mem_singleton.mp he
    obtain ⟨row, hrow, -⟩ := Option.map_eq_some_iff.mp hname
    simp [Edge.Sound, hrow]
  intro p hp
  refine hexp.placed hsound p ?_
  simpa [placesAll] using hp

/-- **The nodes of a tree are the meetings of a depth-first walk from its root.** -/
theorem tree_walks (h : tree io db hash depth = .ok (some t)) :
    Walks (successors db) depth [hash] ∅ ((places depth t).map meeting) := by
  obtain ⟨name, -, hexp⟩ := tree_expands h
  have hw := hexp.walks
  rwa [placesAll, placesAll, List.append_nil] at hw

theorem tree_meetings (h : tree io db hash depth = .ok (some t)) :
    (places depth t).map meeting = walkFrom (successors db) depth hash :=
  (tree_walks h).unique (walks_walkFrom _ depth hash)

/-- A node met for the first time. -/
theorem exists_first (h : tree io db hash depth = .ok (some t)) {n : TreeNode} {k : ℕ}
    (hn : (n, k) ∈ places depth t) :
    ∃ m j, (m, j) ∈ places depth t ∧ m.hash = n.hash ∧ m.truncated = false := by
  have hmeet : meeting (n, k) ∈ (places depth t).map meeting := List.mem_map_of_mem hn
  have hfirst := ((tree_walks h).mem_firsts_of_met _ hmeet).resolve_left (Set.notMem_empty _)
  obtain ⟨m', hm', hagain, hnode⟩ := mem_firsts.mp hfirst
  obtain ⟨⟨m, j⟩, hm, rfl⟩ := List.mem_map.mp hm'
  exact ⟨m, j, hm, hnode, hagain⟩

/-- There is one of each hash. -/
theorem first_unique (h : tree io db hash depth = .ok (some t)) {a b : TreeNode} {i j : ℕ}
    (ha : (a, i) ∈ places depth t) (hb : (b, j) ∈ places depth t) (hab : a.hash = b.hash)
    (hfa : a.truncated = false) (hfb : b.truncated = false) : (a, i) = (b, j) := by
  have hnd := (tree_walks h).firsts_nodup
  rw [firsts, List.filter_map, List.map_map] at hnd
  have hmem : ∀ {n : TreeNode} {k : ℕ}, (n, k) ∈ places depth t → n.truncated = false →
      (n, k) ∈ (places depth t).filter ((fun m => !m.again) ∘ meeting) := by
    intro n k hn hf
    exact List.mem_filter.mpr ⟨hn, by simp [meeting, hf]⟩
  exact List.inj_on_of_nodup_map hnd (hmem ha hfa) (hmem hb hfb) hab

/-! ## Truncated nodes -/

/-- What `truncated` is documented to mean: the object is expanded elsewhere in the tree. -/
def TruncatedExpanded (db : Db) (t : TreeNode) : Prop :=
  ∀ n ∈ nodes t, n.missing = false → n.truncated = true →
    ∃ m ∈ nodes t, m.hash = n.hash ∧ m.truncated = false ∧
      ∀ r ∈ db.objectRefs, r.referrer = n.hash → r.referenceHash ≠ n.hash →
        ∃ c ∈ m.children, c.name = r.reference

/-- The walk from a root meets an object that has references for the first time where no level is
left, and meets it again. -/
def CutAndMetAgain (db : Db) (hash : String) (depth : ℕ) : Prop :=
  ∃ m ∈ walkFrom (successors db) depth hash, m.again = false ∧ m.left = 0 ∧
    successors db m.node ≠ [] ∧
    ∃ m' ∈ walkFrom (successors db) depth hash, m'.again = true ∧ m'.node = m.node

instance (db : Db) (hash : String) (depth : ℕ) : Decidable (CutAndMetAgain db hash depth) :=
  inferInstanceAs (Decidable (∃ m ∈ walkFrom (successors db) depth hash, _))

theorem mem_successors {h k : String} : k ∈ successors db h ↔
    ∃ r ∈ db.objectRefs, r.referrer = h ∧ r.referenceHash ≠ h ∧ r.referenceHash = k := by
  rw [successors, List.mem_map]
  constructor
  · rintro ⟨e, he, rfl⟩
    obtain ⟨r, hr, href, hne, rfl⟩ := mem_childEdges.mp he
    exact ⟨r, hr, href, hne, rfl⟩
  · rintro ⟨r, hr, href, hne, rfl⟩
    exact ⟨_, mem_childEdges.mpr ⟨r, hr, href, hne, rfl⟩, rfl⟩

/-- A node with its edges below it lists every reference of its object. -/
theorem lists_references {m : TreeNode} (hm : m.children.map TreeNode.edge = childEdges db m.hash) :
    ∀ r ∈ db.objectRefs, r.referrer = m.hash → r.referenceHash ≠ m.hash →
      ∃ c ∈ m.children, c.name = r.reference := by
  intro r hr href hne
  have hedge := mem_childEdges.mpr ⟨r, hr, href, hne, rfl⟩
  rw [← hm] at hedge
  obtain ⟨c, hc, heq⟩ := List.mem_map.mp hedge
  exact ⟨c, hc, congrArg Edge.reference heq⟩

/-- Where the walk cuts off nothing that it meets again, what is truncated is expanded elsewhere. -/
theorem truncatedExpanded_of_uncut (h : tree io db hash depth = .ok (some t))
    (hcut : ¬ CutAndMetAgain db hash depth) : TruncatedExpanded db t := by
  intro n hn _ htr
  obtain ⟨k, hk⟩ := mem_nodes.mp hn
  obtain ⟨m, j, hm, hhash, hf⟩ := exists_first h hk
  refine ⟨m, mem_nodes.mpr ⟨j, hm⟩, hhash, hf, ?_⟩
  rw [← hhash]
  cases j with
  | zero =>
    -- no level was left, so there is nothing to list
    have hnone : successors db m.hash = [] := by
      by_contra hne
      refine hcut ⟨meeting (m, 0), ?_, hf, rfl, hne, meeting (n, k), ?_, htr, hhash.symm⟩
      · rw [← tree_meetings h]
        exact List.mem_map_of_mem hm
      · rw [← tree_meetings h]
        exact List.mem_map_of_mem hk
    intro r hr href hne
    have hmem : r.referenceHash ∈ successors db m.hash := mem_successors.mpr ⟨r, hr, href, hne, rfl⟩
    rw [hnone] at hmem
    exact absurd hmem List.not_mem_nil
  | succ j => exact lists_references ((tree_placed h _ hm).expanded hf (Nat.succ_pos j))

/-- What the walk cuts off and meets again is truncated and expanded nowhere. -/
theorem not_truncatedExpanded_of_cut (h : tree io db hash depth = .ok (some t))
    (hcut : CutAndMetAgain db hash depth) : ¬ TruncatedExpanded db t := by
  intro hexp
  obtain ⟨m₁, hm₁, hf, hleft, hne, m₂, hm₂, hagain, hnode⟩ := hcut
  rw [← tree_meetings h] at hm₁ hm₂
  obtain ⟨⟨m, j⟩, hm, rfl⟩ := List.mem_map.mp hm₁
  obtain ⟨⟨n, k⟩, hn, rfl⟩ := List.mem_map.mp hm₂
  obtain ⟨y, hy⟩ := List.exists_mem_of_ne_nil _ hne
  obtain ⟨r, hr, href, hother, -⟩ := mem_successors.mp hy
  -- an object with references has a row
  have hrow : n.missing = false := by
    obtain ⟨row, hrow⟩ := Db.mem_objects_iff.mp (db.refs_fk r hr)
    have hn' := (tree_placed h _ hn).missing
    have hnm : n.hash = m.hash := hnode
    have href' : r.referrer = m.hash := href
    rw [hnm, ← href', hrow] at hn'
    exact hn'
  obtain ⟨x, hx, hxhash, hxf, hlists⟩ := hexp n (mem_nodes.mpr ⟨k, hn⟩) hrow hagain
  obtain ⟨i, hi⟩ := mem_nodes.mp hx
  have hsame := first_unique h hi hm (hxhash.trans hnode) hxf hf
  obtain ⟨rfl, rfl⟩ := Prod.mk.inj hsame
  have hnone := (tree_placed h _ hm).cut hleft
  have href' : r.referrer = n.hash := href.trans hxhash
  have hother' : r.referenceHash ≠ n.hash := hxhash ▸ hother
  obtain ⟨c, hc, -⟩ := hlists r hr href' hother'
  have hc' : c ∈ ([] : List TreeNode) := hnone ▸ hc
  exact absurd hc' List.not_mem_nil

/-- **A truncated node is expanded elsewhere, unless its object was cut off at the depth limit.** -/
theorem truncated_expanded_iff (h : tree io db hash depth = .ok (some t)) :
    TruncatedExpanded db t ↔ ¬ CutAndMetAgain db hash depth := by
  constructor
  · exact fun hexp hcut => not_truncatedExpanded_of_cut h hcut hexp
  · exact truncatedExpanded_of_uncut h

namespace Sample

/-- The hash the tests write `h(c)`. -/
def h (c : Char) : String := String.ofList (List.replicate 32 c)

/-- A reference to the object of that hash. -/
def ref (c : Char) : String := String.ofList (List.replicate 32 c ++ ['-', c])

/-- Its row. -/
def row (c : Char) : Row where
  storePath := "/nix/store/" ++ ref c
  name := String.singleton c
  narHash := "sha256:x"
  narSize := 10
  fileHash := "sha256:y"
  fileSize := 5
  deriver := none
  ca := none
  sigs := []
  pushedBy := none
  createdAt := 100
  lastAccessedAt := 100
  pushedAt := 100

/-- `a` refers to `b` and to `c`, `b` to `c`, and `c` to `d`, which is not in the cache. -/
def cutDb : Db where
  objects := ((∅ : Table String Row).insert (h 'c') (row 'c') |>.insert (h 'b') (row 'b')).insert
    (h 'a') (row 'a')
  objectRefs := [⟨h 'a', ref 'b'⟩, ⟨h 'a', ref 'c'⟩, ⟨h 'b', ref 'c'⟩, ⟨h 'c', ref 'd'⟩]
  pins := ∅
  totalBytes := 15
  refs_nodup := by decide +kernel
  refs_fk := by decide +kernel
  pins_fk := by simp

end Sample

/-- Two levels deep, `c` is met below `b` where no level is left, and again below `a`: it is
truncated there, and its reference to `d` is shown nowhere. -/
theorem truncated_not_expanded : ¬ ∀ (db : Db) (hash : String) (depth : ℕ) (t : TreeNode),
    tree noFaults db hash depth = .ok (some t) → TruncatedExpanded db t := by
  intro h
  have hrow : Sample.cutDb.row? (Sample.h 'a') = some (Sample.row 'a') := by decide +kernel
  obtain ⟨t, ht⟩ := tree_total ⟨_, hrow⟩ 2
  have hcut : CutAndMetAgain Sample.cutDb (Sample.h 'a') 2 := by decide +kernel
  exact not_truncatedExpanded_of_cut ht hcut (h _ _ _ t ht)

/-- With one level more nothing is cut off. -/
theorem truncated_expanded_iff_deeper : ∃ t, tree noFaults Sample.cutDb (Sample.h 'a') 3 =
    .ok (some t) ∧ TruncatedExpanded Sample.cutDb t := by
  have hrow : Sample.cutDb.row? (Sample.h 'a') = some (Sample.row 'a') := by decide +kernel
  obtain ⟨t, ht⟩ := tree_total ⟨_, hrow⟩ 3
  have hcut : ¬ CutAndMetAgain Sample.cutDb (Sample.h 'a') 3 := by decide +kernel
  exact ⟨t, ht, (truncated_expanded_iff ht).mpr hcut⟩

/-! ## The tree as an expansion of what the root reaches -/

/-- The tree spans what its root reaches, each hash expanded once. -/
structure Spans (db : Db) (root : String) (t : TreeNode) : Prop where
  /-- The hashes in the tree are those the root reaches through references of objects. -/
  hashes : ∀ h, (∃ n ∈ nodes t, n.hash = h) ↔ Reaches db.edges [root] h
  /-- Each of them occurs once untruncated. -/
  once : ∀ h, (∃ n ∈ nodes t, n.hash = h) →
    ((nodes t).filter fun n => n.hash == h && !n.truncated).length = 1
  missing : ∀ n ∈ nodes t, n.missing = true ↔ db.row? n.hash = none
  /-- An untruncated object's children are its references with another hash than its own. -/
  references : ∀ n ∈ nodes t, n.truncated = false → n.missing = false →
    ∀ r, r ∈ n.children.map TreeNode.name ↔
      (⟨n.hash, r⟩ : ObjectRef) ∈ db.objectRefs ∧ (⟨n.hash, r⟩ : ObjectRef).referenceHash ≠ n.hash
  /-- They stand in byte order, and each has the hash of its reference. -/
  sorted : ∀ n ∈ nodes t,
    (n.children.map TreeNode.name).Pairwise fun a b => utf8 a.toList < utf8 b.toList
  child_hash : ∀ n ∈ nodes t, ∀ c ∈ n.children,
    c.hash = (⟨n.hash, c.name⟩ : ObjectRef).referenceHash
  leaf : ∀ n ∈ nodes t, n.truncated = true ∨ n.missing = true → n.children = []

/-- The references of an object come in byte order. -/
theorem childEdges_sorted (db : Db) (h : String) :
    ((childEdges db h).map Edge.reference).Pairwise fun a b => utf8 a.toList < utf8 b.toList := by
  let rows := db.objectRefs.filter fun r => r.referrer == h && r.referenceHash != h
  have hrefs : (childEdges db h).map Edge.reference =
      (rows.insertionSort fun a b => a.reference ≤ b.reference).map ObjectRef.reference := by
    rw [childEdges, List.map_map]
    rfl
  have hnd : (rows.map ObjectRef.reference).Nodup := by
    refine List.Nodup.map_on ?_ (db.refs_nodup.filter _)
    rintro ⟨a, x⟩ ha ⟨b, y⟩ hb hxy
    have hah := (List.mem_filter.mp ha).2
    have hbh := (List.mem_filter.mp hb).2
    simp only [Bool.and_eq_true, beq_iff_eq] at hah hbh
    obtain ⟨rfl, -⟩ := hah
    obtain ⟨rfl, -⟩ := hbh
    simp only at hxy
    rw [hxy]
  rw [hrefs]
  refine (pairwise_lt_sorted ObjectRef.reference (fun _ _ => Iff.rfl) hnd).imp fun {a b} hab => ?_
  exact utf8_lt (String.lt_iff_toList_lt.mp hab)

/-- The hashes that have an object are no more than the rows. -/
theorem ncard_rows_le (db : Db) :
    {h | ∃ row, db.row? h = some row}.Finite ∧
      {h | ∃ row, db.row? h = some row}.ncard ≤ db.objects.entries.length := by
  have hkeys : {h | ∃ row, db.row? h = some row} = (db.objects.keys.toFinset : Set String) := by
    ext h
    rw [List.coe_toFinset]
    exact Db.mem_objects_iff.symm
  rw [hkeys, Set.ncard_coe_finset]
  refine ⟨Finset.finite_toSet _, (List.toFinset_card_le _).trans ?_⟩
  rw [AList.keys, List.keys, List.length_map]

/-- With as many levels as rows, every object that is met has a level left where it is first met. -/
theorem left_pos (h : tree io db hash depth = .ok (some t))
    (hdepth : db.objects.entries.length ≤ depth) {n : TreeNode} {k : ℕ}
    (hn : (n, k) ∈ places depth t) (hf : n.truncated = false) (hrow : n.missing = false) :
    0 < k := by
  obtain ⟨hfin, hcard⟩ := ncard_rows_le db
  have hU : ∀ x, successors db x ≠ [] → x ∈ {h | ∃ row, db.row? h = some row} := by
    intro x hx
    obtain ⟨y, hy⟩ := List.exists_mem_of_ne_nil _ hx
    obtain ⟨r, hr, rfl, -, -⟩ := mem_successors.mp hy
    exact Db.mem_objects_iff.mp (db.refs_fk r hr)
  have hlevels : ({h | ∃ row, db.row? h = some row} \ (∅ : Set String)).ncard ≤ depth := by
    rw [Set.sdiff_empty]
    exact hcard.trans hdepth
  refine (tree_walks h).left_pos hU hfin hlevels (meeting (n, k)) (List.mem_map_of_mem hn) hf ?_
  have hmissing := (tree_placed h _ hn).missing
  cases hlook : db.row? n.hash with
  | none =>
    simp only [hlook] at hmissing
    rw [hrow] at hmissing
    exact absurd hmissing (by decide)
  | some row => exact ⟨row, hlook⟩

/-- What the root reaches, self-references aside, is what it reaches. -/
theorem reaches_iff {root x : String} : Reaches db.edges [root] x ↔
    Relation.ReflTransGen (fun a b => b ∈ successors db a) root x := by
  have hedge : ∀ a b, (a, b) ∈ db.edges ↔
      ∃ r ∈ db.objectRefs, r.referrer = a ∧ r.referenceHash = b := by
    intro a b
    simp [Db.edges]
  constructor
  · rintro ⟨r, hr, hpath⟩
    obtain rfl := List.mem_singleton.mp hr
    induction hpath with
    | refl => exact Relation.ReflTransGen.refl
    | @tail a b _ hab ih =>
      obtain ⟨r, hr, href, hhash⟩ := (hedge a b).mp hab
      by_cases hself : b = a
      · exact hself ▸ ih
      · exact ih.tail (mem_successors.mpr ⟨r, hr, href, fun h => hself (hhash ▸ h), hhash⟩)
  · intro hpath
    refine ⟨root, List.mem_singleton_self root,
      Relation.ReflTransGen.mono (fun a b hab => ?_) _ _ hpath⟩
    obtain ⟨r, hr, href, -, hhash⟩ := mem_successors.mp hab
    exact (hedge a b).mpr ⟨r, hr, href, hhash⟩

/-- The tree holds what the root reaches. -/
theorem hashes_iff (h : tree io db hash depth = .ok (some t))
    (hdepth : db.objects.entries.length ≤ depth) (x : String) :
    (∃ n ∈ nodes t, n.hash = x) ↔ Reaches db.edges [hash] x := by
  have hmet : ∀ {x}, (∃ n ∈ nodes t, n.hash = x) ↔ ∃ n k, (n, k) ∈ places depth t ∧ n.hash = x := by
    intro x
    constructor
    · rintro ⟨n, hn, rfl⟩
      obtain ⟨k, hk⟩ := mem_nodes.mp hn
      exact ⟨n, k, hk, rfl⟩
    · rintro ⟨n, k, hk, rfl⟩
      exact ⟨n, mem_nodes.mpr ⟨k, hk⟩, rfl⟩
  rw [hmet, reaches_iff]
  constructor
  · rintro ⟨n, k, hn, rfl⟩
    obtain ⟨c, hc, hpath⟩ := (tree_walks h).reach (meeting (n, k)) (List.mem_map_of_mem hn)
    obtain rfl := List.mem_singleton.mp hc
    exact hpath
  · intro hpath
    induction hpath with
    | refl =>
      obtain ⟨m, hm, hnode⟩ := (tree_walks h).visited hash (List.mem_singleton_self hash)
      obtain ⟨⟨n, k⟩, hn, rfl⟩ := List.mem_map.mp hm
      exact ⟨n, k, hn, hnode⟩
    | @tail a b _ hab ih =>
      -- `a` is met for the first time somewhere, with a level left, so `b` is met below it
      obtain ⟨n, k, hn, rfl⟩ := ih
      obtain ⟨m, j, hm, hmn, hf⟩ := exists_first h hn
      rw [← hmn] at hab
      have hrow : m.missing = false := by
        obtain ⟨r, hr, href, -, -⟩ := mem_successors.mp hab
        obtain ⟨row, hrow⟩ := Db.mem_objects_iff.mp (db.refs_fk r hr)
        have hmissing := (tree_placed h _ hm).missing
        simp only [← href, hrow] at hmissing
        exact hmissing
      have hleft := left_pos h hdepth hm hf hrow
      have hclosed := (tree_walks h).closed (meeting (m, j)) (List.mem_map_of_mem hm) hf hleft b hab
      obtain ⟨m', hm', hnode⟩ := hclosed.resolve_left (Set.notMem_empty b)
      obtain ⟨⟨x, i⟩, hx, rfl⟩ := List.mem_map.mp hm'
      exact ⟨x, i, hx, hnode⟩

/-- Each hash of the tree is untruncated once. -/
theorem once_untruncated (h : tree io db hash depth = .ok (some t)) {x : String}
    (hx : ∃ n ∈ nodes t, n.hash = x) :
    ((nodes t).filter fun n => n.hash == x && !n.truncated).length = 1 := by
  have hcount : (firsts ((places depth t).map meeting)).count x =
      ((nodes t).filter fun n => n.hash == x && !n.truncated).length := by
    rw [nodes, map_fst_places 0 depth t, ← List.countP_eq_length_filter, firsts, List.count,
      List.countP_map, List.countP_filter, List.countP_map, List.countP_map]
    rfl
  obtain ⟨n, hn, rfl⟩ := hx
  obtain ⟨k, hk⟩ := mem_nodes.mp hn
  obtain ⟨m, j, hm, hmn, hf⟩ := exists_first h hk
  rw [← hcount]
  refine List.count_eq_one_of_mem (tree_walks h).firsts_nodup (mem_firsts.mpr ?_)
  exact ⟨meeting (m, j), List.mem_map_of_mem hm, hf, hmn⟩

/-- An untruncated node of an object lists all its references. -/
theorem children_expanded (h : tree io db hash depth = .ok (some t))
    (hdepth : db.objects.entries.length ≤ depth) {n : TreeNode} (hn : n ∈ nodes t)
    (hf : n.truncated = false) (hrow : n.missing = false) :
    n.children.map TreeNode.edge = childEdges db n.hash := by
  obtain ⟨k, hk⟩ := mem_nodes.mp hn
  exact (tree_placed h _ hk).expanded hf (left_pos h hdepth hk hf hrow)

/-- A truncated node, or one without an object, is a leaf. -/
theorem children_leaf (h : tree io db hash depth = .ok (some t)) {n : TreeNode} (hn : n ∈ nodes t)
    (hor : n.truncated = true ∨ n.missing = true) : n.children = [] := by
  obtain ⟨k, hk⟩ := mem_nodes.mp hn
  have hp := tree_placed h _ hk
  rcases hor with htr | hmissing
  · exact hp.truncated htr
  · -- nothing refers from a hash without an object
    have hnone : childEdges db n.hash = [] :=
      childEdges_missing (Option.isNone_iff_eq_none.mp (hp.missing.symm.trans hmissing))
    by_cases htr : n.truncated = true
    · exact hp.truncated htr
    · cases k with
      | zero => exact hp.cut rfl
      | succ k =>
        have hlist := hp.expanded (Bool.eq_false_iff.mpr htr) (Nat.succ_pos k)
        exact List.map_eq_nil_iff.mp (hlist.trans hnone)

/-- A node lists all its references or none. -/
theorem children_cases (h : tree io db hash depth = .ok (some t))
    (hdepth : db.objects.entries.length ≤ depth) {n : TreeNode} (hn : n ∈ nodes t) :
    n.children = [] ∨ n.children.map TreeNode.edge = childEdges db n.hash := by
  by_cases hor : n.truncated = true ∨ n.missing = true
  · exact Or.inl (children_leaf h hn hor)
  · rw [not_or] at hor
    exact Or.inr (children_expanded h hdepth hn (Bool.eq_false_iff.mpr hor.1)
      (Bool.eq_false_iff.mpr hor.2))

theorem map_name_eq (n : TreeNode) :
    n.children.map TreeNode.name = (n.children.map TreeNode.edge).map Edge.reference := by
  rw [List.map_map]
  rfl

/-- **The dependency tree is a spanning expansion**, for a root that has an object and a depth limit
of at least the number of objects. -/
theorem tree_spans (hroot : ∃ row, db.row? hash = some row)
    (hdepth : db.objects.entries.length ≤ depth) :
    (∃ t, tree noFaults db hash depth = .ok (some t)) ∧
      ∀ io t, tree io db hash depth = .ok (some t) → Spans db hash t := by
  refine ⟨tree_total hroot depth, fun io t h => ?_⟩
  refine ⟨hashes_iff h hdepth, fun x hx => once_untruncated h hx, ?_, ?_, ?_, ?_,
    fun n hn => children_leaf h hn⟩
  · intro n hn
    obtain ⟨k, hk⟩ := mem_nodes.mp hn
    rw [(tree_placed h _ hk).missing]
    exact Option.isNone_iff_eq_none
  · intro n hn hf hrow r
    rw [map_name_eq, children_expanded h hdepth hn hf hrow, List.mem_map]
    constructor
    · rintro ⟨e, he, rfl⟩
      obtain ⟨⟨a, b⟩, hr, href, hne, rfl⟩ := mem_childEdges.mp he
      simp only at href
      subst href
      exact ⟨hr, hne⟩
    · rintro ⟨hr, hne⟩
      exact ⟨_, mem_childEdges.mpr ⟨_, hr, rfl, hne, rfl⟩, rfl⟩
  · intro n hn
    rw [map_name_eq]
    rcases children_cases h hdepth hn with hnil | hlist
    · rw [hnil]
      exact List.Pairwise.nil
    · rw [hlist]
      exact childEdges_sorted db n.hash
  · intro n hn c hc
    rcases children_cases h hdepth hn with hnil | hlist
    · exact absurd (hnil ▸ hc) List.not_mem_nil
    · have hmem : c.edge ∈ childEdges db n.hash := hlist ▸ List.mem_map_of_mem hc
      obtain ⟨r, -, -, -, hr⟩ := mem_childEdges.mp hmem
      have hname : r.reference = c.name := congrArg Edge.reference hr
      have hchild : r.referenceHash = c.hash := congrArg Edge.childHash hr
      rw [← hchild, ← hname]
      rfl

theorem tree_spans_sample :
    (∃ t, tree noFaults Sample.cutDb (Sample.h 'a') 3 = .ok (some t)) ∧
      ∀ io t, tree io Sample.cutDb (Sample.h 'a') 3 = .ok (some t) →
        Spans Sample.cutDb (Sample.h 'a') t :=
  tree_spans ⟨Sample.row 'a', by decide +kernel⟩ (by decide +kernel)

end Garret.Browse
