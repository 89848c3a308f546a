import Garret.Db.Browse
import Garret.Lib.Dfs

/-!
# Browsing: the dependency tree

Model of `tree` and `children_of` of `crates/garret-server/src/browse.rs` and of `TreeNode` of
`crates/garret-common/src/wire.rs`.

* `seen` is the `HashSet` the recursion threads; only membership in it is read, so it is a list.
  `seen.insert` answers whether the hash is new.
* The statements of one call are numbered in the order they run; one that fails ends the call with
  its error.
* `Expands` says what the recursion makes of a node's edges, its first reader aside: which nodes
  come out when some hashes have been seen, with so many levels left (`childrenOf_expands`). Its
  meetings are those of a depth-first walk (`Expands.walks`).
-/

namespace Garret.Browse

open Garret.Lib

/-- `TreeNode`. -/
inductive TreeNode where
  | node (hash name : String) (missing truncated : Bool) (children : List TreeNode)
  deriving Repr

namespace TreeNode

/-- `hash`. -/
def hash : TreeNode → String
  | node hash _ _ _ _ => hash

/-- `name`: the reference, or the object's name at the root. -/
def name : TreeNode → String
  | node _ name _ _ _ => name

/-- `missing`: absent from the cache. -/
def missing : TreeNode → Bool
  | node _ _ missing _ _ => missing

/-- `truncated`: already expanded elsewhere in the tree. -/
def truncated : TreeNode → Bool
  | node _ _ _ truncated _ => truncated

/-- `children`. -/
def children : TreeNode → List TreeNode
  | node _ _ _ _ children => children

end TreeNode

/-- A row of `CHILDREN`: a reference, its hash, and whether no object has it. -/
structure Edge where
  reference : String
  childHash : String
  missing : Bool
  deriving DecidableEq, Repr

/-- `CHILDREN`: the references of `hash` with another hash than its own, by reference. -/
def childEdges (db : Db) (hash : String) : List Edge :=
  let rows := db.objectRefs.filter fun r => r.referrer == hash && r.referenceHash != hash
  (rows.insertionSort fun a b => a.reference ≤ b.reference).map fun r =>
    ⟨r.reference, r.referenceHash, (db.row? r.referenceHash).isNone⟩

/-- What the recursion threads: the hashes seen, and how many statements have run. -/
structure TreeWalk where
  seen : List String
  statements : ℕ

/-- The loop over a node's edges; `expand` is the recursive call. -/
def expandEdges (expand : String → TreeWalk → Except DbError (List TreeNode × TreeWalk)) :
    List Edge → TreeWalk → Except DbError (List TreeNode × TreeWalk)
  | [], w => .ok ([], w)
  | e :: es, w => do
    let truncated := w.seen.contains e.childHash
    let seen := if truncated then w.seen else e.childHash :: w.seen
    let w := { w with seen := seen }
    let (children, w) ← (if truncated || e.missing then .ok ([], w) else expand e.childHash w)
    let (rest, w) ← expandEdges expand es w
    return (.node e.childHash e.reference e.missing truncated children :: rest, w)

/-- `children_of`. -/
def childrenOf (io : Faults) (db : Db) :
    ℕ → String → TreeWalk → Except DbError (List TreeNode × TreeWalk)
  | 0, _, w => .ok ([], w)
  | depth + 1, hash, w => do
    statement io w.statements
    expandEdges (childrenOf io db depth) (childEdges db hash)
      { w with statements := w.statements + 1 }

/-- `tree`. -/
def tree (io : Faults) (db : Db) (hash : String) (depthLimit : ℕ) :
    Except DbError (Option TreeNode) := do
  statement io 0
  match (db.row? hash).map Row.name with
  | none => return none
  | some name => do
    let (children, _) ← childrenOf io db depthLimit hash ⟨[hash], 1⟩
    return some (.node hash name false false children)

/-! ## The nodes of a tree -/

mutual

/-- The nodes of a tree in order, each with the levels left below it. -/
def places (left : ℕ) : TreeNode → List (TreeNode × ℕ)
  | .node hash name missing truncated children =>
    (.node hash name missing truncated children, left) :: placesAll (left - 1) children

def placesAll (left : ℕ) : List TreeNode → List (TreeNode × ℕ)
  | [] => []
  | t :: ts => places left t ++ placesAll left ts

end

/-- The nodes of a tree, the root first. -/
def nodes (t : TreeNode) : List TreeNode := (places 0 t).map Prod.fst

/-- A node as the walk meets it. -/
def meeting (p : TreeNode × ℕ) : Meeting String := ⟨p.1.hash, p.2, p.1.truncated⟩

/-- The successors of a hash: those of its references that are not its own. -/
def successors (db : Db) (hash : String) : List String := (childEdges db hash).map Edge.childHash

/-- The hashes among some nodes. -/
def hashesOf (left : ℕ) (ts : List TreeNode) : Set String := met ((placesAll left ts).map meeting)

/-- The edge a node stands for. -/
def TreeNode.edge (t : TreeNode) : Edge := ⟨t.name, t.hash, t.missing⟩

/-! ## What the recursion makes of edges -/

/-- The nodes of some edges, each with `left` levels below it, after the hashes of `S` have been
seen. -/
inductive Expands (db : Db) : ℕ → List Edge → Set String → List TreeNode → Prop
  | nil (left : ℕ) (S : Set String) : Expands db left [] S []
  | again {left : ℕ} {e : Edge} {es : List Edge} {S : Set String} {ts : List TreeNode}
      (he : e.childHash ∈ S) (rest : Expands db left es S ts) :
      Expands db left (e :: es) S (.node e.childHash e.reference e.missing true [] :: ts)
  | cut {e : Edge} {es : List Edge} {S : Set String} {ts : List TreeNode}
      (he : e.childHash ∉ S) (rest : Expands db 0 es (insert e.childHash S) ts) :
      Expands db 0 (e :: es) S (.node e.childHash e.reference e.missing false [] :: ts)
  | fresh {left : ℕ} {e : Edge} {es : List Edge} {S : Set String} {cs ts : List TreeNode}
      (he : e.childHash ∉ S)
      (below : Expands db left (childEdges db e.childHash) (insert e.childHash S) cs)
      (rest : Expands db (left + 1) es (hashesOf left cs ∪ insert e.childHash S) ts) :
      Expands db (left + 1) (e :: es) S (.node e.childHash e.reference e.missing false cs :: ts)

theorem mem_childEdges {db : Db} {hash : String} {e : Edge} :
    e ∈ childEdges db hash ↔ ∃ r ∈ db.objectRefs, r.referrer = hash ∧ r.referenceHash ≠ hash ∧
      ⟨r.reference, r.referenceHash, (db.row? r.referenceHash).isNone⟩ = e := by
  simp [childEdges, and_assoc]

/-- A hash without an object has no edges. -/
theorem childEdges_missing {db : Db} {hash : String} (h : db.row? hash = none) :
    childEdges db hash = [] := by
  refine List.eq_nil_iff_forall_not_mem.mpr fun e he => ?_
  obtain ⟨r, hr, rfl, -⟩ := mem_childEdges.mp he
  obtain ⟨row, hrow⟩ := Db.mem_objects_iff.mp (db.refs_fk r hr)
  rw [h] at hrow
  exact absurd hrow (by simp)

/-- The mark of an edge says whether its hash has an object. -/
def Edge.Sound (db : Db) (e : Edge) : Prop := e.missing = (db.row? e.childHash).isNone

theorem childEdges_sound (db : Db) (hash : String) : ∀ e ∈ childEdges db hash, e.Sound db := by
  intro e he
  obtain ⟨r, -, -, -, rfl⟩ := mem_childEdges.mp he
  rfl

@[simp] theorem hashesOf_nil (left : ℕ) : hashesOf left [] = ∅ := by simp [hashesOf, placesAll]

@[simp] theorem hashesOf_cons (left : ℕ) (hash name : String) (missing truncated : Bool)
    (cs ts : List TreeNode) : hashesOf left (.node hash name missing truncated cs :: ts) =
      insert hash (hashesOf (left - 1) cs ∪ hashesOf left ts) := by
  simp [hashesOf, placesAll, places, meeting, TreeNode.hash]

/-- What is below an edge to a hash met for the first time, also where its object is missing. -/
theorem below_expands {io : Faults} {db : Db} {left : ℕ} {e : Edge} {S : Set String}
    {w w₁ : TreeWalk} {cs : List TreeNode}
    (ih : ∀ k, left = k + 1 → ∀ hash w cs w', childrenOf io db left hash w = .ok (cs, w') →
      Expands db k (childEdges db hash) {x | x ∈ w.seen} cs ∧
        {x | x ∈ w'.seen} = hashesOf k cs ∪ {x | x ∈ w.seen})
    (he : e.Sound db) (hS : {x | x ∈ w.seen} = insert e.childHash S)
    (h : (if e.missing then .ok ([], w) else childrenOf io db left e.childHash w) = .ok (cs, w₁)) :
    (left = 0 → cs = []) ∧
      (∀ k, left = k + 1 → Expands db k (childEdges db e.childHash) (insert e.childHash S) cs) ∧
      {x | x ∈ w₁.seen} = hashesOf (left - 1) cs ∪ insert e.childHash S := by
  split at h
  · rename_i hmissing
    obtain ⟨rfl, rfl⟩ := Prod.mk.inj (Except.ok.inj h)
    have hnone : childEdges db e.childHash = [] := by
      refine childEdges_missing ?_
      rw [Edge.Sound, hmissing] at he
      exact Option.isNone_iff_eq_none.mp he.symm
    refine ⟨fun _ => rfl, fun k _ => ?_, by rw [hashesOf_nil, Set.empty_union, hS]⟩
    rw [hnone]
    exact Expands.nil k _
  · cases left with
    | zero =>
      obtain ⟨rfl, rfl⟩ := Prod.mk.inj (Except.ok.inj h)
      exact ⟨fun _ => rfl, fun k hk => absurd hk (by omega),
        by rw [hashesOf_nil, Set.empty_union, hS]⟩
    | succ k =>
      obtain ⟨hexp, hset⟩ := ih k rfl _ _ _ _ h
      rw [hS] at hexp hset
      refine ⟨fun h => absurd h (by omega), fun j hj => ?_, hset⟩
      obtain rfl : k = j := by omega
      exact hexp

/-- **What the loop over the edges returns.** -/
theorem expandEdges_expands {io : Faults} {db : Db} {left : ℕ}
    (ih : ∀ k, left = k + 1 → ∀ hash w cs w', childrenOf io db left hash w = .ok (cs, w') →
      Expands db k (childEdges db hash) {x | x ∈ w.seen} cs ∧
        {x | x ∈ w'.seen} = hashesOf k cs ∪ {x | x ∈ w.seen}) :
    ∀ {es : List Edge} {w w' : TreeWalk} {ts : List TreeNode}, (∀ e ∈ es, e.Sound db) →
      expandEdges (childrenOf io db left) es w = .ok (ts, w') →
      Expands db left es {x | x ∈ w.seen} ts ∧
        {x | x ∈ w'.seen} = hashesOf left ts ∪ {x | x ∈ w.seen}
  | [], w, w', ts, _, h => by
    obtain ⟨rfl, rfl⟩ := Prod.mk.inj (Except.ok.inj h)
    exact ⟨Expands.nil left _, by simp⟩
  | e :: es, w, w', ts, hes, h => by
    have hes' : ∀ e ∈ es, e.Sound db := fun x hx => hes x (List.mem_cons_of_mem _ hx)
    obtain ⟨⟨cs, w₁⟩, hbelow, h⟩ := bind_eq_ok.mp h
    obtain ⟨⟨rest, w₂⟩, hrest, h⟩ := bind_eq_ok.mp h
    obtain ⟨rfl, rfl⟩ := Prod.mk.inj (Except.ok.inj h)
    obtain ⟨hx, hseen⟩ := expandEdges_expands ih hes' hrest
    by_cases hmem : e.childHash ∈ w.seen
    · -- met before: nothing below it
      have htrue : w.seen.contains e.childHash = true := List.contains_iff_mem.mpr hmem
      simp only [htrue, if_true, Bool.true_or, Except.ok.injEq, Prod.mk.injEq] at hbelow ⊢
      obtain ⟨rfl, rfl⟩ := hbelow
      refine ⟨Expands.again hmem hx, ?_⟩
      have hin : e.childHash ∈ hashesOf left rest ∪ {x | x ∈ w.seen} := Or.inr hmem
      rw [hashesOf_cons, hashesOf_nil, Set.empty_union, Set.insert_union, Set.insert_eq_of_mem hin]
      exact hseen
    · have hfalse : w.seen.contains e.childHash = false :=
        Bool.eq_false_iff.mpr fun h => hmem (List.contains_iff_mem.mp h)
      simp only [hfalse, Bool.false_eq_true, if_false, Bool.false_or] at hbelow ⊢
      have hinsert : {x | x ∈ e.childHash :: w.seen} = insert e.childHash {x | x ∈ w.seen} := by
        ext x
        simp
      obtain ⟨hzero, hsucc, hset⟩ := below_expands ih (hes e List.mem_cons_self) hinsert hbelow
      rw [hset] at hx hseen
      have hsub : ∀ T : Set String, hashesOf left rest ∪ (hashesOf (left - 1) cs ∪ T) =
          hashesOf (left - 1) cs ∪ hashesOf left rest ∪ T := by
        intro T
        rw [Set.union_left_comm, Set.union_assoc]
      refine ⟨?_, ?_⟩
      · cases left with
        | zero =>
          obtain rfl := hzero rfl
          rw [hashesOf_nil, Set.empty_union] at hx
          exact Expands.cut hmem hx
        | succ k => exact Expands.fresh hmem (hsucc k rfl) hx
      · rw [hseen, hsub, hashesOf_cons, Set.union_insert, Set.insert_union]

/-- **What `children_of` returns.** -/
theorem childrenOf_expands {io : Faults} {db : Db} : ∀ {left : ℕ} {hash : String} {w w' : TreeWalk}
    {cs : List TreeNode}, childrenOf io db (left + 1) hash w = .ok (cs, w') →
    Expands db left (childEdges db hash) {x | x ∈ w.seen} cs ∧
      {x | x ∈ w'.seen} = hashesOf left cs ∪ {x | x ∈ w.seen}
  | 0, hash, w, w', cs, h => by
    obtain ⟨-, -, h⟩ := bind_eq_ok.mp h
    have hexp := expandEdges_expands (fun k (hk : 0 = k + 1) => absurd hk (by omega))
      (childEdges_sound db hash) h
    exact hexp
  | left + 1, hash, w, w', cs, h => by
    obtain ⟨-, -, h⟩ := bind_eq_ok.mp h
    have hexp := expandEdges_expands (fun k (hk : left + 1 = k + 1) hash w cs w' => by
      obtain rfl : left = k := by omega
      exact childrenOf_expands) (childEdges_sound db hash) h
    exact hexp

namespace Expands

variable {db : Db} {left : ℕ} {es : List Edge} {S : Set String} {ts : List TreeNode}

/-- The edges come back as nodes, in their order. -/
theorem map_edge (h : Expands db left es S ts) : ts.map TreeNode.edge = es := by
  induction h with
  | nil => rfl
  | again _ _ ih => rw [List.map_cons, ih]; rfl
  | cut _ _ ih => rw [List.map_cons, ih]; rfl
  | fresh _ _ _ _ ih => rw [List.map_cons, ih]; rfl

/-- **The nodes are the meetings of a depth-first walk.** -/
theorem walks (h : Expands db left es S ts) :
    Walks (successors db) left (es.map Edge.childHash) S ((placesAll left ts).map meeting) := by
  induction h with
  | nil left S => exact Walks.nil left S
  | again he _ ih => exact Walks.again he ih
  | cut he _ ih => exact Walks.cut he ih
  | fresh he _ _ ihb ihr =>
    rw [placesAll, places, List.map_append, List.map_cons]
    exact Walks.fresh he ihb ihr

/-- What holds of a node where it stands. -/
structure Placed (db : Db) (p : TreeNode × ℕ) : Prop where
  missing : p.1.missing = (db.row? p.1.hash).isNone
  truncated : p.1.truncated = true → p.1.children = []
  cut : p.2 = 0 → p.1.children = []
  expanded : p.1.truncated = false → 0 < p.2 →
    p.1.children.map TreeNode.edge = childEdges db p.1.hash

theorem placed (h : Expands db left es S ts) (hes : ∀ e ∈ es, e.Sound db) :
    ∀ p ∈ placesAll left ts, Placed db p := by
  induction h with
  | nil => exact fun p hp => absurd hp List.not_mem_nil
  | @again left e es S ts he _ ih =>
    intro p hp
    simp only [placesAll, places, List.cons_append, List.nil_append] at hp
    rcases List.mem_cons.mp hp with rfl | hp
    · exact ⟨hes e List.mem_cons_self, fun _ => rfl, fun _ => rfl,
        fun h => absurd h (by simp [TreeNode.truncated])⟩
    · exact ih (fun x hx => hes x (List.mem_cons_of_mem _ hx)) p hp
  | @cut e es S ts he _ ih =>
    intro p hp
    simp only [placesAll, places, List.cons_append, List.nil_append] at hp
    rcases List.mem_cons.mp hp with rfl | hp
    · exact ⟨hes e List.mem_cons_self, fun _ => rfl, fun _ => rfl,
        fun _ h => absurd h (Nat.lt_irrefl 0)⟩
    · exact ih (fun x hx => hes x (List.mem_cons_of_mem _ hx)) p hp
  | @fresh left e es S cs ts he below _ ihb ihr =>
    intro p hp
    simp only [placesAll, places, List.cons_append, Nat.add_sub_cancel] at hp
    rcases List.mem_cons.mp hp with rfl | hp
    · exact ⟨hes e List.mem_cons_self, fun h => absurd h (by simp [TreeNode.truncated]),
        fun h => absurd h (Nat.succ_ne_zero left), fun _ _ => below.map_edge⟩
    · rcases List.mem_append.mp hp with hp | hp
      · exact ihb (childEdges_sound db _) p hp
      · exact ihr (fun x hx => hes x (List.mem_cons_of_mem _ hx)) p hp

end Expands

mutual

/-- The nodes do not depend on the levels. -/
theorem map_fst_places (left k : ℕ) :
    ∀ t : TreeNode, (places left t).map Prod.fst = (places k t).map Prod.fst
  | .node hash name missing truncated children => by
    rw [places, places, List.map_cons, List.map_cons,
      map_fst_placesAll (left - 1) (k - 1) children]

theorem map_fst_placesAll (left k : ℕ) :
    ∀ ts : List TreeNode, (placesAll left ts).map Prod.fst = (placesAll k ts).map Prod.fst
  | [] => rfl
  | t :: ts => by
    rw [placesAll, placesAll, List.map_append, List.map_append, map_fst_places left k t,
      map_fst_placesAll left k ts]

end

/-- **The tree of a hash that has an object**: the root's node, and what is below it. -/
theorem tree_expands {io : Faults} {db : Db} {hash : String} {depth : ℕ} {t : TreeNode}
    (h : tree io db hash depth = .ok (some t)) :
    ∃ name, (db.row? hash).map Row.name = some name ∧
      Expands db depth [⟨name, hash, false⟩] ∅ [t] := by
  obtain ⟨-, -, h⟩ := bind_eq_ok.mp h
  split at h
  · exact absurd h (by simp [pure, Except.pure])
  · rename_i name hname
    obtain ⟨⟨cs, w⟩, hcs, h⟩ := bind_eq_ok.mp h
    obtain rfl := Option.some.inj (Except.ok.inj h)
    refine ⟨name, hname, ?_⟩
    cases depth with
    | zero =>
      obtain ⟨rfl, -⟩ := Prod.mk.inj (Except.ok.inj hcs)
      exact Expands.cut (Set.notMem_empty hash) (Expands.nil 0 _)
    | succ left =>
      have hbelow := (childrenOf_expands hcs).1
      have hroot : {x | x ∈ [hash]} = insert hash (∅ : Set String) := by
        ext x
        simp
      rw [hroot] at hbelow
      exact Expands.fresh (Set.notMem_empty hash) hbelow (Expands.nil _ _)

/-- Without a failing statement the walk always ends. -/
theorem expandEdges_total {expand : String → TreeWalk → Except DbError (List TreeNode × TreeWalk)}
    (h : ∀ hash w, ∃ r, expand hash w = .ok r) :
    ∀ es w, ∃ r, expandEdges expand es w = .ok r
  | [], w => ⟨_, rfl⟩
  | e :: es, w => by
    let seen := if w.seen.contains e.childHash then w.seen else e.childHash :: w.seen
    obtain ⟨⟨cs, w₁⟩, hbelow⟩ : ∃ r, (if w.seen.contains e.childHash || e.missing then
        .ok ([], { w with seen := seen }) else expand e.childHash { w with seen := seen }) =
          (.ok r : Except DbError (List TreeNode × TreeWalk)) := by
      split
      · exact ⟨_, rfl⟩
      · exact h _ _
    obtain ⟨⟨rest, w₂⟩, hrest⟩ := expandEdges_total h es w₁
    exact ⟨_, bind_eq_ok.mpr ⟨_, hbelow, bind_eq_ok.mpr ⟨_, hrest, rfl⟩⟩⟩

theorem childrenOf_total (db : Db) : ∀ depth hash w,
    ∃ r, childrenOf noFaults db depth hash w = .ok r
  | 0, _, w => ⟨([], w), rfl⟩
  | depth + 1, hash, w => by
    obtain ⟨r, hr⟩ := expandEdges_total (childrenOf_total db depth) (childEdges db hash)
      { w with statements := w.statements + 1 }
    exact ⟨r, hr⟩

/-- A hash that has an object has a tree. -/
theorem tree_total {db : Db} {hash : String} (h : ∃ row, db.row? hash = some row) (depth : ℕ) :
    ∃ t, tree noFaults db hash depth = .ok (some t) := by
  obtain ⟨row, hrow⟩ := h
  obtain ⟨⟨cs, w⟩, hcs⟩ := childrenOf_total db depth hash ⟨[hash], 1⟩
  refine ⟨.node hash row.name false false cs, bind_eq_ok.mpr ⟨(), rfl, ?_⟩⟩
  simp only [hrow, Option.map_some]
  exact bind_eq_ok.mpr ⟨_, hcs, rfl⟩

end Garret.Browse
