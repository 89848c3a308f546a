import Garret.Lib.Graph
import Mathlib.Data.Set.Card
import Mathlib.Order.WellFoundedSet

/-!
# Finite graphs without cycles

* `Acyclic.induction`: inside a finite set, induction along the edges.
* `LeadsToCycle`: the nodes an order that follows the edges cannot hold
  (`not_leadsToCycle_of_ordered`), and what a set that cannot be left consists of
  (`leadsToCycle_of_stuck`).
* Peeling: a set `S` of nodes with an edge relation `R` loses one node after the other; a node may
  go when it is `free` and no other remaining node has an edge to it. Where the edges between
  distinct nodes of `S` have no cycle, every way of going on until nothing may go ends with the same
  set: what the nodes that are not free reach (`Peels.eq_needed`). Peeling always ends
  (`exists_peels_done`).
* Kahn's algorithm (`Lib.Kahn`) places every node exactly when its graph has no cycle
  (`Kahn.kahn_length_iff`): what is left over always has a predecessor that is left over.
-/

namespace Garret.Lib

variable {α : Type} {R : α → α → Prop} {free : α → Prop} {S T : Set α}

/-- No path of at least one edge leads from a node to itself. -/
def Acyclic (R : α → α → Prop) : Prop := ∀ x, ¬ Relation.TransGen R x x

/-- A relation that maps into one without a cycle has none. -/
theorem Acyclic.comap {β : Type} {R' : β → β → Prop} (h : Acyclic R') (f : α → β)
    (hf : ∀ a b, R a b → R' (f a) (f b)) : Acyclic R :=
  fun x hx => h (f x) (Relation.TransGen.lift f hf _ _ hx)

/-- A relation along which a rank grows has no cycle. -/
theorem Acyclic.of_rank (f : α → ℕ) (h : ∀ a b, R a b → f a < f b) : Acyclic R := by
  intro x hx
  have hlt : ∀ a b, Relation.TransGen R a b → f a < f b := by
    intro a b hab
    induction hab with
    | single he => exact h _ _ he
    | tail _ he ih => exact ih.trans (h _ _ he)
  exact absurd (hlt x x hx) (Nat.lt_irrefl _)

/-- **Induction along the edges**: inside a finite set, what holds of a node once it holds of all
its predecessors holds of every node. -/
theorem Acyclic.induction (h : Acyclic R) (hfin : S.Finite) {P : α → Prop}
    (hstep : ∀ x ∈ S, (∀ y ∈ S, R y x → P y) → P x) {x : α} (hx : x ∈ S) : P x := by
  have horder : IsStrictOrder α (Relation.TransGen R) :=
    { irrefl := h, trans := fun _ _ _ => Relation.TransGen.trans }
  refine (hfin.wellFoundedOn (r := Relation.TransGen R)).induction hx fun y hy ih => ?_
  exact hstep y hy fun z hz hzy => ih z hz (Relation.TransGen.single hzy)

/-- A nonempty finite set has a node without a predecessor in it. -/
theorem Acyclic.exists_source (h : Acyclic R) (hfin : S.Finite) (hne : S.Nonempty) :
    ∃ x ∈ S, ∀ y ∈ S, ¬ R y x := by
  by_contra hno
  push Not at hno
  obtain ⟨x, hx⟩ := hne
  refine h.induction hfin (P := fun _ => False) (fun x hx ih => ?_) hx
  obtain ⟨y, hy, hyx⟩ := hno x hx
  exact ih y hy hyx

/-! ## Nodes that lead to a cycle -/

variable (R) in
/-- The node lies on a cycle, or a path leads from it to one. -/
def LeadsToCycle (x : α) : Prop := ∃ y, Relation.ReflTransGen R x y ∧ Relation.TransGen R y y

theorem not_leadsToCycle (h : Acyclic R) (x : α) : ¬ LeadsToCycle R x :=
  fun ⟨y, _, hy⟩ => h y hy

/-- Nodes listed after all that they have an edge to lead to no cycle. -/
theorem not_leadsToCycle_of_ordered {l : List α} (hnd : l.Nodup)
    (h : ∀ pre x post, l = pre ++ x :: post → ∀ y, R x y → y ∈ pre) {x : α} (hx : x ∈ l) :
    ¬ LeadsToCycle R x := by
  classical
  -- along an edge the position falls
  have hstep : ∀ a b, a ∈ l → R a b → b ∈ l ∧ l.idxOf b < l.idxOf a := by
    intro a b ha hab
    obtain ⟨pre, post, hsplit⟩ := List.append_of_mem ha
    have hb : b ∈ pre := h pre a post hsplit b hab
    have ha' : a ∉ pre := by
      rw [hsplit, List.nodup_append] at hnd
      exact fun hmem => hnd.2.2 a hmem a List.mem_cons_self rfl
    refine ⟨hsplit ▸ List.mem_append_left _ hb, ?_⟩
    rw [hsplit, List.idxOf_append_of_mem hb, List.idxOf_append_of_notMem ha']
    have hlt := List.idxOf_lt_length_of_mem hb
    omega
  have hreach : ∀ z, Relation.ReflTransGen R x z → z ∈ l := by
    intro z hz
    induction hz with
    | refl => exact hx
    | tail _ he ih => exact (hstep _ _ ih he).1
  rintro ⟨y, hxy, hyy⟩
  have hy : y ∈ l := hreach y hxy
  have hfall : ∀ z, Relation.TransGen R y z → z ∈ l ∧ l.idxOf z < l.idxOf y := by
    intro z hz
    induction hz with
    | single he => exact hstep _ _ hy he
    | tail _ he ih =>
      obtain ⟨hmem, hlt⟩ := hstep _ _ ih.1 he
      exact ⟨hmem, hlt.trans ih.2⟩
  exact absurd (hfall y hyy).2 (Nat.lt_irrefl _)

/-- A finite set that every node of it has an edge into leads to cycles only. -/
theorem leadsToCycle_of_stuck (hfin : S.Finite) (h : ∀ x ∈ S, ∃ y ∈ S, R x y) {x : α}
    (hx : x ∈ S) : LeadsToCycle R x := by
  by_contra hno
  -- what `x` reaches inside the set has no cycle, so it has an end
  have hac : Acyclic fun a b => Relation.ReflTransGen R x b ∧ R b a := by
    intro y hy
    have hback : ∀ z, Relation.TransGen (fun a b => Relation.ReflTransGen R x b ∧ R b a) y z →
        Relation.ReflTransGen R x z ∧ Relation.TransGen R z y := by
      intro z hz
      induction hz with
      | single he => exact ⟨he.1, Relation.TransGen.single he.2⟩
      | tail _ he ih => exact ⟨he.1, Relation.TransGen.head he.2 ih.2⟩
    exact hno ⟨y, hback y hy⟩
  have hsub : {y | y ∈ S ∧ Relation.ReflTransGen R x y}.Finite := hfin.subset fun _ hy => hy.1
  obtain ⟨y, ⟨hy, hxy⟩, hend⟩ := hac.exists_source hsub ⟨x, hx, Relation.ReflTransGen.refl⟩
  obtain ⟨z, hz, hyz⟩ := h y hy
  exact hend z ⟨hz, hxy.tail hyz⟩ ⟨hxy, hyz⟩

/-! ## Peeling -/

variable (R free) in
/-- The node may go: it is free, and no other remaining node has an edge to it. -/
structure Peelable (S : Set α) (x : α) : Prop where
  mem : x ∈ S
  free : free x
  root : ∀ y ∈ S, R y x → y = x

variable (R free) in
/-- One node goes. -/
def Peel (S T : Set α) : Prop := ∃ x, Peelable R free S x ∧ T = S \ {x}

variable (R free) in
/-- Nodes go, one after the other. -/
def Peels : Set α → Set α → Prop := Relation.ReflTransGen (Peel R free)

variable (R free) in
/-- Nothing may go. -/
def PeelDone (S : Set α) : Prop := ∀ x, ¬ Peelable R free S x

variable (R free) in
/-- A node that is not free reaches `x` inside `S`. -/
def Needed (S : Set α) (x : α) : Prop :=
  ∃ r ∈ S, ¬ free r ∧ Relation.ReflTransGen (fun a b => R a b ∧ b ∈ S) r x

theorem Needed.mem {x : α} (h : Needed R free S x) : x ∈ S := by
  obtain ⟨r, hr, -, hpath⟩ := h
  cases hpath with
  | refl => exact hr
  | tail _ he => exact he.2

theorem Peels.subset (h : Peels R free S T) : T ⊆ S := by
  induction h with
  | refl => exact Set.Subset.refl _
  | tail _ hp ih =>
    obtain ⟨x, -, rfl⟩ := hp
    exact Set.sdiff_subset.trans ih

/-- **What a node that is not free reaches never goes.** -/
theorem Peels.needed (h : Peels R free S T) {x : α} (hx : Needed R free S x) : x ∈ T := by
  induction h generalizing x with
  | refl => exact hx.mem
  | tail _ hp ih =>
    obtain ⟨y, hy, rfl⟩ := hp
    refine ⟨ih hx, fun hxy => ?_⟩
    obtain rfl : x = y := hxy
    -- the last edge to `x` starts at another needed node, which is still there
    obtain ⟨r, hr, hfree, hpath⟩ := hx
    have hne : ∀ z, Relation.ReflTransGen (fun a b => R a b ∧ b ∈ S) r z → z ≠ x := by
      intro z hz
      induction hz with
      | refl =>
        rintro rfl
        exact hfree hy.free
      | tail hz he ihz =>
        rintro rfl
        exact ihz (hy.root _ (ih ⟨r, hr, hfree, hz⟩) he.1)
    exact hne x hpath rfl

/-- **Where nothing may go, only what is needed is left.** -/
theorem Peels.done_needed (hac : Acyclic fun a b => a ∈ S ∧ b ∈ S ∧ a ≠ b ∧ R a b)
    (hfin : S.Finite) (h : Peels R free S T) (hdone : PeelDone R free T) {x : α} (hx : x ∈ T) :
    Needed R free S x := by
  refine hac.induction (hfin.subset h.subset) (fun x hx ih => ?_) hx
  by_cases hfree : free x
  · have hblocked : ∃ y ∈ T, R y x ∧ y ≠ x := by
      by_contra hno
      refine hdone x ⟨hx, hfree, fun y hy hyx => ?_⟩
      by_contra hne
      exact hno ⟨y, hy, hyx, hne⟩
    obtain ⟨y, hy, hyx, hne⟩ := hblocked
    obtain ⟨r, hr, hr', hpath⟩ := ih y hy ⟨h.subset hy, h.subset hx, hne, hyx⟩
    exact ⟨r, hr, hr', hpath.tail ⟨hyx, h.subset hx⟩⟩
  · exact ⟨x, h.subset hx, hfree, Relation.ReflTransGen.refl⟩

/-- **Peeling is confluent**: however it goes on to its end, what is left is what is needed. -/
theorem Peels.eq_needed (hac : Acyclic fun a b => a ∈ S ∧ b ∈ S ∧ a ≠ b ∧ R a b)
    (hfin : S.Finite) (h : Peels R free S T) (hdone : PeelDone R free T) (x : α) :
    x ∈ T ↔ Needed R free S x :=
  ⟨h.done_needed hac hfin hdone, h.needed⟩

/-- **Peeling ends.** -/
theorem exists_peels_done (R : α → α → Prop) (free : α → Prop) (hfin : S.Finite) :
    ∃ T, Peels R free S T ∧ PeelDone R free T := by
  induction hn : S.ncard using Nat.strong_induction_on generalizing S with
  | _ n ih =>
    by_cases hdone : PeelDone R free S
    · exact ⟨S, Relation.ReflTransGen.refl, hdone⟩
    · obtain ⟨x, hx⟩ := not_forall_not.mp hdone
      have hlt : (S \ {x}).ncard < n := hn ▸ Set.ncard_sdiff_singleton_lt_of_mem hx.mem hfin
      obtain ⟨T, hT, hdT⟩ := ih _ hlt (hfin.subset Set.sdiff_subset) rfl
      exact ⟨T, Relation.ReflTransGen.head ⟨x, hx, rfl⟩ hT, hdT⟩

/-! ## Kahn's algorithm is complete -/

namespace Kahn

variable {n : ℕ} {succs : ℕ → List ℕ}

/-- The loop stops with nothing ready, or has placed a node in every round. -/
theorem loop_length : ∀ (fuel : ℕ) (s : State), (loop succs fuel s).ready = [] ∨
    (loop succs fuel s).order.length = s.order.length + fuel
  | 0, s => Or.inr rfl
  | fuel + 1, s => by
    unfold loop
    split
    · rename_i hr
      exact Or.inl hr
    · rename_i i ready _
      refine (loop_length fuel (place succs s i ready)).imp_right fun h => ?_
      rw [h, place, List.length_append, List.length_singleton]
      omega

/-- The edges of the graph Kahn's algorithm runs on. -/
def Edge (n : ℕ) (succs : ℕ → List ℕ) (i j : ℕ) : Prop := i < n ∧ j < n ∧ j ∈ succs i

theorem kahn_length_le (hlt : ∀ i < n, ∀ j ∈ succs i, j < n) : (kahn n succs).length ≤ n := by
  have hsub : (kahn n succs).Subperm (List.range n) :=
    List.subperm_of_subset (kahn_nodup hlt) fun j hj => List.mem_range.mpr (kahn_lt hlt j hj)
  simpa using hsub.length_le

/-- Every node that is not placed has a predecessor that is not placed. -/
theorem exists_unplaced (hlt : ∀ i < n, ∀ j ∈ succs i, j < n) {j : ℕ}
    (hshort : (kahn n succs).length ≠ n) (hj : j < n) (hno : j ∉ kahn n succs) :
    ∃ i < n, i ∉ kahn n succs ∧ j ∈ succs i := by
  have hinv := inv_loop hlt n (start n succs) inv_start
  have hready : (loop succs n (start n succs)).ready = [] := by
    refine (loop_length n (start n succs)).resolve_right fun h => hshort ?_
    rw [kahn, h]
    exact Nat.zero_add n
  have hcnt : (loop succs n (start n succs)).cnt j ≠ 0 := by
    intro h0
    have := (hinv.zero j hj).mpr h0
    rw [hready] at this
    exact hno this
  rw [hinv.cnt j] at hcnt
  by_contra hall
  refine hcnt (waiting_eq_zero.mpr fun i hi hji => ?_)
  by_contra hi'
  exact hall ⟨i, hi, hi', hji⟩

/-- **Kahn's algorithm places every node exactly when there is no cycle.** -/
theorem kahn_length_iff (hlt : ∀ i < n, ∀ j ∈ succs i, j < n) :
    (kahn n succs).length = n ↔ Acyclic (Edge n succs) := by
  constructor
  · intro hlen
    refine Acyclic.of_rank (fun i => (kahn n succs).idxOf i) ?_
    rintro i j ⟨hi, hj, hij⟩
    -- `i` stands before `j` in the order
    obtain ⟨pre, post, hsplit⟩ := List.append_of_mem (mem_kahn_of_length hlt hlen hj)
    have hpre : i ∈ pre := kahn_topo hlt hsplit hi hij
    have hnd := kahn_nodup hlt
    rw [hsplit, List.nodup_append] at hnd
    have hjpre : j ∉ pre := fun h => hnd.2.2 j h j List.mem_cons_self rfl
    simp only [hsplit]
    rw [List.idxOf_append_of_mem hpre, List.idxOf_append_of_notMem hjpre]
    have := List.idxOf_lt_length_of_mem hpre
    omega
  · intro hac
    by_contra hshort
    -- some node is not placed, and none that is not placed is a source among them
    have hne : {i | i < n ∧ i ∉ kahn n succs}.Nonempty := by
      by_contra hempty
      refine hshort (le_antisymm (kahn_length_le hlt) ?_)
      have hsub : (List.range n).Subperm (kahn n succs) :=
        List.subperm_of_subset List.nodup_range fun i hi => by
          by_contra hno
          exact hempty ⟨i, List.mem_range.mp hi, hno⟩
      simpa using hsub.length_le
    have hfin : {i | i < n ∧ i ∉ kahn n succs}.Finite :=
      (Set.finite_lt_nat n).subset fun _ hi => hi.1
    obtain ⟨j, ⟨hj, hno⟩, hsource⟩ := hac.exists_source hfin hne
    obtain ⟨i, hi, hino, hij⟩ := exists_unplaced hlt hshort hj hno
    exact hsource i ⟨hi, hino⟩ ⟨hi, hj, hij⟩

end Kahn

end Garret.Lib
