import AbstractionRefinement.DecisionDiagramQueries
import AbstractionRefinement.Proofs.DiagramCanonicity

/-!
# Counting satisfying assignments

An assignment of the first variables is the set of those that are true.  The cofactors of an
edge do not depend on the variable of its root, so twice the number of its satisfying
assignments is the sum of their numbers, and halving this sum is exact.  A complemented
edge has the other assignments.
-/

namespace AbstractionRefinement

namespace DiagramManager

variable {manager : DiagramManager} {bound levels : Nat} {edge : Edge}

/-- The sets of true variables among the first ones under which the function is true. -/
def satisfying (manager : DiagramManager) (levels : Nat) (edge : Edge) : Finset (Finset Nat) :=
  (Finset.Icc 1 levels).powerset.filter fun trues =>
    manager.value (fun level => decide (level ∈ trues)) edge

/-- The function depends on the first variables only. -/
def DependsWithin (manager : DiagramManager) (levels : Nat) (edge : Edge) : Prop :=
  ∀ level, manager.DependsOn edge level → level ∈ Finset.Icc 1 levels

theorem card_satisfying_zero : (manager.satisfying levels .zero).card = 0 := by
  simp [satisfying]

theorem card_satisfying_one : (manager.satisfying levels .one).card = 2 ^ levels := by
  simp [satisfying]

theorem card_satisfying_le (manager : DiagramManager) (levels : Nat) (edge : Edge) :
    (manager.satisfying levels edge).card ≤ 2 ^ levels := by
  refine (Finset.card_filter_le _ _).trans_eq ?_
  rw [Finset.card_powerset, Nat.card_Icc, Nat.add_sub_cancel]

/-- An edge and its complement have all assignments together. -/
theorem card_satisfying_neg (used : 1 ≤ edge.index) :
    (manager.satisfying levels (-edge)).card =
      2 ^ levels - (manager.satisfying levels edge).card := by
  have all := Finset.card_filter_add_card_filter_not (s := (Finset.Icc 1 levels).powerset)
    fun trues => manager.value (fun level => decide (level ∈ trues)) edge = true
  rw [Finset.card_powerset, Nat.card_Icc, Nat.add_sub_cancel] at all
  have complement : manager.satisfying levels (-edge) =
      (Finset.Icc 1 levels).powerset.filter fun trues =>
        ¬ manager.value (fun level => decide (level ∈ trues)) edge = true := by
    unfold satisfying
    refine Finset.filter_congr fun trues _ => ?_
    rw [value_neg used]
    simp
  rw [complement]
  unfold satisfying
  omega

/-- The satisfying assignments by the value of one of the variables. -/
theorem card_satisfying_split {level : Nat} (inside : level ∈ Finset.Icc 1 levels) :
    (manager.satisfying levels edge).card =
      ∑ trues ∈ ((Finset.Icc 1 levels).erase level).powerset,
        ((manager.value (Function.update (fun other => decide (other ∈ trues)) level false)
            edge).toNat +
          (manager.value (Function.update (fun other => decide (other ∈ trues)) level true)
            edge).toNat) := by
  have indicator (truth : Bool) : (if truth = true then 1 else 0) = truth.toNat := by
    cases truth <;> rfl
  rw [satisfying, Finset.card_filter, Finset.sum_add_distrib]
  simp only [indicator]
  rw [← Finset.insert_erase inside, Finset.sum_powerset_insert (Finset.notMem_erase _ _),
    Finset.erase_insert (Finset.notMem_erase _ _)]
  congr 1
  · refine Finset.sum_congr rfl fun trues member => ?_
    congr 2
    funext other
    by_cases same : other = level
    · subst same
      have absent : other ∉ trues := fun isTrue =>
        Finset.notMem_erase _ _ (Finset.mem_powerset.mp member isTrue)
      simp [absent]
    · rw [Function.update_of_ne same]
  · refine Finset.sum_congr rfl fun trues _ => ?_
    congr 2
    funext other
    by_cases same : other = level
    · subst same
      simp
    · rw [Function.update_of_ne same]
      simp [same]

/-- Twice the satisfying assignments of an edge are those of its cofactors. -/
theorem Ordered.card_satisfying_cofactors (ordered : manager.Ordered bound)
    (owns : manager.Owns edge) (inner : edge.index ≠ 1)
    (within : manager.DependsWithin levels edge) :
    (manager.satisfying levels (manager.lowOf edge)).card +
        (manager.satisfying levels (manager.highOf edge)).card =
      2 * (manager.satisfying levels edge).card := by
  have inside := within _ (ordered.dependsOn_levelOf owns inner)
  have low (assignment : Nat → Bool) (truth : Bool) :=
    ordered.value_update (ordered.owns_lowOf owns inner) (ordered.below_lowOf owns inner)
      assignment truth
  have high (assignment : Nat → Bool) (truth : Bool) :=
    ordered.value_update (ordered.owns_highOf owns inner) (ordered.below_highOf owns inner)
      assignment truth
  rw [card_satisfying_split inside, card_satisfying_split inside, card_satisfying_split inside,
    ← Finset.sum_add_distrib, Finset.mul_sum]
  refine Finset.sum_congr rfl fun trues _ => ?_
  rw [low, low, high, high, ordered.value_update_low owns inner,
    ordered.value_update_high owns inner]
  omega

theorem dependsOn_neg (used : 1 ≤ edge.index) {level : Nat} :
    manager.DependsOn (-edge) level ↔ manager.DependsOn edge level := by
  unfold DependsOn
  simp [value_neg used]

section Children

variable (ordered : manager.Ordered bound) (owns : manager.Owns edge) (inner : edge.index ≠ 1)
  (within : manager.DependsWithin levels edge)
include ordered owns inner within

/-- The children of a node depend on no further variables. -/
theorem Ordered.dependsWithin_children :
    manager.DependsWithin levels (manager.nodeAt edge.index).low ∧
      manager.DependsWithin levels (manager.nodeAt edge.index).high := by
  have placed := ordered.placed_of_owns owns inner
  refine ⟨fun level depends => within level (ordered.dependsOn_of_cofactor owns inner (.inl ?_)),
    fun level depends => within level (ordered.dependsOn_of_cofactor owns inner (.inr ?_))⟩
  · unfold lowOf
    split
    · exact (dependsOn_neg placed.low_used).mpr depends
    · exact depends
  · unfold highOf
    split
    · exact (dependsOn_neg placed.high_used).mpr depends
    · exact depends

/-- The number for a node from those for its children, subtracted from all assignments if the
edge is complemented. -/
theorem Ordered.card_satisfying_children :
    (if edge.isNegated then
      2 ^ levels - ((manager.satisfying levels (manager.nodeAt edge.index).low).card +
        (manager.satisfying levels (manager.nodeAt edge.index).high).card) / 2
    else ((manager.satisfying levels (manager.nodeAt edge.index).low).card +
      (manager.satisfying levels (manager.nodeAt edge.index).high).card) / 2) =
      (manager.satisfying levels edge).card := by
  have placed := ordered.placed_of_owns owns inner
  have sum := ordered.card_satisfying_cofactors owns inner within
  unfold lowOf highOf at sum
  cases negated : edge.isNegated with
  | false =>
      simp only [negated, Bool.false_eq_true, if_false] at sum ⊢
      omega
  | true =>
      simp only [negated, if_true] at sum ⊢
      rw [card_satisfying_neg placed.low_used, card_satisfying_neg placed.high_used] at sum
      have low := manager.card_satisfying_le levels (manager.nodeAt edge.index).low
      have high := manager.card_satisfying_le levels (manager.nodeAt edge.index).high
      have all := manager.card_satisfying_le levels edge
      omega

end Children

/-- The remembered numbers are right. -/
def RemembersCounts (manager : DiagramManager) (levels : Nat) (known : Std.TreeMap Edge Nat) :
    Prop :=
  ∀ (edge : Edge) (count : Nat), known[edge]? = some count →
    count = (manager.satisfying levels edge).card

/-- The number of satisfying assignments of an edge is counted exactly. -/
theorem Ordered.countWithin_spec (ordered : manager.Ordered bound) (fuel : Nat)
    (owns : manager.Owns edge) (within : manager.DependsWithin levels edge)
    (enough : edge.index ≤ fuel) {known : Std.TreeMap Edge Nat}
    (remembers : manager.RemembersCounts levels known) :
    (manager.countWithin (2 ^ levels) fuel edge known).1 =
        (manager.satisfying levels edge).card ∧
      manager.RemembersCounts levels (manager.countWithin (2 ^ levels) fuel edge known).2 := by
  induction fuel generalizing edge known with
  | zero =>
      have used := owns.1
      omega
  | succ fuel ih =>
      rw [countWithin]
      by_cases zero : edge = .zero
      · subst zero
        exact ⟨card_satisfying_zero.symm, remembers⟩
      rw [if_neg (by simpa [Edge.isZero] using zero)]
      by_cases one : edge = .one
      · subst one
        exact ⟨card_satisfying_one.symm, remembers⟩
      rw [if_neg (by simpa [Edge.isOne] using one)]
      cases found : known[edge]? with
      | some count => exact ⟨remembers edge count found, remembers⟩
      | none =>
          have inner := Edge.index_ne_one one zero
          have placed := ordered.placed_of_owns owns inner
          have lowLt := placed.low_lt
          have highLt := placed.high_lt
          obtain ⟨withinLow, withinHigh⟩ := ordered.dependsWithin_children owns inner within
          obtain ⟨countLow, remembersLow⟩ := ih ⟨placed.low_used, lowLt.trans owns.2⟩ withinLow
            (by omega) remembers
          obtain ⟨countHigh, remembersHigh⟩ := ih ⟨placed.high_used, highLt.trans owns.2⟩
            withinHigh (by omega) remembersLow
          dsimp only
          rw [countLow, countHigh, ordered.card_satisfying_children owns inner within]
          refine ⟨rfl, fun other count found => ?_⟩
          rw [Std.TreeMap.getElem?_insert] at found
          split at found
          case isTrue same =>
            cases found
            rw [← Std.compare_eq_iff_eq.mp same]
          case isFalse => exact remembersHigh other count found

theorem Ordered.countAssignments_eq (ordered : manager.Ordered bound) (owns : manager.Owns edge)
    (within : manager.DependsWithin levels edge) :
    manager.countAssignments edge levels = (manager.satisfying levels edge).card :=
  (ordered.countWithin_spec (edge.index + 1) owns within (Nat.le_succ _)
    fun _ _ found => by simp at found).1

end DiagramManager

end AbstractionRefinement
