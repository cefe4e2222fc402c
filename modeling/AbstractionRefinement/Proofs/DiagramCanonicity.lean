import AbstractionRefinement.Proofs.DiagramSemantics

/-!
# Canonicity of decision diagrams

A function depends on a level if changing the variable of the level alone can change its
value.  The function of an edge depends on the level of its root and on no smaller level.
So edges with the same function are equal, and a node below an edge tests a variable that
the function of the edge depends on.
-/

namespace AbstractionRefinement

namespace DiagramManager

variable {manager : DiagramManager} {bound : Nat}

/-- The function of the edge changes with the variable of the level for some values of the
other variables. -/
def DependsOn (manager : DiagramManager) (edge : Edge) (level : Nat) : Prop :=
  ∃ assignment, manager.value (Function.update assignment level true) edge ≠
    manager.value (Function.update assignment level false) edge

/-- Levels that are not below an edge do not matter. -/
theorem Ordered.value_congr (ordered : manager.Ordered bound) {edge : Edge}
    (owns : manager.Owns edge) {level : Nat} (below : manager.Below level edge)
    {assignment assignment' : Nat → Bool}
    (same : ∀ other, level < other → assignment other = assignment' other) :
    manager.value assignment edge = manager.value assignment' edge := by
  induction index : edge.index using Nat.strongRecOn generalizing edge level with
  | ind index ih =>
      subst index
      by_cases inner : edge.index = 1
      · rcases Bool.or_eq_true _ _ |>.mp ((Edge.isTerminal_iff edge).mpr inner) with zero | one
        · rw [of_decide_eq_true zero, value_zero, value_zero]
        · rw [of_decide_eq_true one, value_one, value_one]
      · have placed := ordered.placed_of_owns owns inner
        have lower : level < manager.levelOf edge := below.resolve_left inner
        have later : ∀ other, manager.levelOf edge < other → assignment other = assignment' other :=
          fun other lt => same other (Nat.lt_trans lower lt)
        rw [ordered.value_eq owns inner, ordered.value_eq owns inner, same _ lower,
          ih _ (by rw [index_lowOf]; exact placed.low_lt) (ordered.owns_lowOf owns inner)
            (ordered.below_lowOf owns inner) later rfl,
          ih _ (by rw [index_highOf]; exact placed.high_lt) (ordered.owns_highOf owns inner)
            (ordered.below_highOf owns inner) later rfl]

theorem Ordered.value_update (ordered : manager.Ordered bound) {edge : Edge}
    (owns : manager.Owns edge) {level : Nat} (below : manager.Below level edge)
    (assignment : Nat → Bool) (truth : Bool) :
    manager.value (Function.update assignment level truth) edge =
      manager.value assignment edge :=
  ordered.value_congr owns below fun _ lt => Function.update_of_ne (Nat.ne_of_gt lt) ..

theorem Ordered.value_update_low (ordered : manager.Ordered bound) {edge : Edge}
    (owns : manager.Owns edge) (inner : edge.index ≠ 1) (assignment : Nat → Bool) :
    manager.value (Function.update assignment (manager.levelOf edge) false) edge =
      manager.value assignment (manager.lowOf edge) := by
  rw [ordered.value_eq owns inner, Function.update_self]
  exact ordered.value_update (ordered.owns_lowOf owns inner) (ordered.below_lowOf owns inner)
    assignment false

theorem Ordered.value_update_high (ordered : manager.Ordered bound) {edge : Edge}
    (owns : manager.Owns edge) (inner : edge.index ≠ 1) (assignment : Nat → Bool) :
    manager.value (Function.update assignment (manager.levelOf edge) true) edge =
      manager.value assignment (manager.highOf edge) := by
  rw [ordered.value_eq owns inner, Function.update_self]
  exact ordered.value_update (ordered.owns_highOf owns inner) (ordered.below_highOf owns inner)
    assignment true

/-- Edges with the same children at the same level are equal. -/
theorem Ordered.eq_of_cofactors (ordered : manager.Ordered bound) {first second : Edge}
    (owns : manager.Owns first) (owns' : manager.Owns second) (inner : first.index ≠ 1)
    (inner' : second.index ≠ 1) (sameLevel : manager.levelOf first = manager.levelOf second)
    (sameLow : manager.lowOf first = manager.lowOf second)
    (sameHigh : manager.highOf first = manager.highOf second) : first = second := by
  have placed := ordered.placed_of_owns owns inner
  have placed' := ordered.placed_of_owns owns' inner'
  -- High edges are stored uncomplemented, so that they show the signs of the edges.
  have sign {edge : Edge} (placed : manager.WellPlaced bound edge.index
      (manager.nodeAt edge.index)) : (manager.highOf edge).isNegated = edge.isNegated := by
    unfold highOf
    split
    case isTrue negated =>
      rw [Edge.isNegated_neg placed.high_used, placed.high_plain, negated]
      rfl
    case isFalse plain => rw [placed.high_plain, Bool.eq_false_iff.mpr plain]
  have sameSign : first.isNegated = second.isNegated := by
    rw [← sign placed, ← sign placed', sameHigh]
  have sameNode : manager.nodeAt first.index = manager.nodeAt second.index := by
    have injective {edge edge' : Edge} (negated : Bool)
        (same : (if negated then -edge else edge) = if negated then -edge' else edge') :
        edge = edge' := by
      cases negated with
      | false => exact same
      | true => simpa using Edge.eq_neg_iff.mp same
    have low : (manager.nodeAt first.index).low = (manager.nodeAt second.index).low :=
      injective first.isNegated (by
        have same := sameLow
        unfold lowOf at same
        rw [← sameSign] at same
        exact same)
    have high : (manager.nodeAt first.index).high = (manager.nodeAt second.index).high :=
      injective first.isNegated (by
        have same := sameHigh
        unfold highOf at same
        rw [← sameSign] at same
        exact same)
    cases node : manager.nodeAt first.index
    cases node' : manager.nodeAt second.index
    simp only [levelOf, node, node'] at sameLevel low high
    rw [sameLevel, low, high]
  have found := (ordered.unique_iff (manager.nodeAt first.index) first.index).mpr
    ⟨by have := owns.1; omega, owns.2, rfl⟩
  have found' := (ordered.unique_iff (manager.nodeAt first.index) second.index).mpr
    ⟨by have := owns'.1; omega, owns'.2, sameNode.symm⟩
  rw [found] at found'
  exact Edge.eq_of_index_of_isNegated (Option.some.inj found') sameSign

/-- Edges with the same function are equal. -/
theorem Ordered.eq_of_value_eq (ordered : manager.Ordered bound) {first second : Edge}
    (owns : manager.Owns first) (owns' : manager.Owns second)
    (same : ∀ assignment, manager.value assignment first = manager.value assignment second) :
    first = second := by
  induction limit : max first.index second.index using Nat.strongRecOn
    generalizing first second with
  | ind limit ih =>
      subst limit
      -- A node has two different children, so its function is not that of a lower edge.
      have differ {edge other : Edge} (owns : manager.Owns edge) (owns' : manager.Owns other)
          (inner : edge.index ≠ 1) (le : edge.index ≤ max first.index second.index)
          (below : manager.Below (manager.levelOf edge) other)
          (same : ∀ assignment, manager.value assignment edge = manager.value assignment other) :
          False := by
        have placed := ordered.placed_of_owns owns inner
        refine ordered.lowOf_ne_highOf owns inner (ih _ ?_ (ordered.owns_lowOf owns inner)
          (ordered.owns_highOf owns inner) (fun assignment => ?_) rfl)
        · rw [index_lowOf, index_highOf]
          exact Nat.lt_of_lt_of_le (Nat.max_lt.mpr ⟨placed.low_lt, placed.high_lt⟩) le
        · rw [← ordered.value_update_low owns inner, ← ordered.value_update_high owns inner, same,
            same, ordered.value_update owns' below, ordered.value_update owns' below]
      by_cases terminal : first.index = 1
      · by_cases terminal' : second.index = 1
        · have isConstant {edge : Edge} (terminal : edge.index = 1) :
              edge = .zero ∨ edge = .one := by
            have either := (Edge.isTerminal_iff edge).mpr terminal
            rw [Edge.isTerminal, Bool.or_eq_true] at either
            exact either.imp of_decide_eq_true of_decide_eq_true
          have same := same fun _ => true
          rcases isConstant terminal with rfl | rfl <;>
            rcases isConstant terminal' with rfl | rfl <;> simp at same ⊢
        · exact (differ owns' owns terminal' (Nat.le_max_right ..) (.inl terminal)
            fun assignment => (same assignment).symm).elim
      · by_cases terminal' : second.index = 1
        · exact (differ owns owns' terminal (Nat.le_max_left ..) (.inl terminal') same).elim
        · rcases Nat.lt_trichotomy (manager.levelOf first) (manager.levelOf second) with
            lower | sameLevel | lower
          · exact (differ owns owns' terminal (Nat.le_max_left ..) (.inr lower) same).elim
          · have placed := ordered.placed_of_owns owns terminal
            have placed' := ordered.placed_of_owns owns' terminal'
            refine ordered.eq_of_cofactors owns owns' terminal terminal' sameLevel ?_ ?_
            · refine ih _ ?_ (ordered.owns_lowOf owns terminal)
                (ordered.owns_lowOf owns' terminal') (fun assignment => ?_) rfl
              · have low := placed.low_lt
                have low' := placed'.low_lt
                rw [index_lowOf, index_lowOf]
                omega
              · rw [← ordered.value_update_low owns terminal,
                  ← ordered.value_update_low owns' terminal', ← sameLevel, same]
            · refine ih _ ?_ (ordered.owns_highOf owns terminal)
                (ordered.owns_highOf owns' terminal') (fun assignment => ?_) rfl
              · have high := placed.high_lt
                have high' := placed'.high_lt
                rw [index_highOf, index_highOf]
                omega
              · rw [← ordered.value_update_high owns terminal,
                  ← ordered.value_update_high owns' terminal', ← sameLevel, same]
          · exact (differ owns' owns terminal' (Nat.le_max_right ..) (.inr lower)
              fun assignment => (same assignment).symm).elim

theorem Ordered.dependsOn_levelOf (ordered : manager.Ordered bound) {edge : Edge}
    (owns : manager.Owns edge) (inner : edge.index ≠ 1) :
    manager.DependsOn edge (manager.levelOf edge) := by
  by_contra independent
  refine ordered.lowOf_ne_highOf owns inner (ordered.eq_of_value_eq
    (ordered.owns_lowOf owns inner) (ordered.owns_highOf owns inner) fun assignment => ?_)
  rw [← ordered.value_update_low owns inner, ← ordered.value_update_high owns inner]
  by_contra differ
  exact independent ⟨assignment, fun same => differ same.symm⟩

/-- What a cofactor depends on, the edge depends on. -/
theorem Ordered.dependsOn_of_cofactor (ordered : manager.Ordered bound) {edge : Edge}
    (owns : manager.Owns edge) (inner : edge.index ≠ 1) {level : Nat}
    (depends : manager.DependsOn (manager.lowOf edge) level ∨
      manager.DependsOn (manager.highOf edge) level) : manager.DependsOn edge level := by
  -- A cofactor does not depend on the level of the root.
  have other {child : Edge} (ownsChild : manager.Owns child)
      (below : manager.Below (manager.levelOf edge) child)
      (depends : manager.DependsOn child level) : level ≠ manager.levelOf edge := by
    rintro rfl
    obtain ⟨assignment, differ⟩ := depends
    rw [ordered.value_update ownsChild below, ordered.value_update ownsChild below] at differ
    exact differ rfl
  rcases depends with depends | depends
  · have apart := other (ordered.owns_lowOf owns inner) (ordered.below_lowOf owns inner) depends
    obtain ⟨assignment, differ⟩ := depends
    refine ⟨Function.update assignment (manager.levelOf edge) false, ?_⟩
    rw [Function.update_comm apart.symm, Function.update_comm apart.symm,
      ordered.value_update_low owns inner, ordered.value_update_low owns inner]
    exact differ
  · have apart := other (ordered.owns_highOf owns inner) (ordered.below_highOf owns inner) depends
    obtain ⟨assignment, differ⟩ := depends
    refine ⟨Function.update assignment (manager.levelOf edge) true, ?_⟩
    rw [Function.update_comm apart.symm, Function.update_comm apart.symm,
      ordered.value_update_high owns inner, ordered.value_update_high owns inner]
    exact differ

end DiagramManager

end AbstractionRefinement
