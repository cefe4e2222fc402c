import AbstractionRefinement.DecisionDiagramQueries
import AbstractionRefinement.Proofs.DiagramConstruction

/-!
# Satisfying paths

A path of a function that is not false takes the high edge of a node unless that
is false.  It ends at true, its levels increase, and so its literals fix an
assignment under which the function is true.
-/

namespace AbstractionRefinement

namespace DiagramManager

variable {manager : DiagramManager} {bound : Nat}

/-- The assignment in which exactly the positive literals of a path hold. -/
def pathAssignment (path : List Int) (level : Nat) : Bool :=
  path.contains (level : Int)

theorem natAbs_literalOf {level : Nat} (small : level < 2147483648) :
    (literalOf level).natAbs = level ∧ (-literalOf level).natAbs = level := by
  rw [literalOf_eq_self small, Int.natAbs_neg, Int.natAbs_natCast]
  exact ⟨rfl, rfl⟩

/-- The levels of a path increase, and the function is true wherever its literals
hold. -/
theorem pathFrom_spec (ordered : manager.Ordered bound) (small : bound ≤ 2147483648)
    (fuel : Nat) {edge : Edge} (owns : manager.Owns edge) (satisfiable : edge ≠ .zero)
    (enough : edge.index ≤ fuel) :
    ((manager.pathFrom fuel edge).Pairwise fun first second => first.natAbs < second.natAbs) ∧
      (∀ level, manager.Below level edge →
        ∀ literal ∈ manager.pathFrom fuel edge, level < literal.natAbs) ∧
      ∀ assignment, (∀ literal ∈ manager.pathFrom fuel edge, LiteralHolds assignment literal) →
        manager.value assignment edge = true := by
  induction fuel generalizing edge with
  | zero =>
      have used := owns.1
      omega
  | succ fuel ih =>
      rw [pathFrom]
      by_cases one : edge = .one
      · subst one
        simp [Edge.isOne]
      · have inner : edge.index ≠ 1 := by
          rw [Ne, ← Edge.isTerminal_iff]
          simp [Edge.isTerminal, Edge.isOne, Edge.isZero, one, satisfiable]
        have placed := ordered.placed_of_owns owns inner
        have smallLevel : manager.levelOf edge < 2147483648 :=
          Nat.lt_of_lt_of_le placed.level_lt small
        have levelPos : 1 ≤ manager.levelOf edge := placed.level_pos
        have lowLt := placed.low_lt
        have highLt := placed.high_lt
        have belowEdge {level : Nat} (below : manager.Below level edge) :
            level < manager.levelOf edge := below.resolve_left inner
        simp only [Edge.isOne, one, decide_false, Bool.false_eq_true, if_false]
        by_cases highZero : manager.highOf edge = .zero
        · have lowNotZero : manager.lowOf edge ≠ .zero := by
            rw [← highZero]
            exact ordered.lowOf_ne_highOf owns inner
          obtain ⟨increasing, lower, sound⟩ := ih (ordered.owns_lowOf owns inner) lowNotZero (by
            rw [index_lowOf]
            omega)
          have below := lower _ (ordered.below_lowOf owns inner)
          simp only [Edge.isZero, highZero, decide_true, if_true, List.pairwise_cons,
            List.mem_cons, forall_eq_or_imp, (natAbs_literalOf smallLevel).2]
          refine ⟨⟨below, increasing⟩, ?_, ?_⟩
          · intro level belowLevel
            have lt := belowEdge belowLevel
            exact ⟨lt, fun literal member => Nat.lt_trans lt (below literal member)⟩
          · rintro assignment ⟨holds, rest⟩
            have notHigh : assignment (manager.levelOf edge) = false := by
              have negative : -literalOf (manager.levelOf edge) < 0 := by
                rw [literalOf_eq_self smallLevel]
                omega
              rw [LiteralHolds, if_pos negative, (natAbs_literalOf smallLevel).2] at holds
              simpa using holds
            rw [ordered.value_eq owns inner, notHigh]
            exact sound assignment rest
        · obtain ⟨increasing, lower, sound⟩ := ih (ordered.owns_highOf owns inner) highZero (by
            rw [index_highOf]
            omega)
          have below := lower _ (ordered.below_highOf owns inner)
          simp only [Edge.isZero, highZero, decide_false, Bool.false_eq_true, if_false,
            List.pairwise_cons, List.mem_cons, forall_eq_or_imp, (natAbs_literalOf smallLevel).1]
          refine ⟨⟨below, increasing⟩, ?_, ?_⟩
          · intro level belowLevel
            have lt := belowEdge belowLevel
            exact ⟨lt, fun literal member => Nat.lt_trans lt (below literal member)⟩
          · rintro assignment ⟨holds, rest⟩
            have isHigh : assignment (manager.levelOf edge) = true := by
              have positive : ¬ literalOf (manager.levelOf edge) < 0 := by
                rw [literalOf_eq_self smallLevel]
                omega
              rw [LiteralHolds, if_neg positive, (natAbs_literalOf smallLevel).1] at holds
              exact holds
            rw [ordered.value_eq owns inner, isHigh]
            exact sound assignment rest

/-- Literals of increasing levels all hold in the assignment of their path. -/
theorem pathAssignment_holds {path : List Int}
    (increasing : path.Pairwise fun first second => first.natAbs < second.natAbs)
    {literal : Int} (member : literal ∈ path) :
    LiteralHolds (pathAssignment path) literal = true := by
  unfold LiteralHolds pathAssignment
  split
  case isTrue negative =>
    simp only [Bool.not_eq_true', List.contains_eq_mem, decide_eq_false_iff_not]
    intro opposite
    have distinct : path.Pairwise fun first second => first.natAbs ≠ second.natAbs :=
      increasing.imp Nat.ne_of_lt
    have symmetric : Std.Symm fun first second : Int => first.natAbs ≠ second.natAbs :=
      ⟨fun _ _ differ => differ.symm⟩
    have differ : literal ≠ (literal.natAbs : Int) := by omega
    exact distinct.forall member opposite differ (Int.natAbs_natCast _).symm
  case isFalse positive =>
    have equal : (literal.natAbs : Int) = literal := by omega
    rw [equal]
    simpa using member

/-- The path of a function that is not false satisfies it. -/
theorem value_onePath (ordered : manager.Ordered bound) (small : bound ≤ 2147483648)
    {edge : Edge} (owns : manager.Owns edge) {path : List Int}
    (found : manager.onePath? edge = some path) :
    manager.value (pathAssignment path) edge = true := by
  unfold onePath? at found
  split at found
  case isTrue => cases found
  case isFalse satisfiable =>
    cases found
    have notZero : edge ≠ .zero := by
      simpa [Edge.isZero] using satisfiable
    obtain ⟨increasing, -, sound⟩ :=
      pathFrom_spec ordered small (edge.index + 1) owns notZero (Nat.le_succ _)
    exact sound _ fun literal member => pathAssignment_holds increasing member

end DiagramManager

end AbstractionRefinement
