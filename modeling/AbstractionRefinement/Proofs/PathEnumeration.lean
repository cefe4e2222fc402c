import AbstractionRefinement.Proofs.DiagramCanonicity
import AbstractionRefinement.Proofs.SatisfyingPaths

/-!
# Enumeration of paths

The enumerated paths of an edge describe its function: it is true exactly where all
literals of some path hold.  The levels along a path increase, and they are levels that
the function depends on.
-/

namespace AbstractionRefinement

namespace DiagramManager

variable {manager : DiagramManager} {bound : Nat}

/-- The function of the edge is the disjunction of the paths. -/
structure DescribedBy (manager : DiagramManager) (edge : Edge) (paths : List (List Int)) :
    Prop where
  value_eq (assignment : Nat → Bool) : manager.value assignment edge =
    paths.any fun path => path.all (LiteralHolds assignment)
  increasing {path : List Int} : path ∈ paths →
    path.Pairwise fun first second => first.natAbs < second.natAbs
  lower {level : Nat} : manager.Below level edge → ∀ path ∈ paths, ∀ literal ∈ path,
    level < literal.natAbs
  depends {path : List Int} : path ∈ paths → ∀ literal ∈ path,
    manager.DependsOn edge literal.natAbs

theorem describedBy_zero : manager.DescribedBy .zero [] where
  value_eq assignment := by simp
  increasing member := by cases member
  lower _ _ member := by cases member
  depends member := by cases member

theorem describedBy_one : manager.DescribedBy .one [[]] where
  value_eq assignment := by simp
  increasing member := by rw [List.mem_singleton.mp member]; exact .nil
  lower _ path member literal inside := by
    rw [List.mem_singleton.mp member] at inside
    cases inside
  depends {path} member literal inside := by
    rw [List.mem_singleton.mp member] at inside
    cases inside

theorem literalHolds_literalOf {level : Nat} (positive : 1 ≤ level) (small : level < 2147483648)
    (assignment : Nat → Bool) :
    LiteralHolds assignment (literalOf level) = assignment level ∧
      LiteralHolds assignment (-literalOf level) = !assignment level := by
  obtain ⟨absolute, absolute'⟩ := natAbs_literalOf small
  unfold LiteralHolds
  rw [absolute, absolute', literalOf_eq_self small, if_neg (by omega), if_pos (by omega)]
  exact ⟨rfl, rfl⟩

/-- The paths of a node go on along one of its children. -/
theorem DescribedBy.node (ordered : manager.Ordered bound) (small : bound ≤ 2147483648)
    {edge : Edge} (owns : manager.Owns edge) (inner : edge.index ≠ 1)
    {highs lows : List (List Int)} (describesHigh : manager.DescribedBy (manager.highOf edge) highs)
    (describesLow : manager.DescribedBy (manager.lowOf edge) lows) :
    manager.DescribedBy edge
      (highs.map (literalOf (manager.levelOf edge) :: ·) ++
        lows.map (-literalOf (manager.levelOf edge) :: ·)) := by
  have placed := ordered.placed_of_owns owns inner
  have positive : 1 ≤ manager.levelOf edge := placed.level_pos
  have smallLevel : manager.levelOf edge < 2147483648 :=
    Nat.lt_of_lt_of_le placed.level_lt small
  obtain ⟨absolute, absolute'⟩ := natAbs_literalOf smallLevel
  -- A literal of the root's level in front of the paths of a child.
  have extended {child : Edge} {literal : Int} {paths : List (List Int)}
      (isLiteral : literal.natAbs = manager.levelOf edge)
      (below : manager.Below (manager.levelOf edge) child)
      (inherited : ∀ level, manager.DependsOn child level → manager.DependsOn edge level)
      (describes : manager.DescribedBy child paths) : ∀ path ∈ paths.map (literal :: ·),
        (path.Pairwise fun first second => first.natAbs < second.natAbs) ∧
          ∀ other ∈ path, manager.levelOf edge ≤ other.natAbs ∧
            manager.DependsOn edge other.natAbs := by
    rw [List.forall_mem_map]
    intro path member
    have lower := describes.lower below path member
    rw [List.pairwise_cons, List.forall_mem_cons, isLiteral]
    refine ⟨⟨lower, describes.increasing member⟩,
      ⟨Nat.le_refl _, ordered.dependsOn_levelOf owns inner⟩, fun other inside => ?_⟩
    exact ⟨Nat.le_of_lt (lower other inside), inherited _ (describes.depends member other inside)⟩
  have each := List.forall_mem_append.mpr
    ⟨extended absolute (ordered.below_highOf owns inner)
      (fun _ depends => ordered.dependsOn_of_cofactor owns inner (.inr depends)) describesHigh,
    extended absolute' (ordered.below_lowOf owns inner)
      (fun _ depends => ordered.dependsOn_of_cofactor owns inner (.inl depends)) describesLow⟩
  refine ⟨fun assignment => ?_, fun member => (each _ member).1, fun {level} below path member
    literal inside => ?_, fun member literal inside => ((each _ member).2 literal inside).2⟩
  · obtain ⟨holds, holds'⟩ := literalHolds_literalOf positive smallLevel assignment
    rw [ordered.value_eq owns inner, List.any_append, List.any_map, List.any_map,
      describesHigh.value_eq, describesLow.value_eq]
    simp only [Function.comp_def, List.all_cons, holds, holds']
    cases assignment (manager.levelOf edge) <;> simp
  · exact Nat.lt_of_lt_of_le (below.resolve_left inner) ((each path member).2 literal inside).1

/-- The paths found below an edge describe it. -/
theorem collectPaths_spec (ordered : manager.Ordered bound) (small : bound ≤ 2147483648)
    (limit fuel : Nat) {edge : Edge} (owns : manager.Owns edge) (enough : edge.index ≤ fuel)
    {above : List Int} {found found' : Array (List Int)}
    (collected : manager.collectPaths limit fuel edge above found = some found') :
    ∃ paths, found'.toList = found.toList ++ paths.map (above.reverse ++ ·) ∧
      manager.DescribedBy edge paths := by
  induction fuel generalizing edge above found found' with
  | zero =>
      have used := owns.1
      omega
  | succ fuel ih =>
      rw [collectPaths] at collected
      by_cases zero : edge = .zero
      · subst zero
        cases collected
        exact ⟨[], by simp, describedBy_zero⟩
      · rw [if_neg (by simpa [Edge.isZero] using zero)] at collected
        by_cases one : edge = .one
        · subst one
          obtain ⟨-, pushed⟩ := Option.ite_none_right_eq_some.mp collected
          cases pushed
          exact ⟨[[]], by simp, describedBy_one⟩
        · rw [if_neg (by simpa [Edge.isOne] using one)] at collected
          have inner : edge.index ≠ 1 := by
            rw [Ne, ← Edge.isTerminal_iff]
            simp [Edge.isTerminal, Edge.isOne, Edge.isZero, one, zero]
          have placed := ordered.placed_of_owns owns inner
          have lowLt := placed.low_lt
          have highLt := placed.high_lt
          dsimp only at collected
          split at collected
          case h_1 => cases collected
          case h_2 middle collectedHigh =>
            obtain ⟨highs, isMiddle, describesHigh⟩ := ih (ordered.owns_highOf owns inner)
              (by rw [index_highOf]; omega) collectedHigh
            obtain ⟨lows, isLast, describesLow⟩ := ih (ordered.owns_lowOf owns inner)
              (by rw [index_lowOf]; omega) collected
            refine ⟨_, ?_, describesHigh.node ordered small owns inner describesLow⟩
            rw [isLast, isMiddle]
            simp [Function.comp_def]

theorem describedBy_of_paths? (ordered : manager.Ordered bound) (small : bound ≤ 2147483648)
    {edge : Edge} (owns : manager.Owns edge) {limit : Nat} {paths : List (List Int)}
    (found : manager.paths? edge limit = some paths) : manager.DescribedBy edge paths := by
  obtain ⟨collected, run, rfl⟩ := Option.map_eq_some_iff.mp found
  obtain ⟨paths, same, describes⟩ :=
    collectPaths_spec ordered small limit (edge.index + 1) owns (Nat.le_succ _) run
  rw [same]
  simpa using describes

end DiagramManager

end AbstractionRefinement
