import AbstractionRefinement.Proofs.PathEnumeration

/-!
# Paths of decision diagrams

A path leads from an edge to true and lists the branches that it takes, each a level with the
truth value of its variable.  The levels of a path increase, and an assignment follows
exactly one path to true if the function is true under it, and none otherwise.

The queries for one path and for all paths write paths that lead to true as signed literals.
The enumeration finds all of them, each once, and gives up exactly if there are more than
its limit.
-/

namespace AbstractionRefinement

namespace DiagramManager

variable {manager : DiagramManager} {bound : Nat} {edge : Edge} {assignment : Nat → Bool}

/-- The child of an edge for a truth value of the root's variable. -/
def branchOf (manager : DiagramManager) (edge : Edge) (truth : Bool) : Edge :=
  if truth then manager.highOf edge else manager.lowOf edge

/-- The branches lead from the edge to true. -/
inductive LeadsToOne (manager : DiagramManager) : Edge → List (Nat × Bool) → Prop
  | one : LeadsToOne manager .one []
  | branch {edge : Edge} {truth : Bool} {path : List (Nat × Bool)} : edge.index ≠ 1 →
      LeadsToOne manager (manager.branchOf edge truth) path →
      LeadsToOne manager edge ((manager.levelOf edge, truth) :: path)

def Follows (assignment : Nat → Bool) (path : List (Nat × Bool)) : Prop :=
  ∀ branch ∈ path, assignment branch.1 = branch.2

section Branches

variable (ordered : manager.Ordered bound) (owns : manager.Owns edge) (inner : edge.index ≠ 1)
include ordered owns inner

theorem Ordered.owns_branchOf (truth : Bool) : manager.Owns (manager.branchOf edge truth) := by
  cases truth with
  | false => exact ordered.owns_lowOf owns inner
  | true => exact ordered.owns_highOf owns inner

theorem Ordered.below_branchOf (truth : Bool) :
    manager.Below (manager.levelOf edge) (manager.branchOf edge truth) := by
  cases truth with
  | false => exact ordered.below_lowOf owns inner
  | true => exact ordered.below_highOf owns inner

theorem Ordered.index_branchOf_lt (truth : Bool) :
    (manager.branchOf edge truth).index < edge.index := by
  cases truth with
  | false => exact ordered.grounded.index_lowOf_lt owns inner
  | true => exact ordered.grounded.index_highOf_lt owns inner

theorem Ordered.value_branchOf : manager.value assignment edge =
    manager.value assignment (manager.branchOf edge (assignment (manager.levelOf edge))) := by
  rw [ordered.value_eq owns inner]
  cases assignment (manager.levelOf edge) <;> rfl

theorem Ordered.dependsOn_of_branchOf {truth : Bool} {level : Nat}
    (depends : manager.DependsOn (manager.branchOf edge truth) level) :
    manager.DependsOn edge level := by
  refine ordered.dependsOn_of_cofactor owns inner ?_
  cases truth with
  | false => exact .inl depends
  | true => exact .inr depends

end Branches

theorem LeadsToOne.ne_zero {path : List (Nat × Bool)} (leads : manager.LeadsToOne edge path) :
    edge ≠ .zero := by
  rintro rfl
  cases leads with
  | branch inner => exact inner rfl

/-- The levels of a path increase from the root on, and the function depends on them. -/
theorem LeadsToOne.levels {path : List (Nat × Bool)} (leads : manager.LeadsToOne edge path)
    (ordered : manager.Ordered bound) (owns : manager.Owns edge) :
    (path.Pairwise fun first second => first.1 < second.1) ∧
      ∀ branch ∈ path, (∀ level, manager.Below level edge → level < branch.1) ∧
        manager.DependsOn edge branch.1 := by
  induction leads with
  | one => simp
  | @branch edge truth path inner _ ih =>
      obtain ⟨increasing, each⟩ := ih (ordered.owns_branchOf owns inner truth)
      have later : ∀ branch ∈ path, manager.levelOf edge < branch.1 := fun branch member =>
        (each branch member).1 _ (ordered.below_branchOf owns inner truth)
      refine ⟨List.pairwise_cons.mpr ⟨later, increasing⟩, List.forall_mem_cons.mpr
        ⟨⟨fun level below => below.resolve_left inner, ordered.dependsOn_levelOf owns inner⟩,
          fun branch member => ⟨fun level below => ?_, ?_⟩⟩⟩
      · exact Nat.lt_trans (below.resolve_left inner) (later branch member)
      · exact ordered.dependsOn_of_branchOf owns inner (each branch member).2

theorem LeadsToOne.value_eq {path : List (Nat × Bool)} (leads : manager.LeadsToOne edge path)
    (ordered : manager.Ordered bound) (owns : manager.Owns edge)
    (follows : Follows assignment path) : manager.value assignment edge = true := by
  induction leads with
  | one => exact value_one
  | @branch edge truth path inner _ ih =>
      obtain ⟨taken, rest⟩ := List.forall_mem_cons.mp follows
      rw [ordered.value_branchOf owns inner, taken]
      exact ih (ordered.owns_branchOf owns inner truth) rest

/-- Where the function is true, a path is taken. -/
theorem Ordered.exists_leadsToOne (ordered : manager.Ordered bound) (owns : manager.Owns edge)
    (holds : manager.value assignment edge = true) :
    ∃ path, manager.LeadsToOne edge path ∧ Follows assignment path := by
  induction index : edge.index using Nat.strongRecOn generalizing edge with
  | ind index ih =>
      subst index
      by_cases inner : edge.index = 1
      · rcases Bool.or_eq_true _ _ |>.mp ((Edge.isTerminal_iff edge).mpr inner) with zero | one
        · rw [of_decide_eq_true zero, value_zero] at holds
          cases holds
        · rw [of_decide_eq_true one]
          exact ⟨[], .one, by simp [Follows]⟩
      · rw [ordered.value_branchOf owns inner] at holds
        obtain ⟨path, leads, follows⟩ := ih _ (ordered.index_branchOf_lt owns inner _)
          (ordered.owns_branchOf owns inner _) holds rfl
        exact ⟨_, .branch inner leads, List.forall_mem_cons.mpr ⟨rfl, follows⟩⟩

/-- An assignment takes one path only. -/
theorem LeadsToOne.unique {path path' : List (Nat × Bool)} (leads : manager.LeadsToOne edge path)
    (leads' : manager.LeadsToOne edge path') (follows : Follows assignment path)
    (follows' : Follows assignment path') : path = path' := by
  induction leads generalizing path' with
  | one =>
      cases leads' with
      | one => rfl
      | branch inner => exact absurd rfl inner
  | branch inner _ ih =>
      cases leads' with
      | one => exact absurd rfl inner
      | branch _ leads' =>
          obtain ⟨taken, rest⟩ := List.forall_mem_cons.mp follows
          obtain ⟨taken', rest'⟩ := List.forall_mem_cons.mp follows'
          obtain rfl := taken.symm.trans taken'
          rw [ih leads' rest rest']

/-- The paths from an edge to true, those along high edges first. -/
def pathList (manager : DiagramManager) : Nat → Edge → List (List (Nat × Bool))
  | 0, _ => []
  | fuel + 1, edge =>
      if edge.isZero then []
      else if edge.isOne then [[]]
      else
        (manager.pathList fuel (manager.highOf edge)).map ((manager.levelOf edge, true) :: ·) ++
          (manager.pathList fuel (manager.lowOf edge)).map ((manager.levelOf edge, false) :: ·)

/-- The list consists of the paths to true. -/
theorem Ordered.mem_pathList (ordered : manager.Ordered bound) (fuel : Nat)
    (owns : manager.Owns edge) (enough : edge.index ≤ fuel) {path : List (Nat × Bool)} :
    path ∈ manager.pathList fuel edge ↔ manager.LeadsToOne edge path := by
  induction fuel generalizing edge path with
  | zero =>
      have used := owns.1
      omega
  | succ fuel ih =>
      rw [pathList]
      by_cases zero : edge = .zero
      · subst zero
        simp only [Edge.isZero, decide_true, if_true, List.not_mem_nil, false_iff]
        exact fun leads => leads.ne_zero rfl
      · by_cases one : edge = .one
        · subst one
          simp only [Edge.isZero, Edge.isOne, zero, decide_false, decide_true, if_true,
            Bool.false_eq_true, if_false, List.mem_singleton]
          constructor
          · rintro rfl
            exact .one
          · rintro (_ | inner)
            · rfl
            · exact absurd rfl inner
        · have inner := Edge.index_ne_one one zero
          have shorter (truth : Bool) := ordered.index_branchOf_lt owns inner truth
          have each (truth : Bool) {path : List (Nat × Bool)} :
              path ∈ manager.pathList fuel (manager.branchOf edge truth) ↔
                manager.LeadsToOne (manager.branchOf edge truth) path :=
            ih (ordered.owns_branchOf owns inner truth) (by have := shorter truth; omega)
          simp only [Edge.isZero, Edge.isOne, zero, one, decide_false, Bool.false_eq_true,
            if_false, List.mem_append, List.mem_map]
          constructor
          · rintro (⟨rest, member, rfl⟩ | ⟨rest, member, rfl⟩)
            · exact .branch inner ((each true).mp member)
            · exact .branch inner ((each false).mp member)
          · intro leads
            cases leads with
            | one => exact absurd rfl one
            | @branch _ truth rest _ leads =>
                cases truth with
                | true => exact .inl ⟨rest, (each true).mpr leads, rfl⟩
                | false => exact .inr ⟨rest, (each false).mpr leads, rfl⟩

theorem nodup_pathList (manager : DiagramManager) (fuel : Nat) (edge : Edge) :
    (manager.pathList fuel edge).Nodup := by
  induction fuel generalizing edge with
  | zero => exact .nil
  | succ fuel ih =>
      rw [pathList]
      split
      · exact .nil
      · split
        · exact List.nodup_singleton _
        · have injective (branch : Nat × Bool) : Function.Injective (branch :: ·) :=
            fun _ _ same => List.tail_eq_of_cons_eq same
          refine .append ((ih _).map (injective _)) ((ih _).map (injective _)) ?_
          intro path isHigh isLow
          obtain ⟨_, -, rfl⟩ := List.mem_map.mp isHigh
          obtain ⟨_, -, same⟩ := List.mem_map.mp isLow
          cases same

theorem Ordered.ncard_leadsToOne (ordered : manager.Ordered bound) (owns : manager.Owns edge) :
    {path | manager.LeadsToOne edge path}.Finite ∧
      {path | manager.LeadsToOne edge path}.ncard =
        (manager.pathList (edge.index + 1) edge).length := by
  have listed : {path | manager.LeadsToOne edge path} =
      ((manager.pathList (edge.index + 1) edge).toFinset : Set (List (Nat × Bool))) := by
    ext path
    simp [ordered.mem_pathList _ owns (Nat.le_succ _)]
  rw [listed]
  refine ⟨Finset.finite_toSet _, ?_⟩
  rw [Set.ncard_coe_finset, List.toFinset_card_of_nodup (nodup_pathList ..)]

def branchLiteral (branch : Nat × Bool) : Int :=
  if branch.2 then literalOf branch.1 else -literalOf branch.1

/-- The enumeration appends the paths of an edge unless they exceed its limit. -/
theorem collectPaths_eq (limit fuel : Nat) (edge : Edge) (above : List Int)
    (found : Array (List Int)) (within : found.size ≤ limit) :
    manager.collectPaths limit fuel edge above found =
      if found.size + (manager.pathList fuel edge).length ≤ limit then
        some (found ++ ((manager.pathList fuel edge).map fun path =>
          above.reverse ++ path.map branchLiteral).toArray)
      else none := by
  induction fuel generalizing edge above found with
  | zero => simp [collectPaths, pathList, within]
  | succ fuel ih =>
      rw [collectPaths, pathList]
      split
      · simp [within]
      · split
        · by_cases room : found.size < limit
          · simp [room, Nat.succ_le_of_lt room]
          · simp [room]
        · dsimp only
          rw [ih _ _ _ within]
          by_cases fits : found.size +
              (manager.pathList fuel (manager.highOf edge)).length ≤ limit
          · simp only [fits, if_true]
            rw [ih _ _ _ (by simpa using fits)]
            simp only [Array.size_append, List.size_toArray, List.length_map, List.length_append,
              Nat.add_assoc]
            congr 1
            simp [branchLiteral, Function.comp_def]
          · simp only [fits, if_false]
            rw [if_neg]
            simp only [List.length_append, List.length_map]
            omega

theorem paths?_eq (edge : Edge) (limit : Nat) : manager.paths? edge limit =
    if (manager.pathList (edge.index + 1) edge).length ≤ limit then
      some ((manager.pathList (edge.index + 1) edge).map (List.map branchLiteral))
    else none := by
  rw [paths?, collectPaths_eq _ _ _ _ _ (Nat.zero_le _)]
  simp only [List.size_toArray, List.length_nil, Nat.zero_add, List.reverse_nil, List.nil_append]
  split <;> simp

/-- The single path leads to true. -/
theorem Ordered.exists_of_pathFrom (ordered : manager.Ordered bound) (fuel : Nat)
    (owns : manager.Owns edge) (satisfiable : edge ≠ .zero) (enough : edge.index ≤ fuel) :
    ∃ path, manager.LeadsToOne edge path ∧ manager.pathFrom fuel edge = path.map branchLiteral := by
  induction fuel generalizing edge with
  | zero =>
      have used := owns.1
      omega
  | succ fuel ih =>
      rw [pathFrom]
      by_cases one : edge = .one
      · subst one
        exact ⟨[], .one, by simp [Edge.isOne]⟩
      · have inner := Edge.index_ne_one one satisfiable
        have shorter (truth : Bool) := ordered.index_branchOf_lt owns inner truth
        have goesOn (truth : Bool) (satisfiable : manager.branchOf edge truth ≠ .zero) :=
          ih (ordered.owns_branchOf owns inner truth) satisfiable (by
            have := shorter truth
            omega)
        simp only [Edge.isOne, one, decide_false, Bool.false_eq_true, if_false]
        by_cases highZero : manager.highOf edge = .zero
        · obtain ⟨path, leads, same⟩ := goesOn false (by
            rw [← highZero]
            exact ordered.lowOf_ne_highOf owns inner)
          have same : manager.pathFrom fuel (manager.lowOf edge) = path.map branchLiteral := same
          refine ⟨_, .branch inner leads, ?_⟩
          simp [Edge.isZero, highZero, same, branchLiteral]
        · obtain ⟨path, leads, same⟩ := goesOn true highZero
          have same : manager.pathFrom fuel (manager.highOf edge) = path.map branchLiteral := same
          refine ⟨_, .branch inner leads, ?_⟩
          simp [Edge.isZero, highZero, same, branchLiteral]

/-- The variables that the function depends on are small enough for signed literals. -/
def HasLiterals (manager : DiagramManager) (edge : Edge) : Prop :=
  ∀ level, manager.DependsOn edge level → level < 2147483648

section Literals

variable {path : List (Nat × Bool)} (leads : manager.LeadsToOne edge path)
  (ordered : manager.Ordered bound) (owns : manager.Owns edge) (small : manager.HasLiterals edge)
include leads ordered owns small

theorem LeadsToOne.level_bounds {branch : Nat × Bool} (member : branch ∈ path) :
    1 ≤ branch.1 ∧ branch.1 < 2147483648 := by
  obtain ⟨lower, depends⟩ := (leads.levels ordered owns).2 branch member
  refine ⟨?_, small _ depends⟩
  by_cases inner : edge.index = 1
  · have positive := lower branch.1 (.inl inner)
    omega
  · exact lower 0 (.inr (ordered.placed_of_owns owns inner).level_pos)

theorem LeadsToOne.literals_hold_iff :
    ((path.map branchLiteral).all (LiteralHolds assignment)) = true ↔
      Follows assignment path := by
  rw [List.all_map, List.all_eq_true]
  refine forall₂_congr fun branch member => ?_
  obtain ⟨positive, small⟩ := leads.level_bounds ordered owns small member
  obtain ⟨holds, holds'⟩ := literalHolds_literalOf positive small assignment
  rw [Function.comp_apply, branchLiteral]
  cases truth : branch.2 with
  | true => simp [holds]
  | false => simp [holds']

theorem LeadsToOne.literals_increase :
    (path.map branchLiteral).Pairwise fun first second => first.natAbs < second.natAbs := by
  rw [List.pairwise_map]
  refine (leads.levels ordered owns).1.imp_of_mem fun {first second} inside inside' less => ?_
  have absolute {branch : Nat × Bool} (member : branch ∈ path) :
      (branchLiteral branch).natAbs = branch.1 := by
    obtain ⟨absolute, absolute'⟩ :=
      natAbs_literalOf (leads.level_bounds ordered owns small member).2
    unfold branchLiteral
    split
    · exact absolute
    · exact absolute'
  rwa [absolute inside, absolute inside']

end Literals

end DiagramManager

end AbstractionRefinement
