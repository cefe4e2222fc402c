import AbstractionRefinement.DecisionDiagramQueries
import AbstractionRefinement.Proofs.DiagramCanonicity
import AbstractionRefinement.Proofs.OrderedCollectionLaws

/-!
# Support of decision diagrams

The nodes of a function are found by descending to the children of nodes that were not
visited before.  The search visits what was visited before and what is reachable from its
start, and leaves no child of a newly visited node out.  The levels of the reachable nodes
are exactly those that the function depends on.
-/

namespace AbstractionRefinement

namespace DiagramManager

variable {manager : DiagramManager} {bound : Nat} {edge : Edge}

/-- The second node is reached from the first one by descending to children. -/
inductive Descends (manager : DiagramManager) : Nat → Nat → Prop
  | refl {index : Nat} : Descends manager index index
  | low {index other : Nat} : index ≠ 1 →
      Descends manager (manager.nodeAt index).low.index other → Descends manager index other
  | high {index other : Nat} : index ≠ 1 →
      Descends manager (manager.nodeAt index).high.index other → Descends manager index other

/-- The search from a node ends with all that it visited before, the node, and nodes below
it.  No child of a node that it visited is left out. -/
structure Searched (manager : DiagramManager) (index : Nat) (before after : Std.TreeSet Nat) :
    Prop where
  keeps {other : Nat} : other ∈ before → other ∈ after
  starts : index ∈ after
  descends {other : Nat} : other ∈ after → other ∈ before ∨ manager.Descends index other
  closed {other : Nat} : other ∈ after → other ∉ before → other ≠ 1 →
    (manager.nodeAt other).low.index ∈ after ∧ (manager.nodeAt other).high.index ∈ after

theorem Searched.terminal (before : Std.TreeSet Nat) :
    manager.Searched 1 before (before.insert 1) := by
  have mem_insert {other : Nat} : other ∈ before.insert 1 ↔ 1 = other ∨ other ∈ before := by
    simp [Std.TreeSet.mem_insert]
  refine ⟨fun isBefore => mem_insert.mpr (.inr isBefore), mem_insert.mpr (.inl rfl),
    fun isAfter => ?_, fun isAfter isNew inner => ?_⟩
  · rcases mem_insert.mp isAfter with rfl | isBefore
    · exact .inr .refl
    · exact .inl isBefore
  · rcases mem_insert.mp isAfter with rfl | isBefore
    · exact absurd rfl inner
    · exact absurd isBefore isNew

/-- A search from a node visits the node and searches from both its children. -/
theorem Searched.node {index : Nat} {before middle after : Std.TreeSet Nat} (inner : index ≠ 1)
    (first : manager.Searched (manager.nodeAt index).high.index (before.insert index) middle)
    (second : manager.Searched (manager.nodeAt index).low.index middle after) :
    manager.Searched index before after := by
  have mem_insert {other : Nat} : other ∈ before.insert index ↔
      index = other ∨ other ∈ before := by
    simp [Std.TreeSet.mem_insert]
  refine ⟨fun isBefore => second.keeps (first.keeps (mem_insert.mpr (.inr isBefore))),
    second.keeps (first.keeps (mem_insert.mpr (.inl rfl))), fun isAfter => ?_,
    fun {other} isAfter isNew inner' => ?_⟩
  · rcases second.descends isAfter with isMiddle | below
    · rcases first.descends isMiddle with isInserted | below
      · rcases mem_insert.mp isInserted with rfl | isBefore
        · exact .inr .refl
        · exact .inl isBefore
      · exact .inr (.high inner below)
    · exact .inr (.low inner below)
  · by_cases isMiddle : other ∈ middle
    · by_cases isInserted : other ∈ before.insert index
      · rcases mem_insert.mp isInserted with rfl | isBefore
        · exact ⟨second.starts, second.keeps first.starts⟩
        · exact absurd isBefore isNew
      · exact (first.closed isMiddle isInserted inner').imp second.keeps second.keeps
    · exact second.closed isAfter isMiddle inner'

theorem Grounded.searched (grounded : manager.Grounded) (fuel : Nat) {index : Nat}
    (used : 1 ≤ index) (inside : index < manager.nodes.size) (enough : index ≤ fuel)
    (visited : Std.TreeSet Nat) :
    manager.Searched index visited (manager.collectReachable fuel index visited) := by
  induction fuel generalizing index visited with
  | zero => omega
  | succ fuel ih =>
      rw [collectReachable]
      by_cases known : visited.contains index
      · rw [if_pos known]
        have member : index ∈ visited := known
        exact ⟨id, member, .inl, fun isAfter isNew => absurd isAfter isNew⟩
      rw [if_neg known]
      dsimp only
      by_cases terminal : index = 1
      · rw [if_pos terminal, terminal]
        exact .terminal visited
      · rw [if_neg terminal]
        have low := grounded.low_descends (by omega : 2 ≤ index) inside
        have high := grounded.high_descends (by omega : 2 ≤ index) inside
        exact .node terminal (ih high.1 (by omega) (by omega) (visited.insert index))
          (ih low.1 (by omega) (by omega) _)

theorem Searched.mem_iff {index other : Nat} {after : Std.TreeSet Nat}
    (searched : manager.Searched index ∅ after) :
    other ∈ after ↔ manager.Descends index other := by
  have nothing {other : Nat} : other ∉ (∅ : Std.TreeSet Nat) := Std.TreeSet.not_mem_emptyc
  have below {start other : Nat} (descends : manager.Descends start other)
      (isAfter : start ∈ after) : other ∈ after := by
    induction descends with
    | refl => exact isAfter
    | low inner _ ih => exact ih (searched.closed isAfter nothing inner).1
    | high inner _ ih => exact ih (searched.closed isAfter nothing inner).2
  exact ⟨fun isAfter => (searched.descends isAfter).resolve_left nothing,
    fun descends => below descends searched.starts⟩

theorem Grounded.mem_reachable (grounded : manager.Grounded) (owns : manager.Owns edge)
    {index : Nat} : index ∈ manager.reachable edge ↔ manager.Descends edge.index index :=
  (grounded.searched (edge.index + 1) owns.1 owns.2 (Nat.le_succ _) ∅).mem_iff

/-- A function depends on the levels of its nodes only. -/
theorem Ordered.exists_of_dependsOn (ordered : manager.Ordered bound) (owns : manager.Owns edge)
    {level : Nat} (depends : manager.DependsOn edge level) :
    ∃ index, manager.Descends edge.index index ∧ index ≠ 1 ∧
      (manager.nodeAt index).level = level := by
  induction index : edge.index using Nat.strongRecOn generalizing edge with
  | ind index ih =>
      subst index
      obtain ⟨assignment, differ⟩ := depends
      by_cases inner : edge.index = 1
      · rcases Bool.or_eq_true _ _ |>.mp ((Edge.isTerminal_iff edge).mpr inner) with zero | one
        · rw [of_decide_eq_true zero, value_zero, value_zero] at differ
          exact absurd rfl differ
        · rw [of_decide_eq_true one, value_one, value_one] at differ
          exact absurd rfl differ
      by_cases same : manager.levelOf edge = level
      · exact ⟨edge.index, .refl, inner, same⟩
      rw [ordered.value_eq owns inner, ordered.value_eq owns inner, Function.update_of_ne same,
        Function.update_of_ne same] at differ
      split at differ
      · obtain ⟨index, descends, rest⟩ := ih _ (ordered.grounded.index_highOf_lt owns inner)
          (ordered.owns_highOf owns inner) ⟨assignment, differ⟩ rfl
        rw [index_highOf] at descends
        exact ⟨index, .high inner descends, rest⟩
      · obtain ⟨index, descends, rest⟩ := ih _ (ordered.grounded.index_lowOf_lt owns inner)
          (ordered.owns_lowOf owns inner) ⟨assignment, differ⟩ rfl
        rw [index_lowOf] at descends
        exact ⟨index, .low inner descends, rest⟩

/-- A function depends on the levels of its nodes. -/
theorem Ordered.dependsOn_of_descends (ordered : manager.Ordered bound) {start index : Nat}
    (descends : manager.Descends start index) (inner : index ≠ 1) (owns : manager.Owns edge)
    (isStart : edge.index = start) : manager.DependsOn edge (manager.nodeAt index).level := by
  induction descends generalizing edge with
  | refl =>
      subst isStart
      exact ordered.dependsOn_levelOf owns inner
  | low innerStart _ ih =>
      subst isStart
      exact ordered.dependsOn_of_cofactor owns innerStart
        (.inl (ih inner (ordered.owns_lowOf owns innerStart) (index_lowOf edge)))
  | high innerStart _ ih =>
      subst isStart
      exact ordered.dependsOn_of_cofactor owns innerStart
        (.inr (ih inner (ordered.owns_highOf owns innerStart) (index_highOf edge)))

/-- The support of a function consists of the variables that it depends on. -/
theorem Ordered.mem_support (ordered : manager.Ordered bound) (owns : manager.Owns edge)
    {level : Nat} : level ∈ manager.support edge ↔ manager.DependsOn edge level := by
  rw [support, OrderedSet.mem_ofList, List.mem_map]
  constructor
  · rintro ⟨index, member, rfl⟩
    obtain ⟨isReachable, inner⟩ := List.mem_filter.mp member
    have descends := (ordered.grounded.mem_reachable owns).mp (Std.TreeSet.mem_toList.mp isReachable)
    exact ordered.dependsOn_of_descends descends (by simpa using inner) owns rfl
  · intro depends
    obtain ⟨index, descends, inner, rfl⟩ := ordered.exists_of_dependsOn owns depends
    exact ⟨index, List.mem_filter.mpr ⟨Std.TreeSet.mem_toList.mpr
      ((ordered.grounded.mem_reachable owns).mpr descends), by simpa using inner⟩, rfl⟩

end DiagramManager

end AbstractionRefinement
