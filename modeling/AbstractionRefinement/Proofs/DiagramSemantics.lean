import AbstractionRefinement.DecisionDiagrams
import Mathlib

/-!
# The functions of decision diagrams

An edge stands for a truth function of the variables.  The nodes of a manager
are well placed when every node tests a variable of a smaller level than its
children do and its children have smaller indices, so that the function of an
edge is found by descending along the edges that an assignment selects.

A manager only ever gains nodes, and the function of an edge stays the same
while it does.
-/

namespace AbstractionRefinement

namespace Edge

@[simp]
theorem index_neg (edge : Edge) : (-edge).index = edge.index := by
  show (Edge.complement edge).index = edge.index
  simp [complement, index]

@[simp]
theorem index_one : one.index = 1 := rfl

@[simp]
theorem index_zero : zero.index = 1 := rfl

@[simp]
theorem isNegated_one : one.isNegated = false := rfl

@[simp]
theorem isNegated_zero : zero.isNegated = true := rfl

@[simp]
theorem neg_one : -one = zero := rfl

@[simp]
theorem neg_zero : -zero = one := rfl

@[simp]
theorem index_toNode (index : Nat) : (toNode index).index = index := by
  simp [toNode, Edge.index]

@[simp]
theorem isNegated_toNode (index : Nat) : (toNode index).isNegated = false :=
  decide_eq_false (Int.not_lt.mpr (Int.natCast_nonneg index))

theorem isNegated_neg {edge : Edge} (used : 1 ≤ edge.index) :
    (-edge).isNegated = !edge.isNegated := by
  show (Edge.complement edge).isNegated = !edge.isNegated
  unfold index at used
  simp only [complement, isNegated]
  by_cases negative : edge.code < 0 <;> simp [negative] <;> omega

theorem eq_of_index_of_isNegated {first second : Edge} (sameIndex : first.index = second.index)
    (sameSign : first.isNegated = second.isNegated) : first = second := by
  obtain ⟨code⟩ := first
  obtain ⟨code'⟩ := second
  simp only [index, isNegated, decide_eq_decide] at sameIndex sameSign
  congr 1
  omega

theorem isTerminal_iff (edge : Edge) : edge.isTerminal = true ↔ edge.index = 1 := by
  obtain ⟨code⟩ := edge
  simp only [isTerminal, isZero, isOne, zero, one, index, Bool.or_eq_true, decide_eq_true_eq,
    Edge.mk.injEq]
  omega

theorem index_ne_one {edge : Edge} (notOne : edge ≠ one) (notZero : edge ≠ zero) :
    edge.index ≠ 1 := by
  rw [Ne, ← isTerminal_iff]
  simp [isTerminal, isOne, isZero, notOne, notZero]

theorem eq_neg_iff {first second : Edge} : first = -second ↔ -first = second := by
  constructor
  · rintro rfl
    simp
  · rintro rfl
    simp

theorem one_ne_zero : one ≠ zero := by
  decide

theorem zero_ne_one : zero ≠ one := by
  decide

theorem index_ne_of_ne {first second : Edge} (differ : first ≠ second)
    (differ' : first ≠ -second) : first.index ≠ second.index := by
  intro same
  rcases Int.natAbs_eq_natAbs_iff.mp same with equal | opposite
  · exact differ (congrArg Edge.mk equal)
  · exact differ' (congrArg Edge.mk opposite)

theorem index_pos_of_ne_neg {edge : Edge} (differ : edge ≠ -edge) : 1 ≤ edge.index := by
  by_contra unused
  obtain ⟨code⟩ := edge
  have zero : code = 0 := by
    simp only [index] at unused
    omega
  subst zero
  exact differ rfl

theorem unsigned_injective {first second : Edge} (same : first.unsigned = second.unsigned) :
    first = second := by
  unfold unsigned at same
  have bound := Bool.toNat_le first.isNegated
  have bound' := Bool.toNat_le second.isNegated
  apply eq_of_index_of_isNegated
  · omega
  · have signs : first.isNegated.toNat = second.isNegated.toNat := by omega
    revert signs
    cases first.isNegated <;> cases second.isNegated <;> simp

end Edge

section Orders

open Std (TransOrd LawfulEqOrd TransCmp)

instance : TransOrd Edge :=
  inferInstanceAs (TransCmp (compareOn Edge.code))

instance : LawfulEqOrd Edge where
  eq_of_compare {first second} same := by
    cases first
    cases second
    exact congrArg Edge.mk (Std.compare_eq_iff_eq.mp same)
  compare_self := Std.compare_self

instance : TransOrd DiagramNode :=
  inferInstanceAs (TransCmp (compareLex (compareOn DiagramNode.level)
    (compareLex (compareOn DiagramNode.low) (compareOn DiagramNode.high))))

instance : LawfulEqOrd DiagramNode where
  eq_of_compare {first second} same := by
    obtain ⟨level, edges⟩ := Ordering.then_eq_eq.mp same
    obtain ⟨low, high⟩ := Ordering.then_eq_eq.mp edges
    cases first
    cases second
    simp_all [compareOn]
  compare_self := Std.compare_self

end Orders

namespace DiagramManager

/-- The value of the function of a node.  A child with a larger index does not
occur. -/
def nodeValue (manager : DiagramManager) (assignment : Nat → Bool) (index : Nat) : Bool :=
  if index ≤ 1 then true
  else
    let node := manager.nodeAt index
    let child := if assignment node.level then node.high else node.low
    if child.index < index then
      manager.nodeValue assignment child.index ^^ child.isNegated
    else false
termination_by index

/-- The value of the function of an edge. -/
def value (manager : DiagramManager) (assignment : Nat → Bool) (edge : Edge) : Bool :=
  manager.nodeValue assignment edge.index ^^ edge.isNegated

/-- The edge refers to the terminal or to a node. -/
def Owns (manager : DiagramManager) (edge : Edge) : Prop :=
  1 ≤ edge.index ∧ edge.index < manager.nodes.size

/-- The edge leads to the terminal or to a node of a larger level. -/
def Below (manager : DiagramManager) (level : Nat) (edge : Edge) : Prop :=
  edge.index = 1 ∨ level < manager.levelOf edge

/-- A node that tests a variable below the bound, with its place among the others. -/
structure WellPlaced (manager : DiagramManager) (bound index : Nat) (node : DiagramNode) :
    Prop where
  level_pos : 1 ≤ node.level
  level_lt : node.level < bound
  differ : node.low ≠ node.high
  high_plain : node.high.isNegated = false
  low_used : 1 ≤ node.low.index
  high_used : 1 ≤ node.high.index
  low_lt : node.low.index < index
  high_lt : node.high.index < index
  low_below : manager.Below node.level node.low
  high_below : manager.Below node.level node.high

/-- Every node is well placed and can be found by its contents. -/
structure Ordered (manager : DiagramManager) (bound : Nat) : Prop where
  terminals : 2 ≤ manager.nodes.size
  terminal_level : (manager.nodeAt 1).level = 0
  placed {index : Nat} : 2 ≤ index → index < manager.nodes.size →
    manager.WellPlaced bound index (manager.nodeAt index)
  unique_iff (node : DiagramNode) (index : Nat) : manager.unique[node]? = some index ↔
    2 ≤ index ∧ index < manager.nodes.size ∧ manager.nodeAt index = node

/-- Every node leads to smaller indices. -/
structure Grounded (manager : DiagramManager) : Prop where
  terminals : 2 ≤ manager.nodes.size
  terminal_level : (manager.nodeAt 1).level = 0
  level_pos {index : Nat} : 2 ≤ index → index < manager.nodes.size →
    1 ≤ (manager.nodeAt index).level
  low_descends {index : Nat} : 2 ≤ index → index < manager.nodes.size →
    1 ≤ (manager.nodeAt index).low.index ∧ (manager.nodeAt index).low.index < index
  high_descends {index : Nat} : 2 ≤ index → index < manager.nodes.size →
    1 ≤ (manager.nodeAt index).high.index ∧ (manager.nodeAt index).high.index < index

section Functions

variable {manager : DiagramManager} {bound : Nat} {assignment : Nat → Bool}

theorem Ordered.grounded (ordered : manager.Ordered bound) : manager.Grounded where
  terminals := ordered.terminals
  terminal_level := ordered.terminal_level
  level_pos le lt := (ordered.placed le lt).level_pos
  low_descends le lt := ⟨(ordered.placed le lt).low_used, (ordered.placed le lt).low_lt⟩
  high_descends le lt := ⟨(ordered.placed le lt).high_used, (ordered.placed le lt).high_lt⟩

@[simp]
theorem value_one : manager.value assignment .one = true := by
  simp [value, nodeValue]

@[simp]
theorem value_zero : manager.value assignment .zero = false := by
  simp [value, nodeValue]

theorem value_neg {edge : Edge} (used : 1 ≤ edge.index) :
    manager.value assignment (-edge) = !manager.value assignment edge := by
  simp [value, Edge.isNegated_neg used]

theorem Grounded.owns_one (grounded : manager.Grounded) : manager.Owns .one :=
  ⟨Nat.le_refl 1, grounded.terminals⟩

theorem Grounded.owns_zero (grounded : manager.Grounded) : manager.Owns .zero :=
  ⟨Nat.le_refl 1, grounded.terminals⟩

theorem owns_one (ordered : manager.Ordered bound) : manager.Owns .one :=
  ordered.grounded.owns_one

theorem owns_zero (ordered : manager.Ordered bound) : manager.Owns .zero :=
  ordered.grounded.owns_zero

theorem owns_neg {edge : Edge} : manager.Owns (-edge) ↔ manager.Owns edge := by
  simp [Owns]

theorem levelOf_neg (edge : Edge) : manager.levelOf (-edge) = manager.levelOf edge := by
  simp [levelOf]

theorem below_neg {level : Nat} {edge : Edge} :
    manager.Below level (-edge) ↔ manager.Below level edge := by
  simp [Below, levelOf_neg]

theorem below_one {level : Nat} : manager.Below level .one :=
  .inl rfl

theorem below_zero {level : Nat} : manager.Below level .zero :=
  .inl rfl

theorem Below.of_le {level level' : Nat} {edge : Edge} (below : manager.Below level edge)
    (le : level' ≤ level) : manager.Below level' edge := by
  rcases below with terminal | lt
  · exact .inl terminal
  · exact .inr (by omega)

theorem Ordered.placed_of_owns (ordered : manager.Ordered bound) {edge : Edge}
    (owns : manager.Owns edge) (inner : edge.index ≠ 1) :
    manager.WellPlaced bound edge.index (manager.nodeAt edge.index) := by
  have used := owns.1
  exact ordered.placed (by omega) owns.2

theorem Grounded.levelOf_pos (grounded : manager.Grounded) {edge : Edge}
    (owns : manager.Owns edge) : 1 ≤ manager.levelOf edge ↔ edge.index ≠ 1 := by
  constructor
  · intro positive terminal
    have level := grounded.terminal_level
    simp only [levelOf, terminal] at positive
    omega
  · intro inner
    have used := owns.1
    exact grounded.level_pos (by omega) owns.2

@[simp]
theorem index_lowOf (edge : Edge) :
    (manager.lowOf edge).index = (manager.nodeAt edge.index).low.index := by
  unfold lowOf
  split <;> simp

@[simp]
theorem index_highOf (edge : Edge) :
    (manager.highOf edge).index = (manager.nodeAt edge.index).high.index := by
  unfold highOf
  split <;> simp

section Children

variable {edge : Edge} (grounded : manager.Grounded) (owns : manager.Owns edge)
  (inner : edge.index ≠ 1)
include grounded owns inner

theorem Grounded.index_lowOf_lt : (manager.lowOf edge).index < edge.index := by
  rw [index_lowOf]
  have used := owns.1
  exact (grounded.low_descends (by omega) owns.2).2

theorem Grounded.index_highOf_lt : (manager.highOf edge).index < edge.index := by
  rw [index_highOf]
  have used := owns.1
  exact (grounded.high_descends (by omega) owns.2).2

theorem Grounded.owns_lowOf : manager.Owns (manager.lowOf edge) := by
  refine ⟨?_, Nat.lt_trans (grounded.index_lowOf_lt owns inner) owns.2⟩
  rw [index_lowOf]
  have used := owns.1
  exact (grounded.low_descends (by omega) owns.2).1

theorem Grounded.owns_highOf : manager.Owns (manager.highOf edge) := by
  refine ⟨?_, Nat.lt_trans (grounded.index_highOf_lt owns inner) owns.2⟩
  rw [index_highOf]
  have used := owns.1
  exact (grounded.high_descends (by omega) owns.2).1

end Children

theorem Ordered.owns_lowOf (ordered : manager.Ordered bound) {edge : Edge}
    (owns : manager.Owns edge) (inner : edge.index ≠ 1) : manager.Owns (manager.lowOf edge) :=
  ordered.grounded.owns_lowOf owns inner

theorem Ordered.owns_highOf (ordered : manager.Ordered bound) {edge : Edge}
    (owns : manager.Owns edge) (inner : edge.index ≠ 1) :
    manager.Owns (manager.highOf edge) :=
  ordered.grounded.owns_highOf owns inner

theorem Ordered.below_lowOf (ordered : manager.Ordered bound) {edge : Edge}
    (owns : manager.Owns edge) (inner : edge.index ≠ 1) :
    manager.Below (manager.levelOf edge) (manager.lowOf edge) := by
  have below := (ordered.placed_of_owns owns inner).low_below
  unfold lowOf
  split
  · exact below_neg.mpr below
  · exact below

theorem Ordered.below_highOf (ordered : manager.Ordered bound) {edge : Edge}
    (owns : manager.Owns edge) (inner : edge.index ≠ 1) :
    manager.Below (manager.levelOf edge) (manager.highOf edge) := by
  have below := (ordered.placed_of_owns owns inner).high_below
  unfold highOf
  split
  · exact below_neg.mpr below
  · exact below

theorem Ordered.lowOf_ne_highOf (ordered : manager.Ordered bound) {edge : Edge}
    (owns : manager.Owns edge) (inner : edge.index ≠ 1) :
    manager.lowOf edge ≠ manager.highOf edge := by
  have differ := (ordered.placed_of_owns owns inner).differ
  unfold lowOf highOf
  split
  · rw [Ne, Edge.eq_neg_iff, Edge.neg_neg]
    exact differ
  · exact differ

/-- The function of an edge chooses between its cofactors by the variable of its
root. -/
theorem Ordered.value_eq (ordered : manager.Ordered bound) {edge : Edge}
    (owns : manager.Owns edge) (inner : edge.index ≠ 1) :
    manager.value assignment edge =
      if assignment (manager.levelOf edge) then manager.value assignment (manager.highOf edge)
      else manager.value assignment (manager.lowOf edge) := by
  have placed := ordered.placed_of_owns owns inner
  have used := owns.1
  have nodeEq : manager.nodeValue assignment edge.index =
      if assignment (manager.levelOf edge) then
        manager.value assignment (manager.nodeAt edge.index).high
      else manager.value assignment (manager.nodeAt edge.index).low := by
    rw [nodeValue, if_neg (by omega)]
    by_cases selected : assignment (manager.levelOf edge)
    · simp only [levelOf] at selected
      simp [levelOf, selected, placed.high_lt, value]
    · simp only [levelOf] at selected
      simp [levelOf, selected, placed.low_lt, value]
  rw [value, nodeEq, lowOf, highOf]
  by_cases negated : edge.isNegated
  · simp only [negated, if_true, Bool.xor_true]
    rw [value_neg placed.high_used, value_neg placed.low_used]
    split <;> rfl
  · simp [negated]

end Functions

/-- The nodes of the first manager are nodes of the second one, and an exhausted
manager stays exhausted. -/
structure Extends (before after : DiagramManager) : Prop where
  size_le : before.nodes.size ≤ after.nodes.size
  nodeAt_eq {index : Nat} : index < before.nodes.size →
    after.nodeAt index = before.nodeAt index
  nodeLimit_eq : after.nodeLimit = before.nodeLimit
  unexhausted : after.exhaustion = none → before.exhaustion = none

namespace Extends

variable {before middle after : DiagramManager} {bound : Nat} {edge : Edge}

theorem refl (manager : DiagramManager) : manager.Extends manager :=
  ⟨Nat.le_refl _, fun _ => rfl, rfl, id⟩

theorem trans (first : before.Extends middle) (second : middle.Extends after) :
    before.Extends after where
  size_le := Nat.le_trans first.size_le second.size_le
  nodeAt_eq {index} lt := by
    rw [second.nodeAt_eq (Nat.lt_of_lt_of_le lt first.size_le), first.nodeAt_eq lt]
  nodeLimit_eq := by rw [second.nodeLimit_eq, first.nodeLimit_eq]
  unexhausted := first.unexhausted ∘ second.unexhausted

theorem owns (extends_ : before.Extends after) (owns : before.Owns edge) : after.Owns edge :=
  ⟨owns.1, Nat.lt_of_lt_of_le owns.2 extends_.size_le⟩

theorem levelOf_eq (extends_ : before.Extends after) (owns : before.Owns edge) :
    after.levelOf edge = before.levelOf edge := by
  unfold levelOf
  rw [extends_.nodeAt_eq owns.2]

theorem lowOf_eq (extends_ : before.Extends after) (owns : before.Owns edge) :
    after.lowOf edge = before.lowOf edge := by
  unfold lowOf
  rw [extends_.nodeAt_eq owns.2]

theorem highOf_eq (extends_ : before.Extends after) (owns : before.Owns edge) :
    after.highOf edge = before.highOf edge := by
  unfold highOf
  rw [extends_.nodeAt_eq owns.2]

theorem below_iff (extends_ : before.Extends after) (owns : before.Owns edge) {level : Nat} :
    after.Below level edge ↔ before.Below level edge := by
  unfold Below
  rw [extends_.levelOf_eq owns]

/-- The function of an edge stays the same. -/
theorem value_eq (extends_ : before.Extends after) (ordered : before.Ordered bound)
    (owns : before.Owns edge) (assignment : Nat → Bool) :
    after.value assignment edge = before.value assignment edge := by
  have nodeEq (index : Nat) (bound : index < before.nodes.size) :
      after.nodeValue assignment index = before.nodeValue assignment index := by
    induction index using Nat.strongRecOn with
    | ind index ih =>
      rw [nodeValue, nodeValue, extends_.nodeAt_eq bound]
      by_cases terminal : index ≤ 1
      · simp [terminal]
      · have placed := ordered.placed (by omega) bound
        have highEq := ih _ placed.high_lt (Nat.lt_trans placed.high_lt bound)
        have lowEq := ih _ placed.low_lt (Nat.lt_trans placed.low_lt bound)
        simp only [terminal, if_false]
        split <;> simp [placed.high_lt, placed.low_lt, highEq, lowEq]
  unfold value
  rw [nodeEq edge.index owns.2]

end Extends

end DiagramManager

end AbstractionRefinement
