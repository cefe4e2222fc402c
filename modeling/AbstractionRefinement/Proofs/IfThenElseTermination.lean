import AbstractionRefinement.Proofs.NodeBudgets

/-!
# Termination of if-then-else

The recursion of the if-then-else operation is described without a bound on its
depth, with every condition it relies on: the root of the condition has a level, and
cofactors are taken at or above the roots.  Over a manager that keeps only edges to
its own nodes the recursion ends for all operands, with the result that the bounded
recursion gives.  No assumption on keys is made: results remembered for another call
do not disturb the descent.
-/

namespace AbstractionRefinement

namespace DiagramManager

/-- The nodes lead to smaller indices, and the edges that the manager keeps are its
own. -/
structure Closed (manager : DiagramManager) : Prop extends manager.Grounded where
  unique_owned {node : DiagramNode} {index : Nat} : manager.unique[node]? = some index →
    2 ≤ index ∧ index < manager.nodes.size
  computed_owned {slot key : UInt64} {edge : Edge} :
    manager.computed.slots[slot]? = some (key, edge) → manager.Owns edge

/-- An operation leads to a closed manager that has the nodes it had, and returns an edge
of it. -/
structure Keeps (before : DiagramManager) (outcome : Edge × DiagramManager) : Prop where
  closed : outcome.2.Closed
  grown : before.Extends outcome.2
  owns : outcome.2.Owns outcome.1

variable {manager middle after : DiagramManager}

theorem Keeps.trans {first second : Edge × DiagramManager} (keeps : manager.Keeps first)
    (keeps' : first.2.Keeps second) : manager.Keeps second :=
  ⟨keeps'.closed, keeps.grown.trans keeps'.grown, keeps'.owns⟩

theorem closed_new (cacheBits nodeLimit : Nat) : (new cacheBits nodeLimit).Closed where
  terminals := Nat.le_refl 2
  terminal_level := rfl
  level_pos {index} le lt := by
    have two : (new cacheBits nodeLimit).nodes.size = 2 := rfl
    omega
  low_descends {index} le lt := by
    have two : (new cacheBits nodeLimit).nodes.size = 2 := rfl
    omega
  high_descends {index} le lt := by
    have two : (new cacheBits nodeLimit).nodes.size = 2 := rfl
    omega
  unique_owned {node index} found := by
    have none : (new cacheBits nodeLimit).unique[node]? = none := Std.TreeMap.getElem?_emptyc
    rw [none] at found
    cases found
  computed_owned {slot key edge} found := by
    have none : (new cacheBits nodeLimit).computed.slots[slot]? = none :=
      Std.TreeMap.getElem?_emptyc
    rw [none] at found
    cases found

theorem Closed.withExhaustion (closed : manager.Closed) (exhaustion : Option Exhaustion) :
    { manager with exhaustion }.Closed :=
  ⟨⟨closed.terminals, closed.terminal_level, closed.level_pos, closed.low_descends,
    closed.high_descends⟩, closed.unique_owned, closed.computed_owned⟩

theorem Closed.countLookup (closed : manager.Closed) (found : Bool) :
    { manager with computed := manager.computed.countLookup found }.Closed :=
  ⟨⟨closed.terminals, closed.terminal_level, closed.level_pos, closed.low_descends,
    closed.high_descends⟩, closed.unique_owned, closed.computed_owned⟩

theorem Closed.store (closed : manager.Closed) (key : UInt64) {edge : Edge}
    (owns : manager.Owns edge) :
    { manager with computed := manager.computed.store key edge }.Closed := by
  refine ⟨⟨closed.terminals, closed.terminal_level, closed.level_pos, closed.low_descends,
    closed.high_descends⟩, closed.unique_owned, ?_⟩
  intro slot key' edge' found
  have insertion : (manager.computed.store key edge).slots[slot]? =
      if compare (key &&& manager.computed.mask) slot = .eq then some (key, edge)
      else manager.computed.slots[slot]? :=
    Std.TreeMap.getElem?_insert
  have found' : (manager.computed.store key edge).slots[slot]? = some (key', edge') := found
  rw [insertion] at found'
  split at found'
  · cases found'
    exact owns
  · exact closed.computed_owned found'

theorem Closed.withNode (closed : manager.Closed) {node : DiagramNode} (level_pos : 1 ≤ node.level)
    (ownsLow : manager.Owns node.low) (ownsHigh : manager.Owns node.high) :
    (manager.withNode node).Closed := by
  have size : (manager.withNode node).nodes.size = manager.nodes.size + 1 := Array.size_push node
  have terminals := closed.terminals
  refine ⟨⟨by omega, ?_, ?_, ?_, ?_⟩, ?_, ?_⟩
  · rw [nodeAt_withNode, if_neg (by omega)]
    exact closed.terminal_level
  · intro index le lt
    rw [nodeAt_withNode]
    split
    · exact level_pos
    · exact closed.level_pos le (by omega)
  · intro index le lt
    rw [nodeAt_withNode]
    split
    case isTrue last => exact ⟨ownsLow.1, last ▸ ownsLow.2⟩
    case isFalse => exact closed.low_descends le (by omega)
  · intro index le lt
    rw [nodeAt_withNode]
    split
    case isTrue last => exact ⟨ownsHigh.1, last ▸ ownsHigh.2⟩
    case isFalse => exact closed.high_descends le (by omega)
  · intro other index found
    have insertion : (manager.withNode node).unique[other]? =
        if compare node other = .eq then some manager.nodes.size else manager.unique[other]? :=
      Std.TreeMap.getElem?_insert
    rw [insertion] at found
    split at found
    · cases found
      omega
    · have owned := closed.unique_owned found
      omega
  · intro slot key edge found
    exact (manager.extends_withNode node).owns (closed.computed_owned found)

theorem shareNode_keeps (closed : manager.Closed) {node : DiagramNode} (level_pos : 1 ≤ node.level)
    (ownsLow : manager.Owns node.low) (ownsHigh : manager.Owns node.high) :
    manager.Keeps (shareNode node manager) := by
  have ownsZero := closed.owns_zero
  have shared := sharing_shareNode node manager
  generalize shareNode node manager = outcome at shared
  rcases shared with - | ⟨-, found⟩ | - | ⟨-, -, none, -⟩ | ⟨-, -, none, -, -⟩ |
    ⟨differ, fresh, none, room, -⟩
  case redundant => exact ⟨closed, .refl manager, ownsLow⟩
  case known index =>
    obtain ⟨le, lt⟩ := closed.unique_owned found
    refine ⟨closed, .refl manager, ?_⟩
    simp only [Owns, Edge.index_toNode]
    omega
  case refused => exact ⟨closed, .refl manager, ownsZero⟩
  case full =>
    exact ⟨closed.withExhaustion _, ⟨Nat.le_refl _, fun _ => rfl, rfl, by rintro ⟨⟩⟩, ownsZero⟩
  case late =>
    exact ⟨closed.withExhaustion _, ⟨Nat.le_refl _, fun _ => rfl, rfl, by rintro ⟨⟩⟩, ownsZero⟩
  case allocated =>
    have size : (manager.withNode node).nodes.size = manager.nodes.size + 1 := Array.size_push node
    have terminals := closed.terminals
    refine ⟨closed.withNode level_pos ownsLow ownsHigh, manager.extends_withNode node, ?_⟩
    simp only [Owns, Edge.index_toNode]
    omega

theorem makeNode_keeps (closed : manager.Closed) {level : Nat} {low high : Edge}
    (level_pos : 1 ≤ level) (ownsLow : manager.Owns low) (ownsHigh : manager.Owns high) :
    manager.Keeps (makeNode level low high manager) := by
  unfold makeNode
  split
  · have keeps := @shareNode_keeps manager closed ⟨level, -low, -high⟩ level_pos
      (owns_neg.mpr ownsLow) (owns_neg.mpr ownsHigh)
    exact ⟨keeps.closed, keeps.grown, owns_neg.mpr keeps.owns⟩
  · exact @shareNode_keeps manager closed ⟨level, low, high⟩ level_pos ownsLow ownsHigh

/-- The recursion of the if-then-else operation ends with the edge and the manager. -/
inductive IteRun : DiagramManager → Edge → Edge → Edge → Edge × DiagramManager → Prop
  | done {manager : DiagramManager} {f g h result : Edge} :
      manager.iteStep f g h = .done result → IteRun manager f g h (result, manager)
  | again {manager : DiagramManager} {f g h f' g' h' : Edge} {outcome : Edge × DiagramManager} :
      manager.iteStep f g h = .again f' g' h' → manager.levelOf f ≠ 0 →
      IteRun manager f' g' h' outcome → IteRun manager f g h outcome
  | remembered {manager : DiagramManager} {f g h f' g' h' result : Edge} {negate : Bool} :
      manager.iteStep f g h = .open → manager.levelOf f ≠ 0 →
      normalOperands f g h = (f', g', h', negate) →
      manager.computed.peek (iteKey f' g' h') = some result →
      IteRun manager f g h (if negate then -result else result,
        { manager with computed := manager.computed.countLookup true })
  | split {manager : DiagramManager} {f g h f' g' h' f₀ f₁ g₀ g₁ h₀ h₁ : Edge} {negate : Bool}
      {low high node : Edge × DiagramManager} :
      manager.iteStep f g h = .open → manager.levelOf f ≠ 0 →
      normalOperands f g h = (f', g', h', negate) →
      manager.computed.peek (iteKey f' g' h') = none →
      manager.cofactors? (manager.topLevel f' g' h') f' = some (f₀, f₁) →
      manager.cofactors? (manager.topLevel f' g' h') g' = some (g₀, g₁) →
      manager.cofactors? (manager.topLevel f' g' h') h' = some (h₀, h₁) →
      IteRun { manager with computed := manager.computed.countLookup false } f₀ g₀ h₀ low →
      IteRun low.2 f₁ g₁ h₁ high →
      makeNode? (manager.topLevel f' g' h') low.1 high.1 high.2 = some node →
      IteRun manager f g h (if negate then -node.1 else node.1,
        { node.2 with computed := node.2.computed.store (iteKey f' g' h') node.1 })

theorem owns_of_done (grounded : manager.Grounded) {f g h result : Edge}
    (ownsF : manager.Owns f) (ownsG : manager.Owns g) (ownsH : manager.Owns h)
    (step : manager.iteStep f g h = .done result) : manager.Owns result := by
  have ownsOne := grounded.owns_one
  have ownsZero := grounded.owns_zero
  have ownsNeg : manager.Owns (-f) := owns_neg.mpr ownsF
  simp only [iteStep, ite_eq_iff, IteStep.done.injEq, reduceCtorEq, and_false, or_false] at step
  rcases step with ⟨-, rfl⟩ | ⟨-, ⟨-, rfl⟩ | ⟨-, ⟨-, rfl⟩ | ⟨-, ⟨-, rfl⟩ | ⟨-, ⟨-, rfl⟩ |
    ⟨-, ⟨-, rfl⟩ | ⟨-, ⟨-, rfl⟩ | ⟨-, ⟨-, rfl⟩ | ⟨-, -, rfl⟩⟩⟩⟩⟩⟩⟩⟩
  all_goals assumption

theorem Closed.owns_of_peek (closed : manager.Closed) {key : UInt64} {edge : Edge}
    (found : manager.computed.peek key = some edge) : manager.Owns edge := by
  unfold ComputedTable.peek at found
  split at found
  case h_2 => cases found
  case h_1 stored result slot =>
    simp only [Option.ite_none_right_eq_some, Option.some.injEq] at found
    obtain ⟨rfl, rfl⟩ := found
    exact closed.computed_owned slot

theorem cofactors?_eq_some {level : Nat} {edge : Edge} (positive : 1 ≤ level)
    (reaches : edge.index = 1 ∨ level ≤ manager.levelOf edge) :
    manager.cofactors? level edge = some (manager.cofactors level edge) := by
  unfold cofactors?
  rw [if_neg (by omega), if_pos]
  rw [Bool.or_eq_true, Edge.isTerminal_iff, decide_eq_true_eq]
  exact reaches

section Descent

variable {fuel : Nat} {f g h : Edge}
  (descends : ∀ {manager : DiagramManager} {f g h : Edge}, manager.Closed → manager.Owns f →
    manager.Owns g → manager.Owns h → manager.Fueled fuel f g h →
      manager.Keeps (iteWithin fuel f g h manager) ∧
        IteRun manager f g h (iteWithin fuel f g h manager))
include descends

/-- A call that is left to its cofactors ends. -/
theorem iteRun_iteOfNormal (closed : manager.Closed) (ownsF : manager.Owns f)
    (ownsG : manager.Owns g) (ownsH : manager.Owns h) (step : manager.iteStep f g h = .open)
    (enough : 3 * weight f g h ≤ fuel) :
    manager.Keeps (iteOfNormal fuel f g h manager) ∧
      IteRun manager f g h (iteOfNormal fuel f g h manager) := by
  obtain ⟨⟨f', g', h', negate⟩, normal⟩ : ∃ operands, normalOperands f g h = operands := ⟨_, rfl⟩
  obtain ⟨ownsF', ownsG', ownsH'⟩ := owns_normalOperands ownsF ownsG ownsH normal
  have lighter := weight_normalOperands normal
  have rooted : manager.levelOf f ≠ 0 :=
    Nat.pos_iff_ne_zero.mp ((closed.levelOf_pos ownsF).mpr (inner_of_open step))
  rw [iteOfNormal_eq normal, iteNormal_eq]
  have complement {outcome : Edge × DiagramManager} (keeps : manager.Keeps outcome) :
      manager.Keeps (if negate then -outcome.1 else outcome.1, outcome.2) := by
    refine ⟨keeps.closed, keeps.grown, ?_⟩
    show outcome.2.Owns (if negate then -outcome.1 else outcome.1)
    split
    · exact owns_neg.mpr keeps.owns
    · exact keeps.owns
  cases found : manager.computed.peek (iteKey f' g' h') with
  | some result =>
      exact ⟨complement ⟨closed.countLookup true, ⟨Nat.le_refl _, fun _ => rfl, rfl, id⟩,
        closed.owns_of_peek found⟩, .remembered step rooted normal found⟩
  | none =>
      have inner' := inner_of_open (open_normalOperands step normal)
      obtain ⟨reaches, attained⟩ := topLevel_spec closed.toGrounded ownsF' ownsG' ownsH' inner'
      obtain ⟨lowWeight, highWeight⟩ :=
        weight_cofactors_lt closed.toGrounded ownsF' ownsG' ownsH' attained
      have positive : 1 ≤ manager.topLevel f' g' h' := by
        obtain ⟨edge, member, inner, atTop⟩ := attained
        have owns : manager.Owns edge := by
          simp only [List.mem_cons, List.not_mem_nil, or_false] at member
          rcases member with rfl | rfl | rfl <;> assumption
        rw [← atTop]
        exact (closed.levelOf_pos owns).mpr inner
      have ownsCofactors {edge : Edge} (owns : manager.Owns edge) :=
        closed.owns_cofactors owns (manager.topLevel f' g' h')
      obtain ⟨keepsLow, runLow⟩ := descends (closed.countLookup false) (ownsCofactors ownsF').1
        (ownsCofactors ownsG').1 (ownsCofactors ownsH').1 (.inl (by omega))
      obtain ⟨keepsHigh, runHigh⟩ := descends keepsLow.closed
        (keepsLow.grown.owns (ownsCofactors ownsF').2) (keepsLow.grown.owns (ownsCofactors ownsG').2)
        (keepsLow.grown.owns (ownsCofactors ownsH').2) (.inl (by omega))
      have keepsNode := makeNode_keeps keepsHigh.closed positive (keepsHigh.grown.owns keepsLow.owns)
        keepsHigh.owns
      have counted : manager.Extends
          { manager with computed := manager.computed.countLookup false } :=
        ⟨Nat.le_refl _, fun _ => rfl, rfl, id⟩
      have stored (node : Edge × DiagramManager) : node.2.Extends
          { node.2 with computed := node.2.computed.store (iteKey f' g' h') node.1 } :=
        ⟨Nat.le_refl _, fun _ => rfl, rfl, id⟩
      have run := IteRun.split step rooted normal found
        (cofactors?_eq_some positive (reaches f' (by simp)))
        (cofactors?_eq_some positive (reaches g' (by simp)))
        (cofactors?_eq_some positive (reaches h' (by simp))) runLow runHigh
        (if_neg (Nat.pos_iff_ne_zero.mp positive))
      refine ⟨complement ⟨keepsNode.closed.store _ keepsNode.owns, ?_, ?_⟩, run⟩
      · exact (counted.trans (keepsLow.grown.trans (keepsHigh.grown.trans keepsNode.grown))).trans
          (stored _)
      · exact (stored _).owns keepsNode.owns

end Descent

/-- With enough fuel the recursion ends, and the bounded recursion gives its outcome. -/
theorem iteRun_iteWithin {fuel : Nat} {f g h : Edge} (closed : manager.Closed)
    (ownsF : manager.Owns f) (ownsG : manager.Owns g) (ownsH : manager.Owns h)
    (fueled : manager.Fueled fuel f g h) :
    manager.Keeps (iteWithin fuel f g h manager) ∧
      IteRun manager f g h (iteWithin fuel f g h manager) := by
  induction fuel generalizing manager f g h with
  | zero => rcases fueled with enough | ⟨-, enough⟩ | ⟨-, enough, -⟩ <;> omega
  | succ fuel ih =>
      rw [iteWithin_succ]
      cases step : manager.iteStep f g h with
      | done result =>
          exact ⟨⟨closed, .refl manager, owns_of_done closed.toGrounded ownsF ownsG ownsH step⟩,
            .done step⟩
      | again f' g' h' =>
          obtain ⟨ownsF', ownsG', ownsH'⟩ :=
            owns_of_again closed.toGrounded ownsF ownsG ownsH step
          obtain ⟨keeps, run⟩ := ih closed ownsF' ownsG' ownsH'
            (fueled.of_again closed.toGrounded ownsF ownsG ownsH step)
          obtain ⟨notOne, notZero, -⟩ := again_cases step
          have rooted := (closed.levelOf_pos ownsF).mpr (Edge.index_ne_one notOne notZero)
          exact ⟨keeps, .again step (Nat.pos_iff_ne_zero.mp rooted) run⟩
      | «open» =>
          exact iteRun_iteOfNormal ih closed ownsF ownsG ownsH step (fueled.of_open step)

/-- The recursion has one outcome. -/
theorem IteRun.unique {f g h : Edge} {outcome outcome' : Edge × DiagramManager}
    (run : IteRun manager f g h outcome) (run' : IteRun manager f g h outcome') :
    outcome = outcome' := by
  induction run generalizing outcome' with
  | done step =>
      cases run' <;> simp_all
  | again step _ _ ih =>
      cases run' with
      | again step' _ run' =>
          rw [step] at step'
          cases step'
          exact ih run'
      | done step' => simp_all
      | remembered step' => simp_all
      | split step' => simp_all
  | remembered step _ normal found =>
      cases run' with
      | remembered step' _ normal' found' => simp_all
      | split step' _ normal' found' => simp_all
      | done step' => simp_all
      | again step' => simp_all
  | split step _ normal found splitF splitG splitH _ _ made ihLow ihHigh =>
      cases run' with
      | split step' _ normal' found' splitF' splitG' splitH' runLow runHigh made' =>
          rw [normal] at normal'
          cases normal'
          rw [splitF] at splitF'
          rw [splitG] at splitG'
          rw [splitH] at splitH'
          cases splitF'
          cases splitG'
          cases splitH'
          cases ihLow runLow
          cases ihHigh runHigh
          rw [made] at made'
          cases made'
          rfl
      | remembered step' _ normal' found' => simp_all
      | done step' => simp_all
      | again step' => simp_all

theorem Closed.iteRun_iff (closed : manager.Closed) {f g h : Edge} (ownsF : manager.Owns f)
    (ownsG : manager.Owns g) (ownsH : manager.Owns h) {outcome : Edge × DiagramManager} :
    IteRun manager f g h outcome ↔ ite f g h manager = outcome := by
  have run := (iteRun_iteWithin closed ownsF ownsG ownsH (fueled_ite f g h)).2
  constructor
  · intro run'
    exact run.unique run'
  · rintro rfl
    exact run

end DiagramManager

end AbstractionRefinement
