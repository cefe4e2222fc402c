import AbstractionRefinement.Proofs.CallKeys
import AbstractionRefinement.Proofs.DiagramCanonicity
import AbstractionRefinement.Proofs.DiagramConstruction
import AbstractionRefinement.Proofs.IfThenElseDepth

/-!
# Correctness of if-then-else

The if-then-else operation first looks at its operands, then replaces a call by
an equivalent one, and last combines the results for the cofactors by the least
variable.

A result is remembered under the key of its call only.  Over a manager whose node
limit is small enough that different calls in normal form have different keys, the
operation is correct for exactly the calls that do not overlap, and for all
connectives.
-/

namespace AbstractionRefinement

namespace DiagramManager

variable {manager : DiagramManager} {bound : Nat}

/-- The wrong rule gives `f` for the choice of false or `f` by `f`, which is false. -/
theorem chooses_of_reached (ordered : manager.Ordered bound) {f : Edge}
    (ownsF : manager.Owns f) (inner : f.index ≠ 1) : manager.Chooses f .zero f f where
  value_iff := by
    refine iff_of_false (fun valueEq => inner ?_) (not_not_intro (.reached inner))
    have isZero : f = .zero := by
      refine ordered.eq_of_value_eq ownsF (owns_zero ordered) fun assignment => ?_
      have same := valueEq assignment
      rw [value_zero] at same ⊢
      cases truth : manager.value assignment f
      · rfl
      · rw [truth] at same
        cases same
    rw [isZero]
    rfl
  below belowF _ _ := belowF

/-- A call that is decided without cofactors has the right result unless it overlaps. -/
theorem chooses_of_done (ordered : manager.Ordered bound) {f g h result : Edge}
    (ownsF : manager.Owns f) (ownsG : manager.Owns g) (ownsH : manager.Owns h)
    (step : manager.iteStep f g h = .done result) :
    manager.Owns result ∧ manager.Chooses f g h result := by
  have ownsOne := owns_one ordered
  have ownsZero := owns_zero ordered
  have ownsNeg : manager.Owns (-f) := owns_neg.mpr ownsF
  have negF (assignment : Nat → Bool) :
      manager.value assignment (-f) = !manager.value assignment f := value_neg ownsF.1
  have overlaps := overlaps_done_iff step
  by_cases reached : f.index ≠ 1 ∧ g = .zero ∧ h = f
  · obtain ⟨inner, rfl, rfl⟩ := reached
    rw [done_of_reached inner] at step
    cases step
    exact ⟨ownsF, chooses_of_reached ordered ownsF inner⟩
  · have none : ¬ manager.Overlaps f g h := overlaps.not.mpr reached
    simp only [iteStep, ite_eq_iff, Edge.isOne, Edge.isZero, Bool.and_eq_true, decide_eq_true_eq,
      IteStep.done.injEq, reduceCtorEq, and_false, or_false] at step
    rcases step with ⟨rfl, rfl⟩ | ⟨notOne, ⟨rfl, rfl⟩ | ⟨notZero, ⟨rfl, rfl⟩ |
      ⟨-, ⟨⟨rfl, rfl⟩, rfl⟩ | ⟨-, ⟨⟨rfl, rfl⟩, rfl⟩ | ⟨-, ⟨⟨rfl, rfl⟩, rfl⟩ |
      ⟨-, ⟨⟨rfl, rfl⟩, rfl⟩ | ⟨-, ⟨⟨rfl, rfl⟩, rfl⟩ | ⟨-, ⟨rfl, rfl⟩, rfl⟩⟩⟩⟩⟩⟩⟩⟩
    case inr.inr.inr.inr.inr.inr.inr.inr =>
      exact absurd ⟨Edge.index_ne_one notOne notZero, rfl, rfl⟩ reached
    all_goals
      refine ⟨by assumption, ⟨iff_of_true (fun assignment => ?_) none, fun belowF belowG belowH => ?_⟩⟩
      · simp [*]
      · first | assumption | exact below_one | exact below_zero | exact below_neg.mpr belowF

/-- A call gives what another one should give. -/
structure StandsFor (manager : DiagramManager) (f' g' h' f g h : Edge) : Prop where
  owns_condition : manager.Owns f'
  owns_positive : manager.Owns g'
  owns_negative : manager.Owns h'
  overlaps_iff : manager.Overlaps f g h ↔ manager.Overlaps f' g' h'
  value_eq (assignment : Nat → Bool) :
    (if manager.value assignment f' then manager.value assignment g'
      else manager.value assignment h') =
    if manager.value assignment f then manager.value assignment g
      else manager.value assignment h
  below {level : Nat} : manager.Below level f → manager.Below level g →
    manager.Below level h →
      manager.Below level f' ∧ manager.Below level g' ∧ manager.Below level h'

/-- A call that replaces another one stands for it. -/
theorem standsFor_of_again (ordered : manager.Ordered bound) {f g h f' g' h' : Edge}
    (ownsF : manager.Owns f) (ownsG : manager.Owns g) (ownsH : manager.Owns h)
    (step : manager.iteStep f g h = .again f' g' h') : manager.StandsFor f' g' h' f g h := by
  have ownsOne := owns_one ordered
  have ownsZero := owns_zero ordered
  have negF (assignment : Nat → Bool) :
      manager.value assignment (-f) = !manager.value assignment f := value_neg ownsF.1
  have negG (assignment : Nat → Bool) :
      manager.value assignment (-g) = !manager.value assignment g := value_neg ownsG.1
  have negH (assignment : Nat → Bool) :
      manager.value assignment (-h) = !manager.value assignment h := value_neg ownsH.1
  have levelOne : manager.levelOf .one = 0 := ordered.terminal_level
  obtain ⟨notOne, notZero, differ, cases⟩ := again_cases step
  rcases cases with ⟨rfl, rfl, rfl, rfl⟩ | ⟨-, rfl, rfl, rfl, rfl⟩ |
    ⟨notH, rfl, rfl, rfl, rfl⟩ | ⟨-, -, rfl, rfl, rfl, rfl⟩ | ⟨-, pos, -, ⟨rfl, rfl, rfl, rfl⟩ |
    ⟨rfl, rfl, rfl, rfl⟩ | ⟨rfl, rfl, rfl, rfl⟩ | ⟨rfl, rfl, rfl, rfl⟩ | ⟨rfl, rfl, rfl, rfl⟩⟩
  all_goals
    refine ⟨by simpa [owns_neg], by simpa [owns_neg], by simpa [owns_neg],
      overlaps_again_iff step, ?_, ?_⟩
    · grind [value_one, value_zero]
    · grind [below_one, below_zero, below_neg]

/-- The cofactors of an edge by a level. -/
structure CofactorsAt (manager : DiagramManager) (level : Nat) (edge low high : Edge) :
    Prop where
  owns_low : manager.Owns low
  owns_high : manager.Owns high
  low_below : manager.Below level low
  high_below : manager.Below level high
  value_eq (assignment : Nat → Bool) : manager.value assignment edge =
    if assignment level then manager.value assignment high else manager.value assignment low

theorem cofactorsAt_cofactors (ordered : manager.Ordered bound) {level : Nat} {edge : Edge}
    (owns : manager.Owns edge) (reaches : edge.index = 1 ∨ level ≤ manager.levelOf edge) :
    manager.CofactorsAt level edge (manager.cofactors level edge).1
      (manager.cofactors level edge).2 := by
  by_cases above : edge.index = 1 ∨ level < manager.levelOf edge
  · have same : manager.cofactors level edge = (edge, edge) := by
      unfold cofactors
      rw [if_pos]
      simpa [Edge.isTerminal_iff] using above
    rw [same]
    refine ⟨owns, owns, above, above, fun assignment => ?_⟩
    rw [ite_self]
  · obtain ⟨inner, notAbove⟩ := not_or.mp above
    have atLevel : level = manager.levelOf edge := by omega
    have split : manager.cofactors level edge = (manager.lowOf edge, manager.highOf edge) := by
      unfold cofactors
      rw [if_neg]
      simpa [Edge.isTerminal_iff] using ⟨inner, Nat.not_lt.mp notAbove⟩
    rw [split, atLevel]
    exact ⟨ordered.owns_lowOf owns inner, ordered.owns_highOf owns inner,
      ordered.below_lowOf owns inner, ordered.below_highOf owns inner,
      fun _ => ordered.value_eq owns inner⟩

/-- The least root level of some operands is a level, and every level that all operands
lie below is less. -/
theorem lt_of_attained {level : Nat} {f g h : Edge} (ordered : manager.Ordered bound)
    (ownsF : manager.Owns f) (ownsG : manager.Owns g) (ownsH : manager.Owns h)
    (attained : ∃ edge ∈ [f, g, h], edge.index ≠ 1 ∧ manager.levelOf edge = level) :
    1 ≤ level ∧ level < bound ∧ ∀ above, manager.Below above f → manager.Below above g →
      manager.Below above h → above < level := by
  obtain ⟨edge, member, inner, rfl⟩ := attained
  simp only [List.mem_cons, List.not_mem_nil, or_false] at member
  have owns : manager.Owns edge := by
    rcases member with rfl | rfl | rfl <;> assumption
  have placed := ordered.placed_of_owns owns inner
  refine ⟨placed.level_pos, placed.level_lt, ?_⟩
  · intro above belowF belowG belowH
    have below : manager.Below above edge := by
      rcases member with rfl | rfl | rfl <;> assumption
    exact below.resolve_left inner

/-- The node over the results for the cofactors of a call. -/
def combineCofactors (fuel : Nat) (f g h : Edge) (manager : DiagramManager) :
    Edge × DiagramManager :=
  let top := manager.topLevel f g h
  let low := iteWithin fuel (manager.cofactors top f).1 (manager.cofactors top g).1
    (manager.cofactors top h).1 manager
  let high := iteWithin fuel (manager.cofactors top f).2 (manager.cofactors top g).2
    (manager.cofactors top h).2 low.2
  makeNode top low.1 high.1 high.2

/-- The result for a call in normal form: the remembered one, or the one combined
from its cofactors, which is then remembered. -/
def iteNormal (fuel : Nat) (f g h : Edge) (manager : DiagramManager) : Edge × DiagramManager :=
  let (found, computed) := manager.computed.lookup (iteKey f g h)
  let manager := { manager with computed }
  match found with
  | some result => (result, manager)
  | none =>
      let (result, manager) := combineCofactors fuel f g h manager
      (result, { manager with computed := manager.computed.store (iteKey f g h) result })

/-- The result for the normal form of a call, complemented if need be. -/
def iteOfNormal (fuel : Nat) (f g h : Edge) (manager : DiagramManager) :
    Edge × DiagramManager :=
  let (f, g, h, negate) := normalOperands f g h
  let (result, manager) := iteNormal fuel f g h manager
  (if negate then -result else result, manager)

theorem iteOfNormal_eq {fuel : Nat} {f g h f' g' h' : Edge} {negate : Bool}
    (normal : normalOperands f g h = (f', g', h', negate)) :
    iteOfNormal fuel f g h manager =
      (if negate then -(iteNormal fuel f' g' h' manager).1 else (iteNormal fuel f' g' h' manager).1,
        (iteNormal fuel f' g' h' manager).2) := by
  unfold iteOfNormal
  rw [normal]

theorem iteWithin_open {fuel : Nat} {f g h : Edge} (step : manager.iteStep f g h = .open) :
    iteWithin (fuel + 1) f g h manager = iteOfNormal fuel f g h manager := by
  rw [iteWithin, step]
  unfold iteOfNormal normalOperands
  cases negated : f.isNegated
  · cases negated' : g.isNegated <;>
      simp only [negated', Bool.false_eq_true, if_true, if_false] <;> rfl
  · cases negated' : h.isNegated <;>
      simp only [negated', Bool.false_eq_true, if_true, if_false] <;> rfl

/-- The result of the call that a call stands for is the result of the call. -/
theorem StandsFor.chooses {after : DiagramManager} (ordered : manager.Ordered bound)
    (grown : manager.Extends after) {f g h f' g' h' edge : Edge} (ownsF : manager.Owns f)
    (ownsG : manager.Owns g) (ownsH : manager.Owns h)
    (standsFor : manager.StandsFor f' g' h' f g h) (chooses : after.Chooses f' g' h' edge) :
    after.Chooses f g h edge where
  value_iff := by
    have value_iff := chooses.value_iff
    rw [grown.overlaps_iff ordered.grounded standsFor.owns_condition standsFor.owns_positive
      standsFor.owns_negative, ← standsFor.overlaps_iff] at value_iff
    simp only [grown.value_eq ordered standsFor.owns_condition,
      grown.value_eq ordered standsFor.owns_positive,
      grown.value_eq ordered standsFor.owns_negative, standsFor.value_eq] at value_iff
    simp only [grown.value_eq ordered ownsF, grown.value_eq ordered ownsG,
      grown.value_eq ordered ownsH, grown.overlaps_iff ordered.grounded ownsF ownsG ownsH]
    exact value_iff
  below belowF belowG belowH := by
    obtain ⟨belowF', belowG', belowH'⟩ := standsFor.below ((grown.below_iff ownsF).mp belowF)
      ((grown.below_iff ownsG).mp belowG) ((grown.below_iff ownsH).mp belowH)
    exact chooses.below ((grown.below_iff standsFor.owns_condition).mpr belowF')
      ((grown.below_iff standsFor.owns_positive).mpr belowG')
      ((grown.below_iff standsFor.owns_negative).mpr belowH')

/-- Recursive calls with the given fuel give the right results. -/
def IteCorrect (bound fuel : Nat) : Prop :=
  ∀ ⦃manager : DiagramManager⦄ ⦃f g h : Edge⦄, manager.WellFormed bound →
    DistinctKeys manager.nodeLimit → manager.Owns f → manager.Owns g → manager.Owns h →
    manager.Fueled fuel f g h →
    manager.Delivers bound (iteWithin fuel f g h manager) fun after edge => after.Chooses f g h edge

/-- A remembered result is the result of the call with the key. -/
theorem chooses_of_peek (wellFormed : manager.WellFormed bound)
    (distinct : DistinctKeys manager.nodeLimit) {f g h edge : Edge} (ownsF : manager.Owns f)
    (ownsG : manager.Owns g) (ownsH : manager.Owns h) (plainF : f.isNegated = false)
    (plainG : g.isNegated = false)
    (found : manager.computed.peek (iteKey f g h) = some edge) :
    manager.Owns edge ∧ (manager.exhaustion = none → manager.Chooses f g h edge) := by
  unfold ComputedTable.peek at found
  split at found
  case h_2 => cases found
  case h_1 stored result slot =>
    simp only [Option.ite_none_right_eq_some, Option.some.injEq] at found
    obtain ⟨rfl, rfl⟩ := found
    obtain ⟨owns, right⟩ := wellFormed.remembers slot
    refine ⟨owns, fun none => ?_⟩
    obtain ⟨f', g', h', ownsF', ownsG', ownsH', plainF', plainG', sameKey, chooses⟩ := right none
    have bound := wellFormed.size_le
    obtain ⟨rfl, rfl, rfl⟩ := distinct f' g' h' f g h plainF' plainG' plainF plainG
      (by
        simp only [List.mem_cons, List.not_mem_nil, or_false]
        have := ownsF.2
        have := ownsG.2
        have := ownsH.2
        have := ownsF'.2
        have := ownsG'.2
        have := ownsH'.2
        rintro edge (rfl | rfl | rfl | rfl | rfl | rfl) <;> omega)
      sameKey
    exact chooses

/-- Remembering a result keeps the manager well formed. -/
theorem WellFormed.store (wellFormed : manager.WellFormed bound) (key : UInt64) {edge : Edge}
    (owns : manager.Owns edge) (right : manager.exhaustion = none → manager.ResultOfKey key edge) :
    WellFormed { manager with computed := manager.computed.store key edge } bound ∧
      manager.Extends { manager with computed := manager.computed.store key edge } := by
  have grown : manager.Extends { manager with computed := manager.computed.store key edge } :=
    ⟨Nat.le_refl _, fun _ => rfl, rfl, id⟩
  have stays {key : UInt64} {edge : Edge}
      (right : manager.Owns edge ∧ (manager.exhaustion = none → manager.ResultOfKey key edge)) :
      Owns { manager with computed := manager.computed.store _ _ } edge ∧
        (manager.exhaustion = none →
          ResultOfKey { manager with computed := manager.computed.store _ _ } key edge) :=
    ⟨grown.owns right.1, fun none =>
      grown.resultOfKey wellFormed.toOrdered right.1 (right.2 none)⟩
  refine ⟨⟨⟨wellFormed.terminals, wellFormed.terminal_level, ?_, wellFormed.unique_iff⟩,
    wellFormed.size_le, ?_⟩, grown⟩
  · intro index le lt
    obtain ⟨level, levelLt, differ, plain, lowUsed, highUsed, lowLt, highLt, lowBelow, highBelow⟩ :=
      wellFormed.placed le lt
    exact ⟨level, levelLt, differ, plain, lowUsed, highUsed, lowLt, highLt, lowBelow, highBelow⟩
  · intro slot key' edge' found
    have insertion : (manager.computed.store key edge).slots[slot]? =
        if compare (key &&& manager.computed.mask) slot = .eq then some (key, edge)
        else manager.computed.slots[slot]? :=
      Std.TreeMap.getElem?_insert
    have found' : (manager.computed.store key edge).slots[slot]? = some (key', edge') := found
    rw [insertion] at found'
    split at found'
    · cases found'
      exact stays ⟨owns, right⟩
    · exact stays (wellFormed.remembers found')

/-- Combining the results for the cofactors gives the result of the call. -/
theorem chooses_of_selects (ordered : manager.Ordered bound) {level : Nat}
    {f g h f₀ f₁ g₀ g₁ h₀ h₁ low high edge : Edge} (atF : manager.CofactorsAt level f f₀ f₁)
    (atG : manager.CofactorsAt level g g₀ g₁) (atH : manager.CofactorsAt level h h₀ h₁)
    (overlaps : manager.Overlaps f g h ↔
      manager.Overlaps f₀ g₀ h₀ ∨ manager.Overlaps f₁ g₁ h₁)
    (least : ∀ above, manager.Below above f → manager.Below above g → manager.Below above h →
      above < level)
    (ownsLow : manager.Owns low) (ownsHigh : manager.Owns high)
    (chooseLow : manager.Chooses f₀ g₀ h₀ low) (chooseHigh : manager.Chooses f₁ g₁ h₁ high)
    (selects : manager.Selects level low high edge) : manager.Chooses f g h edge where
  value_iff := by
    have lowBelow := chooseLow.below atF.low_below atG.low_below atH.low_below
    have highBelow := chooseHigh.below atF.high_below atG.high_below atH.high_below
    rw [overlaps, not_or, ← chooseLow.value_iff, ← chooseHigh.value_iff]
    simp only [selects.value_eq, atF.value_eq, atG.value_eq, atH.value_eq]
    constructor
    · -- The variable of the level does not occur in the cofactors.
      intro valueEq
      constructor
      · intro assignment
        have atFalse := valueEq (Function.update assignment level false)
        simpa [ordered.value_update, ownsLow, lowBelow, atF.owns_low, atF.low_below, atG.owns_low,
          atG.low_below, atH.owns_low, atH.low_below] using atFalse
      · intro assignment
        have atTrue := valueEq (Function.update assignment level true)
        simpa [ordered.value_update, ownsHigh, highBelow, atF.owns_high, atF.high_below,
          atG.owns_high, atG.high_below, atH.owns_high, atH.high_below] using atTrue
    · rintro ⟨lowEq, highEq⟩ assignment
      rw [lowEq, highEq]
      cases assignment level <;> rfl
  below belowF belowG belowH := selects.below (least _ belowF belowG belowH)

theorem Extends.cofactorsAt {after : DiagramManager} (grown : manager.Extends after)
    (ordered : manager.Ordered bound) {level : Nat} {edge low high : Edge} (owns : manager.Owns edge)
    (split : manager.CofactorsAt level edge low high) :
    after.CofactorsAt level edge low high where
  owns_low := grown.owns split.owns_low
  owns_high := grown.owns split.owns_high
  low_below := (grown.below_iff split.owns_low).mpr split.low_below
  high_below := (grown.below_iff split.owns_high).mpr split.high_below
  value_eq assignment := by
    rw [grown.value_eq ordered owns, grown.value_eq ordered split.owns_low,
      grown.value_eq ordered split.owns_high]
    exact split.value_eq assignment

theorem combineCofactors_delivers {fuel : Nat} (correct : IteCorrect bound fuel)
    (wellFormed : manager.WellFormed bound) (distinct : DistinctKeys manager.nodeLimit) {f g h : Edge}
    (ownsF : manager.Owns f) (ownsG : manager.Owns g) (ownsH : manager.Owns h)
    (step : manager.iteStep f g h = .open) (plainF : f.isNegated = false)
    (plainG : g.isNegated = false) (enough : 3 * weight f g h ≤ fuel) :
    manager.Delivers bound (combineCofactors fuel f g h manager) fun after edge =>
      after.Chooses f g h edge := by
  have ordered := wellFormed.toOrdered
  have inner := inner_of_open step
  have overlaps := overlaps_open_iff step (normalOperands_of_plain plainF plainG)
  obtain ⟨reaches, attained⟩ := topLevel_spec ordered.grounded ownsF ownsG ownsH inner
  unfold combineCofactors
  simp only
  generalize manager.topLevel f g h = top at reaches attained overlaps
  obtain ⟨top_pos, top_lt, least⟩ := lt_of_attained ordered ownsF ownsG ownsH attained
  have atF := cofactorsAt_cofactors ordered ownsF (reaches f (by simp))
  have atG := cofactorsAt_cofactors ordered ownsG (reaches g (by simp))
  have atH := cofactorsAt_cofactors ordered ownsH (reaches h (by simp))
  have lighter := weight_cofactors_lt ordered.grounded ownsF ownsG ownsH attained
  generalize manager.cofactors top f = pairF at atF atG atH overlaps lighter
  generalize manager.cofactors top g = pairG at atF atG atH overlaps lighter
  generalize manager.cofactors top h = pairH at atF atG atH overlaps lighter
  have first := correct wellFormed distinct atF.owns_low atG.owns_low atH.owns_low
    (.inl (by omega))
  generalize iteWithin fuel pairF.1 pairG.1 pairH.1 manager = low at first
  have distinctLow : DistinctKeys low.2.nodeLimit := first.grown.nodeLimit_eq ▸ distinct
  have second := correct first.wellFormed distinctLow (first.grown.owns atF.owns_high)
    (first.grown.owns atG.owns_high) (first.grown.owns atH.owns_high) (.inl (by omega))
  generalize iteWithin fuel pairF.2 pairG.2 pairH.2 low.2 = high at second
  have grown := first.grown.trans second.grown
  have chooseLow (none : high.2.exhaustion = none) :
      high.2.Chooses pairF.1 pairG.1 pairH.1 low.1 :=
    second.grown.chooses first.wellFormed.toOrdered (first.grown.owns atF.owns_low)
      (first.grown.owns atG.owns_low) (first.grown.owns atH.owns_low) first.owns
      (first.meaning (second.grown.unexhausted none))
  have atF' := grown.cofactorsAt ordered ownsF atF
  have atG' := grown.cofactorsAt ordered ownsG atG
  have atH' := grown.cofactorsAt ordered ownsH atH
  have third := makeNode_delivers second.wellFormed top_pos top_lt (second.grown.owns first.owns)
    second.owns
    (fun none => (chooseLow none).below atF'.low_below atG'.low_below atH'.low_below)
    (fun none => (second.meaning none).below atF'.high_below atG'.high_below atH'.high_below)
  generalize makeNode top low.1 high.1 high.2 = node at third
  refine ⟨third.wellFormed, grown.trans third.grown, third.owns, fun none => ?_⟩
  have unexhausted := third.grown.unexhausted none
  have ordered' := second.wellFormed.toOrdered
  have chooses {f g h edge : Edge} (ownsF : high.2.Owns f) (ownsG : high.2.Owns g)
      (ownsH : high.2.Owns h) (ownsEdge : high.2.Owns edge)
      (chooses : high.2.Chooses f g h edge) : node.2.Chooses f g h edge :=
    third.grown.chooses ordered' ownsF ownsG ownsH ownsEdge chooses
  refine chooses_of_selects third.wellFormed.toOrdered
    (third.grown.cofactorsAt ordered' (grown.owns ownsF) atF')
    (third.grown.cofactorsAt ordered' (grown.owns ownsG) atG')
    (third.grown.cofactorsAt ordered' (grown.owns ownsH) atH') ?_ ?_
    (third.grown.owns (second.grown.owns first.owns)) (third.grown.owns second.owns)
    (chooses atF'.owns_low atG'.owns_low atH'.owns_low (second.grown.owns first.owns)
      (chooseLow unexhausted))
    (chooses atF'.owns_high atG'.owns_high atH'.owns_high second.owns
      (second.meaning unexhausted))
    (third.meaning none)
  · have back := grown.trans third.grown
    rw [back.overlaps_iff ordered.grounded ownsF ownsG ownsH,
      back.overlaps_iff ordered.grounded atF.owns_low atG.owns_low atH.owns_low,
      back.overlaps_iff ordered.grounded atF.owns_high atG.owns_high atH.owns_high]
    exact overlaps
  intro above belowF belowG belowH
  have back := grown.trans third.grown
  exact least above ((back.below_iff ownsF).mp belowF) ((back.below_iff ownsG).mp belowG)
    ((back.below_iff ownsH).mp belowH)

theorem iteNormal_delivers {fuel : Nat} (correct : IteCorrect bound fuel)
    (wellFormed : manager.WellFormed bound) (distinct : DistinctKeys manager.nodeLimit) {f g h : Edge}
    (ownsF : manager.Owns f) (ownsG : manager.Owns g) (ownsH : manager.Owns h)
    (step : manager.iteStep f g h = .open) (plainF : f.isNegated = false)
    (plainG : g.isNegated = false) (enough : 3 * weight f g h ≤ fuel) :
    manager.Delivers bound (iteNormal fuel f g h manager) fun after edge =>
      after.Chooses f g h edge := by
  let counted : DiagramManager :=
    { manager with computed := (manager.computed.lookup (iteKey f g h)).2 }
  obtain ⟨wellFormed', grown⟩ : counted.WellFormed bound ∧ manager.Extends counted :=
    wellFormed.ofSameNodes counted rfl rfl rfl rfl id
  have unfolded : iteNormal fuel f g h manager =
      match manager.computed.peek (iteKey f g h) with
      | some result => (result, counted)
      | none =>
          let node := combineCofactors fuel f g h counted
          (node.1, { node.2 with computed := node.2.computed.store (iteKey f g h) node.1 }) :=
    rfl
  rw [unfolded]
  cases found : manager.computed.peek (iteKey f g h) with
  | some result =>
      obtain ⟨owns, right⟩ :=
        chooses_of_peek wellFormed distinct ownsF ownsG ownsH plainF plainG found
      exact ⟨wellFormed', grown, grown.owns owns, fun none =>
        grown.chooses wellFormed.toOrdered ownsF ownsG ownsH owns (right none)⟩
  | none =>
      have distinct' : DistinctKeys counted.nodeLimit := distinct
      have combined := combineCofactors_delivers correct wellFormed' distinct'
        (grown.owns ownsF) (grown.owns ownsG) (grown.owns ownsH)
        (by rwa [grown.iteStep_eq ownsF ownsG ownsH]) plainF plainG enough
      have grown' := grown.trans combined.grown
      obtain ⟨wellFormedStored, grownStored⟩ :=
        combined.wellFormed.store (iteKey f g h) combined.owns fun none =>
        ⟨f, g, h, grown'.owns ownsF, grown'.owns ownsG, grown'.owns ownsH, plainF, plainG, rfl,
          combined.meaning none⟩
      refine ⟨wellFormedStored, grown'.trans grownStored, grownStored.owns combined.owns, ?_⟩
      intro none
      exact grownStored.chooses combined.wellFormed.toOrdered (grown'.owns ownsF)
        (grown'.owns ownsG) (grown'.owns ownsH) combined.owns (combined.meaning none)

/-- The result for the normal form of a call, complemented if need be, is the result of the
call. -/
theorem chooses_of_normal {f g h f' g' h' edge : Edge}
    {negate : Bool} (ownsF : manager.Owns f) (ownsG : manager.Owns g) (ownsH : manager.Owns h)
    (ownsEdge : manager.Owns edge) (step : manager.iteStep f g h = .open)
    (normal : normalOperands f g h = (f', g', h', negate))
    (chooses : manager.Chooses f' g' h' edge) :
    manager.Chooses f g h (if negate then -edge else edge) := by
  have overlaps := overlaps_normalOperands ownsF ownsG ownsH step normal
  have negF (assignment : Nat → Bool) :
      manager.value assignment (-f) = !manager.value assignment f := value_neg ownsF.1
  have negG (assignment : Nat → Bool) :
      manager.value assignment (-g) = !manager.value assignment g := value_neg ownsG.1
  have negH (assignment : Nat → Bool) :
      manager.value assignment (-h) = !manager.value assignment h := value_neg ownsH.1
  have negEdge (assignment : Nat → Bool) :
      manager.value assignment (-edge) = !manager.value assignment edge := value_neg ownsEdge.1
  have same (assignment : Nat → Bool) :
      (manager.value assignment (if negate then -edge else edge) =
        if manager.value assignment f then manager.value assignment g
          else manager.value assignment h) ↔
      (manager.value assignment edge =
        if manager.value assignment f' then manager.value assignment g'
          else manager.value assignment h') := by
    rw [normalOperands_eq] at normal
    split at normal <;> split at normal <;> cases normal
    all_goals
      simp only [if_true, Bool.false_eq_true, if_false, negF, negG, negH, negEdge]
    all_goals cases manager.value assignment f
    all_goals simp
  refine ⟨?_, fun {level} belowF belowG belowH => ?_⟩
  · rw [overlaps, ← chooses.value_iff]
    exact forall_congr' same
  · have below : manager.Below level edge := by
      rw [normalOperands_eq] at normal
      split at normal <;> split at normal <;> cases normal <;> apply chooses.below
      all_goals simpa [below_neg]
    split
    · exact below_neg.mpr below
    · exact below

/-- A call that is left to its cofactors gives the right result. -/
theorem iteOfNormal_delivers {fuel : Nat} (correct : IteCorrect bound fuel)
    (wellFormed : manager.WellFormed bound) (distinct : DistinctKeys manager.nodeLimit)
    {f g h : Edge} (ownsF : manager.Owns f) (ownsG : manager.Owns g) (ownsH : manager.Owns h)
    (step : manager.iteStep f g h = .open) (enough : 3 * weight f g h ≤ fuel) :
    manager.Delivers bound (iteOfNormal fuel f g h manager) fun after edge =>
      after.Chooses f g h edge := by
  obtain ⟨⟨f', g', h', negate⟩, normal⟩ : ∃ operands, normalOperands f g h = operands := ⟨_, rfl⟩
  obtain ⟨ownsF', ownsG', ownsH'⟩ := owns_normalOperands ownsF ownsG ownsH normal
  obtain ⟨plainF, plainG⟩ := plain_normalOperands ownsF ownsG ownsH normal
  have delivers := iteNormal_delivers correct wellFormed distinct ownsF' ownsG' ownsH'
    (open_normalOperands step normal) plainF plainG (by rwa [weight_normalOperands normal])
  rw [iteOfNormal_eq normal]
  refine ⟨delivers.wellFormed, delivers.grown, ?_, fun none => ?_⟩
  · split
    · exact owns_neg.mpr delivers.owns
    · exact delivers.owns
  · exact chooses_of_normal (delivers.grown.owns ownsF) (delivers.grown.owns ownsG)
      (delivers.grown.owns ownsH) delivers.owns
      (by rwa [delivers.grown.iteStep_eq ownsF ownsG ownsH]) normal (delivers.meaning none)

/-- The recursion gives the right result for every call that has enough fuel. -/
theorem iteCorrect (fuel : Nat) : IteCorrect bound fuel := by
  induction fuel with
  | zero =>
      intro manager f g h _ _ _ _ _ fueled
      rcases fueled with enough | ⟨-, enough⟩ | ⟨-, enough, -⟩ <;> omega
  | succ fuel ih =>
      intro manager f g h wellFormed distinct ownsF ownsG ownsH fueled
      have ordered := wellFormed.toOrdered
      cases step : manager.iteStep f g h with
      | done result =>
          obtain ⟨owns, chooses⟩ := chooses_of_done ordered ownsF ownsG ownsH step
          rw [iteWithin, step]
          exact ⟨wellFormed, .refl manager, owns, fun _ => chooses⟩
      | again f' g' h' =>
          have standsFor := standsFor_of_again ordered ownsF ownsG ownsH step
          rw [iteWithin, step]
          refine (ih wellFormed distinct standsFor.owns_condition standsFor.owns_positive
            standsFor.owns_negative (fueled.of_again ordered.grounded ownsF ownsG ownsH step)).mono ?_
          intro grown _ _ chooses
          exact standsFor.chooses ordered grown ownsF ownsG ownsH chooses
      | «open» =>
          rw [iteWithin_open step]
          exact iteOfNormal_delivers ih wellFormed distinct ownsF ownsG ownsH step
            (fueled.of_open step)

theorem ite_delivers (wellFormed : manager.WellFormed bound)
    (distinct : DistinctKeys manager.nodeLimit) {f g h : Edge} (ownsF : manager.Owns f)
    (ownsG : manager.Owns g) (ownsH : manager.Owns h) :
    manager.Delivers bound (ite f g h manager) fun after edge => after.Chooses f g h edge :=
  iteCorrect _ wellFormed distinct ownsF ownsG ownsH (fueled_ite f g h)

section Connectives

variable {f g : Edge} (wellFormed : manager.WellFormed bound)
  (distinct : DistinctKeys manager.nodeLimit) (ownsF : manager.Owns f) (ownsG : manager.Owns g)
include wellFormed distinct ownsF ownsG

theorem conj_delivers : manager.Delivers bound (conj f g manager) fun after edge =>
    ∀ assignment, after.value assignment edge =
      (after.value assignment f && after.value assignment g) := by
  refine (ite_delivers wellFormed distinct ownsF ownsG (owns_zero wellFormed.toOrdered)).mono ?_
  intro _ _ _ chooses assignment
  rw [chooses.value_eq (.inl rfl), value_zero]
  cases value _ assignment f <;> simp

theorem disj_delivers : manager.Delivers bound (disj f g manager) fun after edge =>
    ∀ assignment, after.value assignment edge =
      (after.value assignment f || after.value assignment g) := by
  refine (ite_delivers wellFormed distinct ownsF (owns_one wellFormed.toOrdered) ownsG).mono ?_
  intro _ _ _ chooses assignment
  rw [chooses.value_eq (.inr (.inl rfl)), value_one]
  cases value _ assignment f <;> simp

theorem imply_delivers : manager.Delivers bound (imply f g manager) fun after edge =>
    ∀ assignment, after.value assignment edge =
      (!after.value assignment f || after.value assignment g) := by
  refine (ite_delivers wellFormed distinct ownsF ownsG (owns_one wellFormed.toOrdered)).mono ?_
  intro _ _ _ chooses assignment
  rw [chooses.value_eq (.inr (.inr (.inl rfl))), value_one]
  cases value _ assignment f <;> simp

theorem equiv_delivers : manager.Delivers bound (equiv f g manager) fun after edge =>
    ∀ assignment, after.value assignment edge =
      (after.value assignment f == after.value assignment g) := by
  refine (ite_delivers wellFormed distinct ownsF ownsG (owns_neg.mpr ownsG)).mono ?_
  intro grown _ _ chooses assignment
  rw [chooses.value_eq (.inr (.inr (.inr rfl))), value_neg (grown.owns ownsG).1]
  cases value _ assignment f <;> simp

theorem xor_delivers : manager.Delivers bound (xor f g manager) fun after edge =>
    ∀ assignment, after.value assignment edge =
      (after.value assignment f != after.value assignment g) := by
  refine (ite_delivers wellFormed distinct ownsF (owns_neg.mpr ownsG) ownsG).mono ?_
  intro grown _ _ chooses assignment
  rw [chooses.value_eq (.inr (.inr (.inr (Edge.neg_neg g).symm))),
    value_neg (grown.owns ownsG).1]
  cases value _ assignment f <;> simp

end Connectives

end DiagramManager

end AbstractionRefinement
