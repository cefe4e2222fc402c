import AbstractionRefinement.ControlFlowAutomata
import AbstractionRefinement.ProductAnalyses
import AbstractionRefinement.Proofs.ExplicitStates
import AbstractionRefinement.Proofs.ExplorationInvariants
import AbstractionRefinement.Proofs.PredicateMonotonicity

/-!
# Exact joins

A covered node is never expanded, so nothing may be lost when it is covered: whatever it
stands for has to be contained in one of the nodes that cover it.  The order of the domains
is a preorder that agrees with inclusion, and a join contains exactly what its two parts
contain.  This holds of explicit states and of predicate states, it is kept by products and
by the lifting to locations, and a fold of exact joins is exact.
-/

namespace AbstractionRefinement

open AbstractionRefinement.Computation ReachabilityGraph

variable {σ τ π ρ κ ω α : Type}

/-- A total assignment of values of the symbols' types. -/
structure TypedValues where
  values : Symbol → Value
  typed : ∀ symbol, (values symbol).HasType symbol.ty

namespace TypedValues

variable (assignment : TypedValues)

/-- The formula holds at the values. -/
def Satisfies (formula : Expr) : Prop :=
  formula.evalBool (total assignment.values) = some true

/-- The formula is true or false at the values; no arithmetic of it overflows. -/
def Decides (formula : Expr) : Prop :=
  (formula.evalBool (total assignment.values)).isSome

variable {assignment}

theorem not_satisfies_bottom : ¬ assignment.Satisfies .bottom := by
  intro holds
  cases holds

theorem satisfies_of_isConjunction {operands : List Expr} {formula : Expr}
    (isConjunction : Expr.IsConjunction operands formula) :
    assignment.Satisfies formula ↔ ∀ operand ∈ operands, assignment.Satisfies operand :=
  isConjunction.evalBool_iff _

end TypedValues

/-- The values satisfy the formula of the state. -/
def ExprState.Contains [ExprState σ] (state : σ) (assignment : TypedValues) : Prop :=
  assignment.Satisfies (ExprState.toExpr state)

/-- The location is that of the state, and the values satisfy its formula. -/
def Located.Contains [ExprState σ] (located : Located σ) (point : Nat × TypedValues) : Prop :=
  located.location = point.1 ∧ point.2.Satisfies (ExprState.toExpr located.state)

/-- The order of a domain is a preorder that respects what the states contain, and joins are
exact.  Only some states are ever built, and joins are only compared at points at which both
parts have truth values. -/
structure Domain.Exact (domain : Domain σ π) (wellFormed : σ → Prop)
    (decides contains : σ → κ → Prop) : Prop where
  leq_refl {precision : π} {state : σ} : wellFormed state →
    domain.leq precision state state = true
  leq_trans {precision : π} {first second third : σ} : wellFormed first → wellFormed second →
    wellFormed third → domain.leq precision first second = true →
      domain.leq precision second third = true → domain.leq precision first third = true
  contains_of_leq {precision : π} {first second : σ} {point : κ} : wellFormed first →
    wellFormed second → domain.leq precision first second = true → contains first point →
      contains second point
  contains_join_iff {precision : π} {first second union : σ} {point : κ} : wellFormed first →
    wellFormed second → domain.join precision first second = some union →
      decides first point → decides second point →
        (contains union point ↔ contains first point ∨ contains second point)
  wellFormed_join {precision : π} {first second union : σ} : wellFormed first →
    wellFormed second → domain.join precision first second = some union → wellFormed union
  decides_join {precision : π} {first second union : σ} {point : κ} : wellFormed first →
    wellFormed second → domain.join precision first second = some union →
      decides first point → decides second point → decides union point
  not_contains_of_isBottom {state : σ} {point : κ} : wellFormed state →
    domain.isBottom state = true → ¬ contains state point
  isBottom_of_leq {precision : π} {first second : σ} :
    domain.leq precision first second = true → domain.isBottom second = true →
      domain.isBottom first = true

namespace ExplicitState

/-- Every symbol has one value, and that is of its type. -/
def IsBuilt : ExplicitState → Prop
  | bottom => True
  | values valuation => valuation.WellTyped ∧ OrderedMap.Sorted valuation.entries

variable {assignment : TypedValues} {first second : ExplicitState}

theorem satisfies_values {valuation : Valuation} (wellTyped : valuation.WellTyped) :
    assignment.Satisfies (ExprState.toExpr (values valuation)) ↔
      valuation.Matches assignment.values := by
  obtain ⟨truth, evaluates, isMatch⟩ := wellTyped.evalBool_toExpr assignment.typed
  show valuation.toExpr.evalBool (total assignment.values) = some true ↔ _
  rw [evaluates, Option.some_inj, isMatch]

theorem leq_values {left right : Valuation} :
    (values left).leq (values right) = true ↔
      ∀ entry ∈ right.entries, left.get? entry.1 = some entry.2 := by
  simp [leq, List.all_eq_true]

theorem satisfies_of_leq (built : first.IsBuilt) (built' : second.IsBuilt)
    (below : first.leq second = true)
    (holds : assignment.Satisfies (ExprState.toExpr first)) :
    assignment.Satisfies (ExprState.toExpr second) := by
  cases first with
  | bottom => exact absurd holds TypedValues.not_satisfies_bottom
  | values left =>
      cases second with
      | bottom => cases below
      | values right =>
          rw [satisfies_values built.1] at holds
          rw [satisfies_values built'.1]
          exact fun entry member =>
            holds _ (OrderedMap.mem_of_find? (leq_values.mp below entry member))

/-- A join is satisfied where one of its parts is. -/
theorem satisfies_join_iff {union : ExplicitState} (built : first.IsBuilt)
    (built' : second.IsBuilt) (joined : first.join second = some union) :
    assignment.Satisfies (ExprState.toExpr union) ↔
      assignment.Satisfies (ExprState.toExpr first) ∨
        assignment.Satisfies (ExprState.toExpr second) := by
  rcases join_cases joined with
    ⟨above, rfl⟩ | ⟨below, rfl⟩ | ⟨left, right, symbol, rfl, rfl, sameSize, differs, rfl⟩
  · exact (or_iff_left_of_imp (satisfies_of_leq built' built above)).symm
  · exact (or_iff_right_of_imp (satisfies_of_leq built built' below)).symm
  · have erased : (left.erase symbol).WellTyped := fun entry member =>
      built.1 entry ((OrderedMap.sublist_erase symbol left.entries).subset member)
    rw [satisfies_values erased, satisfies_values built.1, satisfies_values built'.1]
    exact ⟨matches_of_erase built.1 built.2 built'.1 built'.2 sameSize differs
      (assignment.typed symbol), matches_erase built.2 differs⟩

theorem IsBuilt.join {union : ExplicitState} (built : first.IsBuilt) (built' : second.IsBuilt)
    (joined : first.join second = some union) : union.IsBuilt := by
  rcases join_cases joined with
    ⟨-, rfl⟩ | ⟨-, rfl⟩ | ⟨left, right, symbol, rfl, rfl, -, -, rfl⟩
  · exact built
  · exact built'
  · have sublist := OrderedMap.sublist_erase symbol left.entries
    exact ⟨fun entry member => built.1 entry (sublist.subset member),
      built.2.sublist sublist⟩

theorem IsBuilt.leq_refl {state : ExplicitState} (built : state.IsBuilt) :
    state.leq state = true := by
  cases state with
  | bottom => rfl
  | values valuation =>
      exact leq_values.mpr fun entry member => built.2.find?_eq_some_iff.mpr member

theorem leq_trans {third : ExplicitState} (below : first.leq second = true)
    (below' : second.leq third = true) : first.leq third = true := by
  cases first with
  | bottom => rfl
  | values left =>
      cases second with
      | bottom => cases below
      | values middle =>
          cases third with
          | bottom => cases below'
          | values right =>
              refine leq_values.mpr fun entry member => ?_
              have known := leq_values.mp below' entry member
              exact leq_values.mp below _ (OrderedMap.mem_of_find? known)

/-- Explicit states are exactly joined; they have a truth value everywhere. -/
theorem exact_domain : domain.Exact IsBuilt (fun _ _ => True) ExprState.Contains where
  leq_refl built := built.leq_refl
  leq_trans _ _ _ := leq_trans
  contains_of_leq := satisfies_of_leq
  contains_join_iff built built' joined _ _ := satisfies_join_iff built built' joined
  wellFormed_join := IsBuilt.join
  decides_join _ _ _ _ _ := trivial
  not_contains_of_isBottom _ isBottom := by
    rw [of_decide_eq_true isBottom]
    exact TypedValues.not_satisfies_bottom
  isBottom_of_leq {precision first second} below isBottom := by
    obtain rfl : second = bottom := of_decide_eq_true isBottom
    cases first with
    | bottom => rfl
    | values => cases below

end ExplicitState

namespace PredicateState

/-- The literals are a sorted set of Boolean formulas. -/
def IsBuilt : PredicateState → Prop
  | bottom => True
  | cube literals => OrderedSet.Sorted literals ∧ ∀ literal ∈ literals, literal.ty = .bool

/-- Every literal is two-valued at the values. -/
def Decided : PredicateState → TypedValues → Prop
  | bottom, _ => True
  | cube literals, assignment => ∀ literal ∈ literals, assignment.Decides literal

variable {assignment : TypedValues} {first second : PredicateState} {literals : List Expr}

theorem satisfies_cube (boolean : ∀ literal ∈ literals, literal.ty = .bool) :
    assignment.Satisfies (ExprState.toExpr (cube literals)) ↔
      ∀ literal ∈ literals, assignment.Satisfies literal := by
  obtain ⟨formula, built⟩ := Expr.exists_mkAnd boolean
  rw [toExpr_of_mkAnd built]
  exact TypedValues.satisfies_of_isConjunction (Expr.isConjunction_of_mkAnd built)

theorem leq_cube {left right : List Expr} (sorted : OrderedSet.Sorted left) :
    (cube left).leq (cube right) = true ↔ ∀ literal ∈ right, literal ∈ left := by
  unfold leq OrderedSet.isSubset
  rw [List.all_eq_true]
  exact forall₂_congr fun literal _ => sorted.contains_iff

theorem satisfies_of_leq (built : first.IsBuilt) (built' : second.IsBuilt)
    (below : first.leq second = true)
    (holds : assignment.Satisfies (ExprState.toExpr first)) :
    assignment.Satisfies (ExprState.toExpr second) := by
  cases first with
  | bottom => exact absurd holds TypedValues.not_satisfies_bottom
  | cube left =>
      cases second with
      | bottom => cases below
      | cube right =>
          rw [satisfies_cube built.2] at holds
          rw [satisfies_cube built'.2]
          exact fun literal member => holds literal ((leq_cube built.1).mp below literal member)

/-- The literals differ in the sign of one predicate only. -/
structure Opposed (left right : List Expr) (positive negative : Expr) : Prop where
  opposite_eq : opposite positive = some negative
  mem_left : positive ∈ left
  mem_of_mem_left : ∀ literal ∈ left, literal = positive ∨ literal ∈ right
  mem_of_mem_right : ∀ literal ∈ right, literal = negative ∨ literal ∈ left ∧ literal ≠ positive

theorem opposed_of_filter {left right : List Expr} {positive negative : Expr}
    (sorted : OrderedSet.Sorted left) (sorted' : OrderedSet.Sorted right)
    (onlyLeft : left.filter (fun literal => !OrderedSet.contains literal right) = [positive])
    (onlyRight : right.filter (fun literal => !OrderedSet.contains literal left) = [negative])
    (opposite_eq : opposite positive = some negative) :
    Opposed left right positive negative := by
  have inLeft (literal : Expr) : literal = positive ↔ literal ∈ left ∧ literal ∉ right := by
    rw [← List.mem_singleton, ← onlyLeft, List.mem_filter, Bool.not_eq_true',
      ← sorted'.contains_iff, Bool.not_eq_true]
  have inRight (literal : Expr) : literal = negative ↔ literal ∈ right ∧ literal ∉ left := by
    rw [← List.mem_singleton, ← onlyRight, List.mem_filter, Bool.not_eq_true',
      ← sorted.contains_iff, Bool.not_eq_true]
  obtain ⟨isLeft, notRight⟩ := (inLeft positive).mp rfl
  refine ⟨opposite_eq, isLeft, fun literal member => ?_, fun literal member => ?_⟩
  · rw [inLeft]
    tauto
  · by_cases member' : literal ∈ left
    · refine .inr ⟨member', ?_⟩
      rintro rfl
      exact notRight member
    · exact .inl ((inRight literal).mpr ⟨member, member'⟩)

/-- A join is the part that subsumes the other one, or forgets the predicate in the sign of
which the parts differ. -/
theorem join_cases {union : PredicateState} (built : first.IsBuilt) (built' : second.IsBuilt)
    (joined : first.join second = some union) :
    second.leq first = true ∧ union = first ∨ first.leq second = true ∧ union = second ∨
      ∃ left right positive negative, first = cube left ∧ second = cube right ∧
        Opposed left right positive negative ∧
        union = cube (left.filter fun literal => literal ≠ positive) := by
  unfold join at joined
  split at joined
  case isTrue below =>
    cases joined
    exact .inr (.inl ⟨below, rfl⟩)
  case isFalse =>
    split at joined
    case isTrue above =>
      cases joined
      exact .inl ⟨above, rfl⟩
    case isFalse =>
      split at joined
      case h_2 => cases joined
      case h_1 left right _ _ =>
        split at joined
        case isFalse => cases joined
        case isTrue =>
          dsimp only at joined
          split at joined
          case h_2 => cases joined
          case h_1 positive negative onlyLeft onlyRight =>
            split at joined
            case isFalse => cases joined
            case isTrue isOpposite =>
              cases joined
              exact .inr (.inr ⟨left, right, positive, negative, rfl, rfl,
                opposed_of_filter built.1 built'.1 onlyLeft onlyRight isOpposite, rfl⟩)

/-- Where a literal is two-valued, the opposite one holds if it does not. -/
theorem satisfies_opposite {literal other : Expr} (isOpposite : opposite literal = some other)
    (boolean : literal.ty = .bool) (decides : assignment.Decides literal) :
    assignment.Satisfies other ↔ ¬ assignment.Satisfies literal := by
  obtain ⟨truth, evaluates⟩ := Option.isSome_iff_exists.mp decides
  unfold TypedValues.Satisfies
  rw [evaluates]
  unfold opposite at isOpposite
  split at isOpposite
  case h_1 operand ty =>
    cases isOpposite
    rw [Expr.evalBool_not] at evaluates
    obtain ⟨truth', evaluates', rfl⟩ := Option.map_eq_some_iff.mp evaluates
    rw [evaluates']
    cases truth' <;> simp
  case h_2 =>
    rw [Expr.mkNot, Expr.expectType, if_pos boolean] at isOpposite
    cases isOpposite
    rw [Expr.evalBool_not, evaluates]
    cases truth <;> simp

/-- Where the parts are two-valued, a join is satisfied where one of them is. -/
theorem satisfies_join_iff {union : PredicateState} (built : first.IsBuilt)
    (built' : second.IsBuilt) (joined : first.join second = some union)
    (decided : first.Decided assignment) :
    assignment.Satisfies (ExprState.toExpr union) ↔
      assignment.Satisfies (ExprState.toExpr first) ∨
        assignment.Satisfies (ExprState.toExpr second) := by
  rcases join_cases built built' joined with
    ⟨above, rfl⟩ | ⟨below, rfl⟩ | ⟨left, right, positive, negative, rfl, rfl, opposed, rfl⟩
  · exact (or_iff_left_of_imp (satisfies_of_leq built' built above)).symm
  · exact (or_iff_right_of_imp (satisfies_of_leq built built' below)).symm
  · have boolean : ∀ literal ∈ left.filter fun literal => literal ≠ positive,
        literal.ty = .bool := fun literal member => built.2 literal (List.mem_of_mem_filter member)
    have negates := satisfies_opposite opposed.opposite_eq (built.2 positive opposed.mem_left)
      (decided positive opposed.mem_left)
    rw [satisfies_cube boolean, satisfies_cube built.2, satisfies_cube built'.2]
    simp only [List.mem_filter, decide_eq_true_eq, and_imp]
    constructor
    · intro common
      by_cases holds : assignment.Satisfies positive
      · refine .inl fun literal member => ?_
        by_cases same : literal = positive
        · exact same ▸ holds
        · exact common literal member same
      · refine .inr fun literal member => ?_
        rcases opposed.mem_of_mem_right literal member with rfl | ⟨member', differ⟩
        · exact negates.mpr holds
        · exact common literal member' differ
    · rintro (holds | holds) literal member differ
      · exact holds literal member
      · exact holds literal ((opposed.mem_of_mem_left literal member).resolve_left differ)

theorem IsBuilt.join {union : PredicateState} (built : first.IsBuilt) (built' : second.IsBuilt)
    (joined : first.join second = some union) : union.IsBuilt := by
  rcases join_cases built built' joined with
    ⟨-, rfl⟩ | ⟨-, rfl⟩ | ⟨left, right, positive, negative, rfl, rfl, -, rfl⟩
  · exact built
  · exact built'
  · exact ⟨built.1.sublist List.filter_sublist,
      fun literal member => built.2 literal (List.mem_of_mem_filter member)⟩

theorem Decided.join {union : PredicateState} (built : first.IsBuilt) (built' : second.IsBuilt)
    (joined : first.join second = some union) (decided : first.Decided assignment)
    (decided' : second.Decided assignment) : union.Decided assignment := by
  rcases join_cases built built' joined with
    ⟨-, rfl⟩ | ⟨-, rfl⟩ | ⟨left, right, positive, negative, rfl, rfl, -, rfl⟩
  · exact decided
  · exact decided'
  · exact fun literal member => decided literal (List.mem_of_mem_filter member)

theorem IsBuilt.leq_refl {state : PredicateState} (built : state.IsBuilt) :
    state.leq state = true := by
  cases state with
  | bottom => rfl
  | cube literals => exact (leq_cube built.1).mpr fun _ member => member

theorem IsBuilt.leq_trans {third : PredicateState} (built : first.IsBuilt)
    (built' : second.IsBuilt) (below : first.leq second = true)
    (below' : second.leq third = true) : first.leq third = true := by
  cases first with
  | bottom => rfl
  | cube left =>
      cases second with
      | bottom => cases below
      | cube middle =>
          cases third with
          | bottom => cases below'
          | cube right =>
              rw [leq_cube built.1] at below ⊢
              rw [leq_cube built'.1] at below'
              exact fun literal member => below literal (below' literal member)

/-- Predicate states are exactly joined where the literals are two-valued. -/
theorem exact_domain : domain.Exact IsBuilt Decided ExprState.Contains where
  leq_refl built := built.leq_refl
  leq_trans built built' _ := built.leq_trans built'
  contains_of_leq := satisfies_of_leq
  contains_join_iff built built' joined decided _ :=
    satisfies_join_iff built built' joined decided
  wellFormed_join := IsBuilt.join
  decides_join := Decided.join
  not_contains_of_isBottom _ isBottom := by
    rw [of_decide_eq_true isBottom]
    exact TypedValues.not_satisfies_bottom
  isBottom_of_leq {precision first second} below isBottom := by
    obtain rfl : second = bottom := of_decide_eq_true isBottom
    cases first with
    | bottom => rfl
    | cube => cases below

end PredicateState

namespace Domain

variable {first : Domain σ π} {second : Domain τ ρ}

theorem equivalent_iff {domain : Domain σ π} {precision : π} {state other : σ} :
    domain.equivalent precision state other = true ↔
      domain.leq precision state other = true ∧ domain.leq precision other state = true :=
  Bool.and_eq_true_iff

theorem product_leq_iff {precision : π × ρ} {state other : σ × τ} :
    (first.product second).leq precision state other = true ↔
      (first.isBottom state.1 = true ∨ second.isBottom state.2 = true) ∨
        first.leq precision.1 state.1 other.1 = true ∧
          second.leq precision.2 state.2 other.2 = true := by
  rw [← Bool.and_eq_true, ← Bool.or_eq_true, ← Bool.or_eq_true]
  rfl

/-- A pair is joined in the component in which its parts differ. -/
theorem product_join_cases {precision : π × ρ} {state other union : σ × τ}
    (joined : (first.product second).join precision state other = some union) :
    first.equivalent precision.1 state.1 other.1 = true ∧ union.1 = state.1 ∧
        second.join precision.2 state.2 other.2 = some union.2 ∨
      second.equivalent precision.2 state.2 other.2 = true ∧ union.2 = state.2 ∧
        first.join precision.1 state.1 other.1 = some union.1 := by
  unfold product at joined
  dsimp only at joined
  split at joined
  case isTrue same =>
    obtain ⟨part, joinedPart, rfl⟩ := Option.map_eq_some_iff.mp joined
    exact .inl ⟨same, rfl, joinedPart⟩
  case isFalse =>
    split at joined
    case isFalse => cases joined
    case isTrue same =>
      obtain ⟨part, joinedPart, rfl⟩ := Option.map_eq_some_iff.mp joined
      exact .inr ⟨same, rfl, joinedPart⟩

theorem located_leq_iff {precision : π} {state other : Located σ} :
    (Located.domain first).leq precision state other = true ↔
      state.location = other.location ∧ first.leq precision state.state other.state = true := by
  rw [← decide_eq_true_iff (p := state.location = other.location), ← Bool.and_eq_true]
  rfl

theorem located_join_eq_some {precision : π} {state other union : Located σ}
    (joined : (Located.domain first).join precision state other = some union) :
    state.location = other.location ∧ union.location = state.location ∧
      first.join precision state.state other.state = some union.state := by
  unfold Located.domain at joined
  dsimp only at joined
  split at joined
  case isFalse => cases joined
  case isTrue same =>
    obtain ⟨part, joinedPart, rfl⟩ := Option.map_eq_some_iff.mp joined
    exact ⟨same, rfl, joinedPart⟩

namespace Exact

variable {wellFormed : σ → Prop} {wellFormed' : τ → Prop} {decides contains : σ → κ → Prop}
  {decides' contains' : τ → κ → Prop} (exact : first.Exact wellFormed decides contains)
include exact

theorem contains_iff_of_equivalent {precision : π} {state other : σ} {point : κ}
    (isBuilt : wellFormed state) (isBuilt' : wellFormed other)
    (same : first.equivalent precision state other = true) :
    contains state point ↔ contains other point :=
  have ⟨below, above⟩ := equivalent_iff.mp same
  ⟨exact.contains_of_leq isBuilt isBuilt' below, exact.contains_of_leq isBuilt' isBuilt above⟩

/-- Pairs are exactly joined if their components are. -/
theorem product (exact' : second.Exact wellFormed' decides' contains') :
    (first.product second).Exact (fun pair => wellFormed pair.1 ∧ wellFormed' pair.2)
      (fun pair point => decides pair.1 point ∧ decides' pair.2 point)
      fun pair point => contains pair.1 point ∧ contains' pair.2 point where
  leq_refl {precision state} built :=
    product_leq_iff.mpr (.inr ⟨exact.leq_refl built.1, exact'.leq_refl built.2⟩)
  leq_trans {precision state other third} built built' built'' below below' := by
    rw [product_leq_iff] at below below' ⊢
    rcases below with isBottom | ⟨below, belowSecond⟩
    · exact .inl isBottom
    · rcases below' with (isBottom | isBottom) | ⟨below', belowSecond'⟩
      · exact .inl (.inl (exact.isBottom_of_leq below isBottom))
      · exact .inl (.inr (exact'.isBottom_of_leq belowSecond isBottom))
      · exact .inr ⟨exact.leq_trans built.1 built'.1 built''.1 below below',
          exact'.leq_trans built.2 built'.2 built''.2 belowSecond belowSecond'⟩
  contains_of_leq {precision state other point} built built' below holds := by
    rcases product_leq_iff.mp below with (isBottom | isBottom) | ⟨below, belowSecond⟩
    · exact absurd holds.1 (exact.not_contains_of_isBottom built.1 isBottom)
    · exact absurd holds.2 (exact'.not_contains_of_isBottom built.2 isBottom)
    · exact ⟨exact.contains_of_leq built.1 built'.1 below holds.1,
        exact'.contains_of_leq built.2 built'.2 belowSecond holds.2⟩
  contains_join_iff {precision state other union point} built built' joined decided decided' := by
    rcases product_join_cases joined with ⟨same, kept, joined⟩ | ⟨same, kept, joined⟩
    · rw [kept, exact'.contains_join_iff built.2 built'.2 joined decided.2 decided'.2,
        ← exact.contains_iff_of_equivalent built.1 built'.1 same]
      exact and_or_left
    · rw [kept, exact.contains_join_iff built.1 built'.1 joined decided.1 decided'.1,
        ← exact'.contains_iff_of_equivalent built.2 built'.2 same]
      exact or_and_right
  wellFormed_join {precision state other union} built built' joined := by
    rcases product_join_cases joined with ⟨-, kept, joined⟩ | ⟨-, kept, joined⟩
    · exact ⟨kept ▸ built.1, exact'.wellFormed_join built.2 built'.2 joined⟩
    · exact ⟨exact.wellFormed_join built.1 built'.1 joined, kept ▸ built.2⟩
  decides_join {precision state other union point} built built' joined decided decided' := by
    rcases product_join_cases joined with ⟨-, kept, joined⟩ | ⟨-, kept, joined⟩
    · exact ⟨kept ▸ decided.1,
        exact'.decides_join built.2 built'.2 joined decided.2 decided'.2⟩
    · exact ⟨exact.decides_join built.1 built'.1 joined decided.1 decided'.1,
        kept ▸ decided.2⟩
  not_contains_of_isBottom {state point} built isBottom holds := by
    rcases (Bool.or_eq_true _ _).mp isBottom with isBottom | isBottom
    · exact exact.not_contains_of_isBottom built.1 isBottom holds.1
    · exact exact'.not_contains_of_isBottom built.2 isBottom holds.2
  isBottom_of_leq {precision state other} below isBottom := by
    rw [product_leq_iff] at below
    apply (Bool.or_eq_true _ _).mpr
    rcases below with isBottom' | ⟨below, belowSecond⟩
    · exact isBottom'
    · exact ((Bool.or_eq_true _ _).mp isBottom).imp (exact.isBottom_of_leq below)
        (exact'.isBottom_of_leq belowSecond)

/-- States at locations are exactly joined if the states are. -/
theorem located : (Located.domain first).Exact (fun located => wellFormed located.state)
    (fun located point => decides located.state point.2)
    fun located (point : Nat × κ) =>
      located.location = point.1 ∧ contains located.state point.2 where
  leq_refl built := located_leq_iff.mpr ⟨rfl, exact.leq_refl built⟩
  leq_trans built built' built'' below below' := by
    rw [located_leq_iff] at below below' ⊢
    exact ⟨below.1.trans below'.1, exact.leq_trans built built' built'' below.2 below'.2⟩
  contains_of_leq built built' below holds := by
    rw [located_leq_iff] at below
    exact ⟨below.1 ▸ holds.1, exact.contains_of_leq built built' below.2 holds.2⟩
  contains_join_iff built built' joined decided decided' := by
    obtain ⟨same, kept, joined⟩ := located_join_eq_some joined
    rw [kept, ← same, exact.contains_join_iff built built' joined decided decided']
    exact and_or_left
  wellFormed_join built built' joined :=
    exact.wellFormed_join built built' (located_join_eq_some joined).2.2
  decides_join built built' joined decided decided' :=
    exact.decides_join built built' (located_join_eq_some joined).2.2 decided decided'
  not_contains_of_isBottom built isBottom holds :=
    exact.not_contains_of_isBottom built isBottom holds.2
  isBottom_of_leq below isBottom := exact.isBottom_of_leq (located_leq_iff.mp below).2 isBottom

/-- Only what states that are built contain matters. -/
theorem congr {meaning : σ → κ → Prop}
    (same : ∀ state point, wellFormed state → (contains state point ↔ meaning state point)) :
    first.Exact wellFormed decides meaning where
  leq_refl := exact.leq_refl
  leq_trans := exact.leq_trans
  contains_of_leq {precision state other point} built built' below := by
    rw [← same state point built, ← same other point built']
    exact exact.contains_of_leq built built' below
  contains_join_iff {precision state other union point} built built' joined decided decided' := by
    rw [← same state point built, ← same other point built',
      ← same union point (exact.wellFormed_join built built' joined)]
    exact exact.contains_join_iff built built' joined decided decided'
  wellFormed_join := exact.wellFormed_join
  decides_join := exact.decides_join
  not_contains_of_isBottom {state point} built isBottom := by
    rw [← same state point built]
    exact exact.not_contains_of_isBottom built isBottom
  isBottom_of_leq := exact.isBottom_of_leq

end Exact

end Domain

/-- The covering nodes of a node that was closed contain every point that it contains, as far
as the points are decided there. -/
def Explorer.CoversExactly (explorer : Explorer ω σ α π) (wellFormed : σ → Prop)
    (decides contains : σ → κ → Prop) : Prop :=
  ∀ (precision : π) (id : Nat) (before after : ExplorationState ω σ α),
    before.graph.Numbered → (∀ node ∈ before.graph.live, wellFormed node.state) →
    explorer.close precision id before = (.ok true, after) →
    ∃ node, after.graph.node? id = some node ∧ ∀ point, contains node.state point →
      (∀ coverer ∈ node.coveredBy, ∀ other, after.graph.node? coverer = some other →
        decides other.state point) →
      ∃ coverer ∈ node.coveredBy, ∃ other, after.graph.node? coverer = some other ∧
        contains other.state point

namespace Domain.Exact

variable {explorer : Explorer ω σ α π} {wellFormed : σ → Prop} {decides contains : σ → κ → Prop}
  (exact : explorer.analysis.Exact wellFormed decides contains)
include exact

/-- A fold of exact joins is exact. -/
theorem contains_iff_of_joinAll? {precision : π} {states : List σ} {joined : σ} {point : κ}
    (joins : explorer.joinAll? precision states = some joined)
    (built : ∀ state ∈ states, wellFormed state) (decided : ∀ state ∈ states, decides state point) :
    wellFormed joined ∧ (contains joined point ↔ ∃ state ∈ states, contains state point) := by
  cases states with
  | nil => cases joins
  | cons first rest =>
      induction rest generalizing first with
      | nil =>
          cases joins
          exact ⟨built _ List.mem_cons_self, by simp⟩
      | cons second rest ih =>
          have joins : (second :: rest).foldlM (explorer.analysis.join precision) first =
            some joined := joins
          rw [List.foldlM_cons] at joins
          obtain ⟨union, united, joins⟩ := Option.bind_eq_some_iff.mp joins
          simp only [List.forall_mem_cons] at built decided
          obtain ⟨builtFirst, builtSecond, builtRest⟩ := built
          obtain ⟨decidedFirst, decidedSecond, decidedRest⟩ := decided
          have builtUnion := exact.wellFormed_join builtFirst builtSecond united
          have decidedUnion := exact.decides_join builtFirst builtSecond united decidedFirst
            decidedSecond
          obtain ⟨builtJoined, containsIff⟩ := ih union joins
            (List.forall_mem_cons.mpr ⟨builtUnion, builtRest⟩)
            (List.forall_mem_cons.mpr ⟨decidedUnion, decidedRest⟩)
          refine ⟨builtJoined, containsIff.trans ?_⟩
          simp only [List.exists_mem_cons_iff, exact.contains_join_iff builtFirst builtSecond
            united decidedFirst decidedSecond, or_assoc]

/-- What a state contains is contained in one of the nodes whose join subsumes it. -/
theorem exists_of_subsumedBy {precision : π} {state : σ} {nodes : List (GraphNode σ α)}
    {point : κ} (subsumed : explorer.SubsumedBy precision state nodes)
    (builtState : wellFormed state) (built : ∀ node ∈ nodes, wellFormed node.state)
    (decided : ∀ node ∈ nodes, decides node.state point) (holds : contains state point) :
    ∃ node ∈ nodes, contains node.state point := by
  obtain ⟨joined, joins, below⟩ := subsumed
  obtain ⟨builtJoined, containsIff⟩ := exact.contains_iff_of_joinAll? joins
    (List.forall_mem_map.mpr built) (List.forall_mem_map.mpr decided)
  have inJoined := exact.contains_of_leq builtState builtJoined below holds
  obtain ⟨_, isState, inState⟩ := containsIff.mp inJoined
  obtain ⟨node, member, rfl⟩ := List.mem_map.mp isState
  exact ⟨node, member, inState⟩

/-- Nodes are only covered by nodes that contain what they contain. -/
theorem coversExactly : explorer.CoversExactly wellFormed decides contains := by
  intro precision id before after numbered built run
  have ensures : (explorer.close precision id).Ensures before fun closed after =>
      closed = true → ∃ node, after.graph.node? id = some node ∧ ∀ point,
        contains node.state point →
        (∀ coverer ∈ node.coveredBy, ∀ other, after.graph.node? coverer = some other →
          decides other.state point) →
        ∃ coverer ∈ node.coveredBy, ∃ other, after.graph.node? coverer = some other ∧
          contains other.state point := by
    unfold Explorer.close
    split
    case isTrue => exact fun closed => Bool.noConfusion closed
    case isFalse =>
      simp only [ensures_bind, ensures_get, ensures_onGraph, ensures_getNode]
      intro node found
      cases chosen : explorer.coverers? precision before.graph node with
      | none => exact fun closed => Bool.noConfusion closed
      | some coverers =>
          obtain ⟨others, mayCover, rfl, subsumed⟩ := Explorer.coverers?_eq_some chosen
          simp only [ensures_bind, ensures_onGraph, ensures_pure]
          apply ensures_cover
          intro _ _ _ _ _ _ _
          -- Covering a node changes no state.
          have kept : ∀ other ∈ others, ∃ covering,
              (before.graph.withCover id (others.map GraphNode.id)).node? other.id =
                some covering ∧ covering.state = other.state := by
            intro other member
            obtain ⟨position, foundOther⟩ := mem_live.mp (mayCover other member).live
            rw [node?_withCover, numbered foundOther, foundOther]
            exact ⟨_, rfl, rfl⟩
          obtain ⟨covered, foundCovered, sameState, coveredBy_eq⟩ : ∃ covered,
              (before.graph.withCover id (others.map GraphNode.id)).node? id = some covered ∧
                covered.state = node.state ∧ covered.coveredBy = others.map GraphNode.id := by
            rw [node?_withCover, found]
            exact ⟨_, rfl, rfl, if_pos rfl⟩
          refine ⟨covered, foundCovered, fun point holds decided => ?_⟩
          rw [sameState] at holds
          rw [coveredBy_eq] at decided ⊢
          have decidedOthers : ∀ other ∈ others, decides other.state point := by
            intro other member
            obtain ⟨covering, foundCovering, same⟩ := kept other member
            exact same ▸ decided other.id (List.mem_map_of_mem member) covering foundCovering
          obtain ⟨other, member, contained⟩ := exact.exists_of_subsumedBy subsumed
            (built node (mem_live.mpr ⟨id, found⟩))
            (fun other member => built other (mayCover other member).live) decidedOthers holds
          obtain ⟨covering, foundCovering, same⟩ := kept other member
          exact ⟨other.id, List.mem_map_of_mem member, covering, foundCovering, same ▸ contained⟩
  exact ensures.of_run run rfl

end Domain.Exact

theorem Expr.IsConjunction.boolean {operands : List Expr} {formula : Expr}
    (isConjunction : IsConjunction operands formula)
    (all : ∀ operand ∈ operands, operand.ty = .bool) : formula.ty = .bool := by
  cases isConjunction with
  | nil => rfl
  | singleton => exact all formula (by simp)
  | many => rfl

section Pairs

variable [ExprState σ] [ExprState τ] {pair : σ × τ}
  (boolean : (ExprState.toExpr pair.1).ty = .bool)
  (boolean' : (ExprState.toExpr pair.2).ty = .bool)
include boolean boolean'

theorem isConjunction_pair : Expr.IsConjunction
    [ExprState.toExpr pair.1, ExprState.toExpr pair.2] (ExprState.toExpr pair) := by
  have all : ∀ operand ∈ [ExprState.toExpr pair.1, ExprState.toExpr pair.2],
      operand.ty = .bool := by simp [boolean, boolean']
  obtain ⟨formula, built⟩ := Expr.exists_mkAnd all
  have same : ExprState.toExpr pair = formula := by
    show (Expr.mkAnd _).toOption.getD .bottom = formula
    rw [built]
    rfl
  rw [same]
  exact Expr.isConjunction_of_mkAnd built

theorem boolean_pair : (ExprState.toExpr pair).ty = .bool :=
  (isConjunction_pair boolean boolean').boolean (by simp [boolean, boolean'])

theorem satisfies_pair_iff {assignment : TypedValues} :
    assignment.Satisfies (ExprState.toExpr pair) ↔
      assignment.Satisfies (ExprState.toExpr pair.1) ∧
        assignment.Satisfies (ExprState.toExpr pair.2) := by
  rw [TypedValues.satisfies_of_isConjunction (isConjunction_pair boolean boolean')]
  simp

end Pairs

namespace Domain

/-- The domains of explicit states and of predicate states and their products, each with the
states that are built and the values at which the literals of these are two-valued. -/
inductive Standard : {σ π : Type} → [ExprState σ] → Domain σ π → (σ → Prop) →
    (σ → TypedValues → Prop) → Prop
  | explicit : Standard ExplicitState.domain ExplicitState.IsBuilt fun _ _ => True
  | predicate : Standard PredicateState.domain PredicateState.IsBuilt PredicateState.Decided
  | product {σ τ π ρ : Type} [ExprState σ] [ExprState τ] {first : Domain σ π}
      {second : Domain τ ρ} {wellFormed : σ → Prop} {wellFormed' : τ → Prop}
      {decides : σ → TypedValues → Prop} {decides' : τ → TypedValues → Prop}
      (standard : Standard first wellFormed decides)
      (standard' : Standard second wellFormed' decides') :
      Standard (first.product second) (fun pair => wellFormed pair.1 ∧ wellFormed' pair.2)
        fun pair assignment => decides pair.1 assignment ∧ decides' pair.2 assignment

namespace Standard

variable [ExprState σ] {domain : Domain σ π} {wellFormed : σ → Prop}
  {decides : σ → TypedValues → Prop}

theorem boolean (standard : domain.Standard wellFormed decides) {state : σ}
    (built : wellFormed state) : (ExprState.toExpr state).ty = .bool := by
  induction standard with
  | explicit =>
      cases state with
      | bottom => rfl
      | values valuation => exact built.1.encodable.2
  | predicate =>
      cases state with
      | bottom => rfl
      | cube literals =>
          obtain ⟨formula, formed⟩ := Expr.exists_mkAnd built.2
          rw [PredicateState.toExpr_of_mkAnd formed]
          exact (Expr.isConjunction_of_mkAnd formed).boolean built.2
  | product standard standard' boolean boolean' =>
      exact boolean_pair (boolean built.1) (boolean' built.2)

theorem exact (standard : domain.Standard wellFormed decides) :
    domain.Exact wellFormed decides ExprState.Contains := by
  induction standard with
  | explicit => exact ExplicitState.exact_domain
  | predicate => exact PredicateState.exact_domain
  | product standard standard' exact exact' =>
      exact (exact.product exact').congr fun pair assignment built =>
        (satisfies_pair_iff (standard.boolean built.1) (standard'.boolean built.2)).symm

end Standard

end Domain

/-- In these domains and in their liftings to locations, the order is a preorder that respects
what states contain, joins are exact, and a node that was closed contains nothing that its
covering nodes do not contain. -/
theorem joins_exact [ExprState σ] {domain : Domain σ π} {wellFormed : σ → Prop}
    {decides : σ → TypedValues → Prop} (standard : domain.Standard wellFormed decides) :
    domain.Exact wellFormed decides ExprState.Contains ∧
      (Located.domain domain).Exact (fun located => wellFormed located.state)
        (fun located point => decides located.state point.2) Located.Contains ∧
      (∀ (ω α : Type) (explorer : Explorer ω σ α π), explorer.analysis.toDomain = domain →
        explorer.CoversExactly wellFormed decides ExprState.Contains) ∧
      ∀ (ω α : Type) (explorer : Explorer ω (Located σ) α π),
        explorer.analysis.toDomain = Located.domain domain →
          explorer.CoversExactly (fun located => wellFormed located.state)
            (fun located point => decides located.state point.2) Located.Contains := by
  have exact := standard.exact
  have located : (Located.domain domain).Exact (fun located => wellFormed located.state)
    (fun located point => decides located.state point.2) Located.Contains := exact.located
  refine ⟨exact, located, fun ω α explorer same => ?_, fun ω α explorer same => ?_⟩
  · rw [← same] at exact
    exact exact.coversExactly
  · rw [← same] at located
    exact located.coversExactly

/-- The state in which one flag is set and the other one has the given value. -/
def flagPair (value : Bool) : PredicateState × ExplicitState :=
  (.cube [.sym ⟨⟨"armed", .bool⟩, none⟩], .values ⟨[(⟨⟨"open", .bool⟩, none⟩, .bool value)]⟩)

/-- Two pairs that differ in the value of one flag are joined by forgetting it. -/
theorem flagPair_joined : ∃ union,
    (PredicateState.domain.product ExplicitState.domain).join default (flagPair true)
      (flagPair false) = some union ∧
    ∀ assignment : TypedValues, (flagPair true).1.Decided assignment →
      (ExprState.Contains union assignment ↔
        ExprState.Contains (flagPair true) assignment ∨
          ExprState.Contains (flagPair false) assignment) := by
  have built (value : Bool) : (flagPair value).1.IsBuilt ∧ (flagPair value).2.IsBuilt := by
    refine ⟨⟨List.pairwise_singleton .., ?_⟩, ?_, List.pairwise_singleton ..⟩
    · exact List.forall_mem_singleton.mpr rfl
    · exact List.forall_mem_singleton.mpr (Value.hasType_bool value)
  have joined : (PredicateState.domain.product ExplicitState.domain).join default
      (flagPair true) (flagPair false) =
        some (.cube [.sym ⟨⟨"armed", .bool⟩, none⟩], .values ⟨[]⟩) := by
    decide +kernel
  refine ⟨_, joined, fun assignment decided => ?_⟩
  exact (joins_exact (.product .predicate .explicit)).1.contains_join_iff (built true)
    (built false) joined ⟨decided, trivial⟩ ⟨decided, trivial⟩

end AbstractionRefinement
