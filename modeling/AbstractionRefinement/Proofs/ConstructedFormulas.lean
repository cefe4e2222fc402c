import AbstractionRefinement.Proofs.CanonicalValues
import AbstractionRefinement.Proofs.ComputationLaws

/-!
# Constructed formulas

The checked constructors refuse operands of unsuitable types, so that a formula they build of
proper literals is well typed and well formed, whatever the order in which they are applied.
-/

namespace AbstractionRefinement

open AbstractionRefinement.Computation

namespace Expr

/-- The formulas that the checked constructors build of canonical literals. -/
inductive Constructed : Expr → Prop
  | lit {value : Value} : value.Proper value.ty → Constructed (lit value)
  | sym (symbol : Symbol) : Constructed (sym symbol)
  | prime {operand formula : Expr} : Constructed operand → mkPrime operand = .ok formula →
      Constructed formula
  | not {operand formula : Expr} : Constructed operand → mkNot operand = .ok formula →
      Constructed formula
  | and {operands : List Expr} {formula : Expr} : (∀ operand ∈ operands, Constructed operand) →
      mkAnd operands = .ok formula → Constructed formula
  | or {operands : List Expr} {formula : Expr} : (∀ operand ∈ operands, Constructed operand) →
      mkOr operands = .ok formula → Constructed formula
  | add {operands : List Expr} {formula : Expr} : (∀ operand ∈ operands, Constructed operand) →
      mkAdd operands = .ok formula → Constructed formula
  | mul {operands : List Expr} {formula : Expr} : (∀ operand ∈ operands, Constructed operand) →
      mkMul operands = .ok formula → Constructed formula
  | binary {operator : BinaryOperator} {left right formula : Expr} : Constructed left →
      Constructed right → mkBinary operator left right = .ok formula → Constructed formula
  | negate {operand formula : Expr} : Constructed operand → mkNegate operand = .ok formula →
      Constructed formula
  | bvNot {operand formula : Expr} : Constructed operand → mkBvNot operand = .ok formula →
      Constructed formula
  | ite {condition positive negative formula : Expr} : Constructed condition →
      Constructed positive → Constructed negative →
      mkIte condition positive negative = .ok formula → Constructed formula
  | write {array index element formula : Expr} : Constructed array → Constructed index →
      Constructed element → mkWrite array index element = .ok formula → Constructed formula

section Checks

variable {name : String} {operand : Expr}

theorem ty_eq_of_expectType {expected : Ty} (checked : expectType name operand expected = .ok ()) :
    operand.ty = expected := by
  unfold expectType at checked
  split at checked
  case isTrue same => exact same
  case isFalse => cases checked

theorem isNumeric_of_expectNumeric (checked : expectNumeric name operand = .ok ()) :
    operand.ty.isNumeric = true := by
  unfold expectNumeric at checked
  split at checked
  case isTrue numeric => exact numeric
  case isFalse => cases checked

theorem isBitVec_of_expectBitVec (checked : expectBitVec name operand = .ok ()) :
    operand.ty.isBitVec = true := by
  unfold expectBitVec at checked
  split at checked
  case isTrue isBitVec => exact isBitVec
  case isFalse => cases checked

theorem ty_eq_of_expectTypeAll {expected : Ty} {operands : List Expr}
    (checked : expectTypeAll name expected operands = .ok ()) :
    ∀ operand ∈ operands, operand.ty = expected := by
  induction operands with
  | nil => exact List.forall_mem_nil _
  | cons operand operands ih =>
      obtain ⟨_, checkedFirst, checkedRest⟩ := exists_of_bind_eq_ok checked
      exact List.forall_mem_cons.mpr ⟨ty_eq_of_expectType checkedFirst, ih checkedRest⟩

end Checks

section Constructors

variable {formula : Expr}

theorem types_of_mkConnective {operator : BinaryOperator} {left right : Expr}
    (built : mkConnective operator left right = .ok formula) :
    formula = binary operator left right .bool ∧ left.ty = .bool ∧ right.ty = .bool := by
  obtain ⟨_, typed, built⟩ := exists_of_bind_eq_ok built
  obtain ⟨_, typed', built⟩ := exists_of_bind_eq_ok built
  cases built
  exact ⟨rfl, ty_eq_of_expectType typed, ty_eq_of_expectType typed'⟩

theorem types_of_mkEquation {operator : BinaryOperator} {left right : Expr}
    (built : mkEquation operator left right = .ok formula) :
    formula = binary operator left right .bool ∧ right.ty = left.ty := by
  obtain ⟨_, typed, built⟩ := exists_of_bind_eq_ok built
  cases built
  exact ⟨rfl, ty_eq_of_expectType typed⟩

theorem types_of_mkComparison {operator : BinaryOperator} {left right : Expr}
    (built : mkComparison operator left right = .ok formula) :
    formula = binary operator left right .bool ∧ left.ty.isNumeric ∧ right.ty = left.ty := by
  obtain ⟨_, numeric, built⟩ := exists_of_bind_eq_ok built
  obtain ⟨_, typed, built⟩ := exists_of_bind_eq_ok built
  cases built
  exact ⟨rfl, isNumeric_of_expectNumeric numeric, ty_eq_of_expectType typed⟩

theorem types_of_mkNumericBinary {operator : BinaryOperator} {left right : Expr}
    (built : mkNumericBinary operator left right = .ok formula) :
    formula = binary operator left right left.ty ∧ left.ty.isNumeric ∧ right.ty = left.ty := by
  obtain ⟨_, numeric, built⟩ := exists_of_bind_eq_ok built
  obtain ⟨_, typed, built⟩ := exists_of_bind_eq_ok built
  cases built
  exact ⟨rfl, isNumeric_of_expectNumeric numeric, ty_eq_of_expectType typed⟩

theorem types_of_mkBitVecBinary {operator : BinaryOperator} {left right : Expr}
    (built : mkBitVecBinary operator left right = .ok formula) :
    formula = binary operator left right left.ty ∧ left.ty.isBitVec ∧ right.ty = left.ty := by
  obtain ⟨_, isBitVec, built⟩ := exists_of_bind_eq_ok built
  obtain ⟨_, typed, built⟩ := exists_of_bind_eq_ok built
  cases built
  exact ⟨rfl, isBitVec_of_expectBitVec isBitVec, ty_eq_of_expectType typed⟩

/-- A built operation on two operands is typed. -/
theorem types_of_mkBinary {operator : BinaryOperator} {left right : Expr}
    (built : mkBinary operator left right = .ok formula) :
    ∃ ty, formula = binary operator left right ty ∧ operator.Types left.ty right.ty ty := by
  cases operator
  case imply | iff =>
    obtain ⟨rfl, typed, typed'⟩ := types_of_mkConnective built
    exact ⟨.bool, rfl, typed, typed', rfl⟩
  case eq | neq =>
    obtain ⟨rfl, same⟩ := types_of_mkEquation built
    exact ⟨.bool, rfl, same, rfl⟩
  case lt | leq | gt | geq =>
    obtain ⟨rfl, numeric, same⟩ := types_of_mkComparison built
    exact ⟨.bool, rfl, numeric, same, rfl⟩
  case sub | div =>
    obtain ⟨rfl, numeric, same⟩ := types_of_mkNumericBinary built
    exact ⟨left.ty, rfl, numeric, same, rfl⟩
  case mod =>
    obtain ⟨_, typed, built⟩ := exists_of_bind_eq_ok built
    obtain ⟨_, typed', built⟩ := exists_of_bind_eq_ok built
    cases built
    exact ⟨.int, rfl, ty_eq_of_expectType typed, ty_eq_of_expectType typed', rfl⟩
  case read =>
    change mkRead left right = .ok formula at built
    unfold mkRead at built
    split at built
    case h_1 index element isArray =>
      obtain ⟨_, typed, built⟩ := exists_of_bind_eq_ok built
      cases built
      refine ⟨element, rfl, ?_⟩
      rw [isArray, ty_eq_of_expectType typed]
      rfl
    case h_2 => cases built
  case bvAnd | bvOr | bvXor | bvAdd =>
    obtain ⟨rfl, isBitVec, same⟩ := types_of_mkBitVecBinary built
    exact ⟨left.ty, rfl, isBitVec, same, rfl⟩
  case bvUlt =>
    obtain ⟨_, isBitVec, built⟩ := exists_of_bind_eq_ok built
    obtain ⟨_, typed, built⟩ := exists_of_bind_eq_ok built
    cases built
    exact ⟨.bool, rfl, isBitVec_of_expectBitVec isBitVec, ty_eq_of_expectType typed, rfl⟩

theorem types_of_mkIte {condition positive negative : Expr}
    (built : mkIte condition positive negative = .ok formula) :
    ∃ ty, formula = ternary .ite condition positive negative ty ∧
      TernaryOperator.ite.Types condition.ty positive.ty negative.ty ty := by
  obtain ⟨_, typed, built⟩ := exists_of_bind_eq_ok built
  obtain ⟨_, typed', built⟩ := exists_of_bind_eq_ok built
  cases built
  exact ⟨positive.ty, rfl, ty_eq_of_expectType typed, ty_eq_of_expectType typed', rfl⟩

theorem types_of_mkWrite {array index element : Expr}
    (built : mkWrite array index element = .ok formula) :
    ∃ ty, formula = ternary .write array index element ty ∧
      TernaryOperator.write.Types array.ty index.ty element.ty ty := by
  unfold mkWrite at built
  split at built
  case h_1 indexTy elementTy isArray =>
    obtain ⟨_, typed, built⟩ := exists_of_bind_eq_ok built
    obtain ⟨_, typed', built⟩ := exists_of_bind_eq_ok built
    cases built
    refine ⟨array.ty, rfl, ?_, rfl⟩
    rw [isArray, ty_eq_of_expectType typed, ty_eq_of_expectType typed']
  case h_2 => cases built

/-- The result of assembling operands under one operator: nothing gives a constant, and a
single operand stands for itself. -/
inductive Assembles (operator : NaryOperator) : List Expr → Expr → Prop
  | constant (truth : Bool) : Assembles operator [] (ofBool truth)
  | single (operand : Expr) : Assembles operator [operand] operand
  | node {operands : List Expr} {ty : Ty} : operands ≠ [] →
      operator.Types (operands.map Expr.ty) ty →
      Assembles operator operands (nary operator operands ty)

theorem assembles_of_mkAnd {operands : List Expr} (built : mkAnd operands = .ok formula) :
    Assembles .and operands formula := by
  obtain ⟨_, typed, built⟩ := exists_of_bind_eq_ok built
  have boolean := ty_eq_of_expectTypeAll typed
  split at built <;> cases built
  · exact .constant true
  · exact .single _
  · exact .node ‹_› ⟨rfl, List.forall_mem_map.mpr boolean⟩

theorem assembles_of_mkOr {operands : List Expr} (built : mkOr operands = .ok formula) :
    Assembles .or operands formula := by
  obtain ⟨_, typed, built⟩ := exists_of_bind_eq_ok built
  have boolean := ty_eq_of_expectTypeAll typed
  split at built <;> cases built
  · exact .constant false
  · exact .single _
  · exact .node ‹_› ⟨rfl, List.forall_mem_map.mpr boolean⟩

theorem assembles_of_mkArithmetic {operator : NaryOperator} {operands : List Expr}
    (arithmetic : ∀ operands ty, Ty.isNumeric ty = true → (∀ operand ∈ operands, operand = ty) →
      operator.Types operands ty) (built : mkArithmetic operator operands = .ok formula) :
    Assembles operator operands formula := by
  unfold mkArithmetic at built
  split at built
  case h_1 => cases built
  case h_2 first rest =>
    obtain ⟨_, numeric, built⟩ := exists_of_bind_eq_ok built
    obtain ⟨_, typed, built⟩ := exists_of_bind_eq_ok built
    split at built <;> cases built
    · exact .single _
    · refine .node (List.cons_ne_nil _ _) (arithmetic _ _ (isNumeric_of_expectNumeric numeric) ?_)
      exact List.forall_mem_map.mpr
        (List.forall_mem_cons.mpr ⟨rfl, ty_eq_of_expectTypeAll typed⟩)

theorem assembles_of_mkAdd {operands : List Expr} (built : mkAdd operands = .ok formula) :
    Assembles .add operands formula :=
  assembles_of_mkArithmetic (fun _ _ numeric same => ⟨numeric, same⟩) built

theorem assembles_of_mkMul {operands : List Expr} (built : mkMul operands = .ok formula) :
    Assembles .mul operands formula :=
  assembles_of_mkArithmetic (fun _ _ numeric same => ⟨numeric, same⟩) built

end Constructors

variable {formula : Expr}

theorem Assembles.regular {operator : NaryOperator} {operands : List Expr}
    (assembles : Assembles operator operands formula)
    (regular : ∀ operand ∈ operands, operand.WellTyped ∧ operand.WellFormed) :
    formula.WellTyped ∧ formula.WellFormed := by
  cases assembles with
  | constant truth => exact ⟨Value.hasType_bool truth, trivial⟩
  | single => exact regular formula List.mem_cons_self
  | node nonempty types =>
      exact ⟨⟨types, allWellTyped_iff.mpr fun operand member => (regular operand member).1⟩,
        nonempty, allWellFormed_iff.mpr fun operand member => (regular operand member).2⟩

theorem Constructed.regular (constructed : formula.Constructed) :
    formula.WellTyped ∧ formula.WellFormed := by
  induction constructed with
  | lit proper => exact ⟨proper.hasType, proper.canonical⟩
  | sym symbol => exact ⟨trivial, trivial⟩
  | prime _ built ih =>
      unfold mkPrime at built
      split at built <;> cases built
      exact ⟨⟨rfl, ih.1⟩, ih.2⟩
  | not _ built ih =>
      obtain ⟨_, typed, built⟩ := exists_of_bind_eq_ok built
      cases built
      exact ⟨⟨⟨ty_eq_of_expectType typed, rfl⟩, ih.1⟩, ih.2⟩
  | and _ built ih => exact (assembles_of_mkAnd built).regular ih
  | or _ built ih => exact (assembles_of_mkOr built).regular ih
  | add _ built ih => exact (assembles_of_mkAdd built).regular ih
  | mul _ built ih => exact (assembles_of_mkMul built).regular ih
  | binary _ _ built ihLeft ihRight =>
      obtain ⟨ty, rfl, types⟩ := types_of_mkBinary built
      exact ⟨⟨types, ihLeft.1, ihRight.1⟩, ihLeft.2, ihRight.2⟩
  | negate _ built ih =>
      obtain ⟨_, numeric, built⟩ := exists_of_bind_eq_ok built
      cases built
      exact ⟨⟨⟨isNumeric_of_expectNumeric numeric, rfl⟩, ih.1⟩, ih.2⟩
  | bvNot _ built ih =>
      obtain ⟨_, isBitVec, built⟩ := exists_of_bind_eq_ok built
      cases built
      exact ⟨⟨⟨isBitVec_of_expectBitVec isBitVec, rfl⟩, ih.1⟩, ih.2⟩
  | ite _ _ _ built ihCondition ihPositive ihNegative =>
      obtain ⟨ty, rfl, types⟩ := types_of_mkIte built
      exact ⟨⟨types, ihCondition.1, ihPositive.1, ihNegative.1⟩,
        ihCondition.2, ihPositive.2, ihNegative.2⟩
  | write _ _ _ built ihArray ihIndex ihElement =>
      obtain ⟨ty, rfl, types⟩ := types_of_mkWrite built
      exact ⟨⟨types, ihArray.1, ihIndex.1, ihElement.1⟩, ihArray.2, ihIndex.2, ihElement.2⟩

end Expr

end AbstractionRefinement
