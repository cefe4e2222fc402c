import AbstractionRefinement.Proofs.PartialTruth

/-!
# Truth values of compiled formulas

The diagram of a formula has a truth value under every assignment, also where evaluation
is undefined: connectives combine the truth values of their operands, and an undefined
atom counts as false.  Where evaluation decides a well-typed formula, it decides it the
same way.
-/

namespace AbstractionRefinement

/-- The truth function of an operator on operands of a type, if it is a connective. -/
def BinaryOperator.connective (operator : BinaryOperator) (operands : Ty) :
    Option (Bool → Bool → Bool) :=
  match operator with
  | .imply => some fun first second => !first || second
  | .iff => some (· == ·)
  | .eq => if operands.isBool then some (· == ·) else none
  | .neq => if operands.isBool then some (· != ·) else none
  | _ => none

namespace Expr

/-- The truth value of an atom, false where it is undefined. -/
def atomTruth (assignment : Symbol → Option Value) (formula : Expr) : Bool :=
  formula.evalBool assignment = some true

mutual

/-- The truth value of a formula's diagram. -/
def truth (assignment : Symbol → Option Value) : Expr → Bool
  | lit value => atomTruth assignment (lit value)
  | sym symbol => atomTruth assignment (sym symbol)
  | unary operator operand ty =>
      match operator with
      | .not => !operand.truth assignment
      | _ => atomTruth assignment (unary operator operand ty)
  | binary operator left right ty =>
      match operator.connective left.ty with
      | some combine => combine (left.truth assignment) (right.truth assignment)
      | none => atomTruth assignment (binary operator left right ty)
  | ternary operator first second third ty =>
      atomTruth assignment (ternary operator first second third ty)
  | nary operator operands ty =>
      match operator with
      | .and => truthAll assignment operands
      | .or => truthAny assignment operands
      | _ => atomTruth assignment (nary operator operands ty)

def truthAll (assignment : Symbol → Option Value) : List Expr → Bool
  | [] => true
  | operand :: operands => operand.truth assignment && truthAll assignment operands

def truthAny (assignment : Symbol → Option Value) : List Expr → Bool
  | [] => false
  | operand :: operands => operand.truth assignment || truthAny assignment operands

end

section Connectives

variable {assignment assignment' : Symbol → Option Value} {operands : List Expr} {ty : Ty}

theorem truthAll_eq_all : truthAll assignment operands = operands.all (truth assignment) := by
  induction operands with
  | nil => rfl
  | cons operand operands ih => rw [truthAll, ih, List.all_cons]

theorem truthAny_eq_any : truthAny assignment operands = operands.any (truth assignment) := by
  induction operands with
  | nil => rfl
  | cons operand operands ih => rw [truthAny, ih, List.any_cons]

@[simp]
theorem truth_not (operand : Expr) :
    (unary .not operand ty).truth assignment = !operand.truth assignment := by
  rw [truth]

@[simp]
theorem truth_and : (nary .and operands ty).truth assignment =
    operands.all (truth assignment) := by
  rw [truth, truthAll_eq_all]

@[simp]
theorem truth_or : (nary .or operands ty).truth assignment =
    operands.any (truth assignment) := by
  rw [truth, truthAny_eq_any]

theorem atomTruth_congr {formula : Expr}
    (same : ∀ symbol ∈ formula.symbols, assignment symbol = assignment' symbol) :
    formula.atomTruth assignment = formula.atomTruth assignment' := by
  unfold atomTruth
  rw [evalBool_congr same]

/-- The truth value depends on the symbols of the formula only. -/
theorem truth_congr {formula : Expr}
    (same : ∀ symbol ∈ formula.symbols, assignment symbol = assignment' symbol) :
    formula.truth assignment = formula.truth assignment' := by
  induction formula with
  | lit value => exact atomTruth_congr same
  | sym symbol => exact atomTruth_congr same
  | unary operator operand ty ih =>
      cases operator with
      | not => rw [truth_not, truth_not, ih same]
      | _ => exact atomTruth_congr same
  | binary operator left right ty ihLeft ihRight =>
      have sameLeft := fun symbol occurs => same symbol (mem_symbols_binary.mpr (.inl occurs))
      have sameRight := fun symbol occurs => same symbol (mem_symbols_binary.mpr (.inr occurs))
      rw [truth, truth]
      cases operator.connective left.ty with
      | some combine => exact congrArg₂ combine (ihLeft sameLeft) (ihRight sameRight)
      | none => exact atomTruth_congr same
  | ternary operator first second third ty => exact atomTruth_congr same
  | nary operator operands ty ih =>
      have each (operand : Expr) (member : operand ∈ operands) :
          operand.truth assignment = operand.truth assignment' :=
        ih operand member fun symbol occurs =>
          same symbol (mem_symbols_nary.mpr ⟨operand, member, occurs⟩)
      cases operator with
      | and =>
          rw [truth_and, truth_and, Bool.eq_iff_iff, List.all_eq_true, List.all_eq_true]
          exact forall₂_congr fun operand member => by rw [each operand member]
      | or =>
          rw [truth_or, truth_or, Bool.eq_iff_iff, List.any_eq_true, List.any_eq_true]
          exact exists_congr fun operand => and_congr_right fun member => by
            rw [each operand member]
      | _ => exact atomTruth_congr same

end Connectives

section Agreement

variable {assignment : Symbol → Option Value}

theorem refines_atomTruth (formula : Expr) :
    Refines (formula.atomTruth assignment) (formula.evalBool assignment) := by
  intro result decided
  unfold atomTruth
  rw [decided]
  cases result <;> rfl

theorem refines_connective {operator : BinaryOperator} {left right : Expr} {ty : Ty}
    {combine : Bool → Bool → Bool} (isConnective : operator.connective left.ty = some combine)
    (sameTypes : operator = .eq ∨ operator = .neq → right.ty = left.ty)
    (typed : OptionHasType (left.eval assignment) left.ty)
    (typed' : OptionHasType (right.eval assignment) right.ty) {first second : Bool}
    (refines : Refines first (left.evalBool assignment))
    (refines' : Refines second (right.evalBool assignment)) :
    Refines (combine first second) ((binary operator left right ty).evalBool assignment) := by
  have asIff (boolean : left.ty.isBool = true) (isEquation : operator = .eq ∨ operator = .neq) :
      BinaryOperator.eq.evaluate (left.eval assignment) (right.eval assignment) =
        BinaryOperator.iff.evaluate (left.eval assignment) (right.eval assignment) := by
    have boolean := Ty.isBool_iff.mp boolean
    have boolean' := sameTypes isEquation
    rw [boolean', boolean] at typed'
    rw [boolean] at typed
    exact evaluate_eq_of_bool typed typed'
  rw [evalBool, eval]
  unfold BinaryOperator.connective at isConnective
  cases operator with
  | imply =>
      cases isConnective
      exact refines_imply refines refines'
  | iff =>
      cases isConnective
      exact refines_iff refines refines'
  | eq =>
      obtain ⟨boolean, made⟩ := Option.ite_none_right_eq_some.mp isConnective
      cases made
      rw [asIff boolean (.inl rfl)]
      exact refines_iff refines refines'
  | neq =>
      obtain ⟨boolean, made⟩ := Option.ite_none_right_eq_some.mp isConnective
      cases made
      rw [evaluate_neq, asIff boolean (.inr rfl)]
      exact (refines_iff refines refines').not
  | _ => cases isConnective

/-- Evaluation decides a formula as its diagram does. -/
theorem WellTyped.refines_truth {formula : Expr} (wellTyped : formula.WellTyped)
    (typed : ∀ symbol ∈ formula.symbols, OptionHasType (assignment symbol) symbol.ty) :
    Refines (formula.truth assignment) (formula.evalBool assignment) := by
  induction formula with
  | lit value => exact refines_atomTruth _
  | sym symbol => exact refines_atomTruth _
  | unary operator operand ty ih =>
      cases operator with
      | not =>
          rw [truth_not]
          exact (ih wellTyped.2 typed).not
      | _ => exact refines_atomTruth _
  | binary operator left right ty ihLeft ihRight =>
      obtain ⟨types, wellTypedLeft, wellTypedRight⟩ := wellTyped
      have typedLeft := fun symbol occurs => typed symbol (mem_symbols_binary.mpr (.inl occurs))
      have typedRight := fun symbol occurs => typed symbol (mem_symbols_binary.mpr (.inr occurs))
      rw [truth]
      cases isConnective : operator.connective left.ty with
      | none => exact refines_atomTruth _
      | some combine =>
          refine refines_connective isConnective ?_ (wellTypedLeft.hasType_eval typedLeft)
            (wellTypedRight.hasType_eval typedRight) (ihLeft wellTypedLeft typedLeft)
            (ihRight wellTypedRight typedRight)
          rintro (rfl | rfl)
          · exact types.1
          · exact types.1
  | ternary operator first second third ty => exact refines_atomTruth _
  | nary operator operands ty ih =>
      obtain ⟨-, wellTypedAll⟩ := wellTyped
      rw [allWellTyped_iff] at wellTypedAll
      have each (operand : Expr) (member : operand ∈ operands) :
          Refines (operand.truth assignment) (operand.evalBool assignment) :=
        ih operand member (wellTypedAll operand member) fun symbol occurs =>
          typed symbol (mem_symbols_nary.mpr ⟨operand, member, occurs⟩)
      cases operator with
      | and =>
          rw [truth_and, evalBool_and]
          exact refines_conjunction each
      | or =>
          rw [truth_or, evalBool_or]
          exact refines_disjunction each
      | _ => exact refines_atomTruth _

end Agreement

end Expr

end AbstractionRefinement
