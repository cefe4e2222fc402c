import AbstractionRefinement.Proofs.PathFormulas
import AbstractionRefinement.Proofs.SessionRuns

/-!
# Widened intervals of a query

An unsatisfiable answer is confirmed over intervals that are stretched over the integer
literals of all asserted formulas and then widened by the margin.  More literals give
larger intervals, so an answer also speaks about the values that the literals of any one
of the formulas give.
-/

namespace AbstractionRefinement

/-- The literals between the first bounds lie between the second ones. -/
def WithinBounds : Option (Int × Int) → Option (Int × Int) → Prop
  | none, _ => True
  | some _, none => False
  | some (low, high), some (low', high') => low' ≤ low ∧ high ≤ high'

namespace WithinBounds

variable {first second third : Option (Int × Int)}

theorem refl (bounds : Option (Int × Int)) : WithinBounds bounds bounds := by
  cases bounds with
  | none => trivial
  | some bounds => exact ⟨Int.le_refl _, Int.le_refl _⟩

theorem trans (within : WithinBounds first second) (within' : WithinBounds second third) :
    WithinBounds first third := by
  cases first with
  | none => trivial
  | some first =>
      cases second with
      | none => cases within
      | some second =>
          cases third with
          | none => cases within'
          | some third =>
              exact ⟨Int.le_trans within'.1 within.1, Int.le_trans within.2 within'.2⟩

theorem includeInteger (within : WithinBounds first second) (number : Int) :
    WithinBounds (includeInteger first number) (includeInteger second number) := by
  cases first with
  | none =>
      cases second with
      | none => exact refl _
      | some second =>
          show min second.1 number ≤ number ∧ number ≤ max second.2 number
          omega
  | some first =>
      cases second with
      | none => cases within
      | some second =>
          obtain ⟨lower, upper⟩ := within
          show min second.1 number ≤ min first.1 number ∧
            max first.2 number ≤ max second.2 number
          omega

theorem of_includeInteger (bounds : Option (Int × Int)) (number : Int) :
    WithinBounds bounds (AbstractionRefinement.includeInteger bounds number) := by
  cases bounds with
  | none => trivial
  | some bounds =>
      show min bounds.1 number ≤ bounds.1 ∧ bounds.2 ≤ max bounds.2 number
      omega

end WithinBounds

namespace Expr

variable {bounds bounds' : Option (Int × Int)}

theorem literalBoundsAll_eq_foldl (bounds : Option (Int × Int)) (operands : List Expr) :
    literalBoundsAll bounds operands = operands.foldl literalBounds bounds := by
  induction operands generalizing bounds with
  | nil => rfl
  | cons operand operands ih => exact ih _

theorem foldl_literalBounds_mono {operands : List Expr}
    (all : ∀ operand ∈ operands, ∀ {bounds bounds'}, WithinBounds bounds bounds' →
      WithinBounds (operand.literalBounds bounds) (operand.literalBounds bounds'))
    (within : WithinBounds bounds bounds') :
    WithinBounds (operands.foldl literalBounds bounds) (operands.foldl literalBounds bounds') := by
  induction operands generalizing bounds bounds' with
  | nil => exact within
  | cons operand operands ih =>
      obtain ⟨first, rest⟩ := List.forall_mem_cons.mp all
      exact ih rest (first within)

theorem literalBounds_mono (formula : Expr) (within : WithinBounds bounds bounds') :
    WithinBounds (formula.literalBounds bounds) (formula.literalBounds bounds') := by
  induction formula generalizing bounds bounds' with
  | lit value =>
      cases value with
      | int number => exact within.includeInteger number
      | _ => exact within
  | sym symbol => exact within
  | unary operator operand ty ih => exact ih within
  | binary operator left right ty ihLeft ihRight => exact ihRight (ihLeft within)
  | ternary operator first second third ty ihFirst ihSecond ihThird =>
      exact ihThird (ihSecond (ihFirst within))
  | nary operator operands ty ih =>
      rw [literalBounds, literalBounds, literalBoundsAll_eq_foldl, literalBoundsAll_eq_foldl]
      exact foldl_literalBounds_mono ih within

theorem within_foldl_literalBounds {operands : List Expr}
    (all : ∀ operand ∈ operands, ∀ bounds, WithinBounds bounds (operand.literalBounds bounds))
    (bounds : Option (Int × Int)) :
    WithinBounds bounds (operands.foldl literalBounds bounds) := by
  induction operands generalizing bounds with
  | nil => exact .refl _
  | cons operand operands ih =>
      obtain ⟨first, rest⟩ := List.forall_mem_cons.mp all
      exact (first bounds).trans (ih rest _)

theorem within_literalBounds (formula : Expr) (bounds : Option (Int × Int)) :
    WithinBounds bounds (formula.literalBounds bounds) := by
  induction formula generalizing bounds with
  | lit value =>
      cases value with
      | int number => exact .of_includeInteger _ _
      | _ => exact .refl _
  | sym symbol => exact .refl _
  | unary operator operand ty ih => exact ih bounds
  | binary operator left right ty ihLeft ihRight =>
      exact (ihLeft bounds).trans (ihRight _)
  | ternary operator first second third ty ihFirst ihSecond ihThird =>
      exact ((ihFirst bounds).trans (ihSecond _)).trans (ihThird _)
  | nary operator operands ty ih =>
      rw [literalBounds, literalBoundsAll_eq_foldl]
      exact within_foldl_literalBounds ih bounds

theorem within_literalBoundsAll {formula : Expr} {operands : List Expr}
    (member : formula ∈ operands) (bounds : Option (Int × Int)) :
    WithinBounds (formula.literalBounds none) (literalBoundsAll bounds operands) := by
  obtain ⟨before, after, rfl⟩ := List.append_of_mem member
  rw [literalBoundsAll_eq_foldl, List.foldl_append, List.foldl_cons]
  have nothing : WithinBounds none (before.foldl literalBounds bounds) := trivial
  exact (literalBounds_mono formula nothing).trans
    (within_foldl_literalBounds (fun operand _ => operand.within_literalBounds) _)

theorem IsConjunction.within_literalBounds {operands : List Expr} {formula operand : Expr}
    (isConjunction : IsConjunction operands formula) (member : operand ∈ operands) :
    WithinBounds (operand.literalBounds none) (formula.literalBounds none) := by
  cases isConjunction with
  | nil => cases member
  | singleton =>
      rw [List.mem_singleton.mp member]
      exact .refl _
  | many => exact within_literalBoundsAll member none

/-- Moving a formula to time steps keeps its literals. -/
theorem literalBounds_unfoldUnder (indexing : Indexing) (primes : Nat) (formula : Expr)
    (bounds : Option (Int × Int)) :
    (formula.unfoldUnder indexing primes).literalBounds bounds = formula.literalBounds bounds := by
  induction formula generalizing primes bounds with
  | lit value => rfl
  | sym symbol => obtain ⟨decl, _ | step⟩ := symbol <;> rfl
  | unary operator operand ty ih => cases operator <;> exact ih _ bounds
  | binary operator left right ty ihLeft ihRight =>
      rw [unfoldUnder, literalBounds, literalBounds, ihLeft, ihRight]
  | ternary operator first second third ty ihFirst ihSecond ihThird =>
      rw [unfoldUnder, literalBounds, literalBounds, ihFirst, ihSecond, ihThird]
  | nary operator operands ty ih =>
      rw [unfoldUnder, literalBounds, literalBounds, unfoldAllUnder_eq_map,
        literalBoundsAll_eq_foldl, literalBoundsAll_eq_foldl, List.foldl_map]
      induction operands generalizing bounds with
      | nil => rfl
      | cons operand operands ihOperands =>
          obtain ⟨first, rest⟩ := List.forall_mem_cons.mp ih
          rw [List.foldl_cons, List.foldl_cons, first]
          exact ihOperands rest _

end Expr

namespace SolverConfig

variable {config : SolverConfig} {formulas : List Expr}

theorem widenRange_mono {bounds bounds' : Option (Int × Int)}
    (within : WithinBounds bounds bounds') (margin : Int) (range : Int × Int) :
    (widenRange margin bounds' range).1 ≤ (widenRange margin bounds range).1 ∧
      (widenRange margin bounds range).2 ≤ (widenRange margin bounds' range).2 := by
  unfold widenRange saturateInt64
  cases bounds with
  | none => cases bounds' <;> dsimp only <;> omega
  | some bounds =>
      cases bounds' with
      | none => cases within
      | some bounds' =>
          obtain ⟨lower, upper⟩ := within
          dsimp only
          omega

theorem Admits.widened (lawful : config.Lawful) (positive : 0 ≤ config.margin)
    (bounds : Option (Int × Int)) {decl : VarDecl} {value : Value}
    (admits : config.Admits decl value) : (config.widened bounds).Admits decl value := by
  obtain ⟨typed, inRange, inVector⟩ := admits
  refine ⟨typed, fun number isNumber => ?_, inVector⟩
  obtain ⟨lower, upper⟩ := inRange number isNumber
  obtain ⟨fitsLow, fitsHigh, -⟩ := lawful decl.name
  unfold FitsInt64 at fitsLow fitsHigh
  rw [rangeOf_widened]
  unfold widenRange saturateInt64
  cases bounds with
  | none => dsimp only; omega
  | some bounds => dsimp only; omega

theorem Admits.of_withinBounds {bounds bounds' : Option (Int × Int)}
    (within : WithinBounds bounds bounds') {decl : VarDecl} {value : Value}
    (admits : (config.widened bounds).Admits decl value) :
    (config.widened bounds').Admits decl value := by
  obtain ⟨typed, inRange, inVector⟩ := admits
  refine ⟨typed, fun number isNumber => ?_, inVector⟩
  obtain ⟨lower, upper⟩ := inRange number isNumber
  rw [rangeOf_widened] at lower upper ⊢
  have wider := widenRange_mono within config.margin (config.rangeOf decl.name)
  omega

/-- The values lie in the intervals that are trusted for the formula: those stretched over
its literals and widened by the margin. -/
def Reaches (config : SolverConfig) (formula : Expr) (values : Symbol → Value) : Prop :=
  ∀ symbol, (config.widened (formula.literalBounds none)).Admits symbol.decl (values symbol)

theorem Reaches.considers (positive : 0 < config.margin) {formula : Expr}
    (member : formula ∈ formulas) {values : Symbol → Value}
    (reaches : config.Reaches formula values) : config.Considers formulas values :=
  .inr ⟨positive, fun _ _ symbol _ =>
    (reaches symbol).of_withinBounds (Expr.within_literalBoundsAll member none)⟩

end SolverConfig

end AbstractionRefinement
