import AbstractionRefinement.FormulaEvaluation
import AbstractionRefinement.Proofs.OrderedCollectionLaws

/-!
# Symbols of formulas

Formulas nest in lists of operands, so this file first states the induction over
them.  It then finds the symbols of a formula among those of its operands, and
shows that a value depends on no other symbol.
-/

namespace AbstractionRefinement

namespace Expr

/-- Induction over formulas, with the hypothesis for every operand of a list. -/
@[induction_eliminator]
theorem induction {motive : Expr → Prop} (lit : ∀ value, motive (lit value))
    (sym : ∀ symbol, motive (sym symbol))
    (unary : ∀ operator operand ty, motive operand → motive (unary operator operand ty))
    (binary : ∀ operator left right ty, motive left → motive right →
      motive (binary operator left right ty))
    (ternary : ∀ operator first second third ty, motive first → motive second → motive third →
      motive (ternary operator first second third ty))
    (nary : ∀ operator operands ty, (∀ operand ∈ operands, motive operand) →
      motive (nary operator operands ty))
    (formula : Expr) : motive formula := by
  refine Expr.rec (motive_1 := motive)
    (motive_2 := fun operands => ∀ operand ∈ operands, motive operand)
    lit sym unary binary ternary nary ?_ ?_ formula
  · simp
  · intro operand operands holds holdsAll
    simpa using ⟨holds, holdsAll⟩

section Operands

variable {assignment : Symbol → Option Value} {symbol : Symbol} {operands : List Expr}

theorem evalAll_eq_map (operands : List Expr) :
    evalAll assignment operands = operands.map (eval assignment) := by
  induction operands with
  | nil => rfl
  | cons operand operands ih => rw [evalAll, ih, List.map_cons]

theorem hasPrimeAny_eq_any (operands : List Expr) :
    hasPrimeAny operands = operands.any hasPrime := by
  induction operands with
  | nil => rfl
  | cons operand operands ih => rw [hasPrimeAny, ih, List.any_cons]

theorem replaceAllBottomUp_eq_map (rule : Expr → Option Expr) (operands : List Expr) :
    replaceAllBottomUp rule operands = operands.map (replaceBottomUp rule) := by
  induction operands with
  | nil => rfl
  | cons operand operands ih => rw [replaceAllBottomUp, ih, List.map_cons]

end Operands

section Symbols

variable {symbol : Symbol}

/-- A symbol collected from several formulas was there before or comes from one of
them, if this is so for each of them. -/
theorem mem_collectSymbolsAll_of {operands : List Expr} (each : ∀ operand ∈ operands,
      ∀ found, symbol ∈ collectSymbols operand found ↔ symbol ∈ found ∨ symbol ∈ operand.symbols)
    (found : List Symbol) : symbol ∈ collectSymbolsAll operands found ↔
      symbol ∈ found ∨ ∃ operand ∈ operands, symbol ∈ operand.symbols := by
  induction operands generalizing found with
  | nil => simp [collectSymbolsAll]
  | cons operand operands ih =>
      simp only [List.mem_cons, forall_eq_or_imp] at each
      rw [collectSymbolsAll, ih each.2, each.1]
      simp only [List.mem_cons, exists_eq_or_imp]
      tauto

theorem mem_collectSymbols (formula : Expr) (found : List Symbol) :
    symbol ∈ formula.collectSymbols found ↔ symbol ∈ found ∨ symbol ∈ formula.symbols := by
  induction formula generalizing found with
  | lit value => simp [symbols, collectSymbols]
  | sym symbol' =>
      simp only [symbols, collectSymbols, OrderedSet.mem_insert]
      simp [or_comm]
  | unary operator operand ty ih => exact ih found
  | binary operator left right ty ihLeft ihRight =>
      show symbol ∈ right.collectSymbols (left.collectSymbols found) ↔
        symbol ∈ found ∨ symbol ∈ right.collectSymbols left.symbols
      rw [ihRight, ihLeft, ihRight, or_assoc]
  | ternary operator first second third ty ihFirst ihSecond ihThird =>
      show symbol ∈ third.collectSymbols (second.collectSymbols (first.collectSymbols found)) ↔
        symbol ∈ found ∨ symbol ∈ third.collectSymbols (second.collectSymbols first.symbols)
      simp only [ihThird _, ihSecond _, ihFirst found, or_assoc]
  | nary operator operands ty ih =>
      simp only [symbols, collectSymbols, mem_collectSymbolsAll_of ih]
      simp

theorem mem_collectSymbolsAll (operands : List Expr) (found : List Symbol) :
    symbol ∈ collectSymbolsAll operands found ↔
      symbol ∈ found ∨ ∃ operand ∈ operands, symbol ∈ operand.symbols :=
  mem_collectSymbolsAll_of (fun operand _ => mem_collectSymbols operand) found

/-- Symbols are collected into sorted lists. -/
theorem sorted_collectSymbols (formula : Expr) {found : List Symbol}
    (sorted : OrderedSet.Sorted found) : OrderedSet.Sorted (formula.collectSymbols found) := by
  induction formula generalizing found with
  | lit value => exact sorted
  | sym symbol => exact sorted.insert symbol
  | unary operator operand ty ih => exact ih sorted
  | binary operator left right ty ihLeft ihRight => exact ihRight (ihLeft sorted)
  | ternary operator first second third ty ihFirst ihSecond ihThird =>
      exact ihThird (ihSecond (ihFirst sorted))
  | nary operator operands ty ih =>
      rw [collectSymbols]
      induction operands generalizing found with
      | nil => exact sorted
      | cons operand operands ihOperands =>
          obtain ⟨first, rest⟩ := List.forall_mem_cons.mp ih
          exact ihOperands rest (first sorted)

theorem sorted_collectSymbolsAll (operands : List Expr) {found : List Symbol}
    (sorted : OrderedSet.Sorted found) : OrderedSet.Sorted (collectSymbolsAll operands found) := by
  induction operands generalizing found with
  | nil => exact sorted
  | cons operand operands ih => exact ih (sorted_collectSymbols operand sorted)

@[simp]
theorem mem_symbols_lit {value : Value} : symbol ∉ (lit value).symbols :=
  List.not_mem_nil

@[simp]
theorem mem_symbols_sym {symbol' : Symbol} : symbol ∈ (sym symbol').symbols ↔ symbol = symbol' :=
  List.mem_singleton

@[simp]
theorem mem_symbols_unary {operator : UnaryOperator} {operand : Expr} {ty : Ty} :
    symbol ∈ (unary operator operand ty).symbols ↔ symbol ∈ operand.symbols :=
  Iff.rfl

@[simp]
theorem mem_symbols_binary {operator : BinaryOperator} {left right : Expr} {ty : Ty} :
    symbol ∈ (binary operator left right ty).symbols ↔
      symbol ∈ left.symbols ∨ symbol ∈ right.symbols :=
  mem_collectSymbols right left.symbols

@[simp]
theorem mem_symbols_ternary {operator : TernaryOperator} {first second third : Expr} {ty : Ty} :
    symbol ∈ (ternary operator first second third ty).symbols ↔
      symbol ∈ first.symbols ∨ symbol ∈ second.symbols ∨ symbol ∈ third.symbols := by
  rw [show (ternary operator first second third ty).symbols =
    third.collectSymbols (second.collectSymbols first.symbols) from rfl, mem_collectSymbols,
    mem_collectSymbols, or_assoc]

@[simp]
theorem mem_symbols_nary {operator : NaryOperator} {operands : List Expr} {ty : Ty} :
    symbol ∈ (nary operator operands ty).symbols ↔
      ∃ operand ∈ operands, symbol ∈ operand.symbols := by
  rw [show (nary operator operands ty).symbols = collectSymbolsAll operands [] from rfl,
    mem_collectSymbolsAll]
  simp

end Symbols

/-- A value depends only on the values of the formula's symbols. -/
theorem eval_congr {assignment assignment' : Symbol → Option Value} {formula : Expr}
    (same : ∀ symbol ∈ formula.symbols, assignment symbol = assignment' symbol) :
    formula.eval assignment = formula.eval assignment' := by
  induction formula with
  | lit value => rfl
  | sym symbol => exact same symbol (by simp)
  | unary operator operand ty ih =>
      rw [eval, eval, ih same]
  | binary operator left right ty ihLeft ihRight =>
      simp only [mem_symbols_binary] at same
      rw [eval, eval, ihLeft fun symbol member => same symbol (.inl member),
        ihRight fun symbol member => same symbol (.inr member)]
  | ternary operator first second third ty ihFirst ihSecond ihThird =>
      simp only [mem_symbols_ternary] at same
      rw [eval, eval, ihFirst fun symbol member => same symbol (.inl member),
        ihSecond fun symbol member => same symbol (.inr (.inl member)),
        ihThird fun symbol member => same symbol (.inr (.inr member))]
  | nary operator operands ty ih =>
      simp only [mem_symbols_nary] at same
      rw [eval, eval, evalAll_eq_map, evalAll_eq_map]
      congr 1
      apply List.map_congr_left
      intro operand member
      exact ih operand member fun symbol occurs => same symbol ⟨operand, member, occurs⟩

theorem evalBool_congr {assignment assignment' : Symbol → Option Value} {formula : Expr}
    (same : ∀ symbol ∈ formula.symbols, assignment symbol = assignment' symbol) :
    formula.evalBool assignment = formula.evalBool assignment' := by
  rw [evalBool, evalBool, eval_congr same]

end Expr

end AbstractionRefinement
