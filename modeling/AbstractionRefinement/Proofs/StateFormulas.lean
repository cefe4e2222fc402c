import AbstractionRefinement.ExplicitValues
import AbstractionRefinement.Proofs.PathFormulas

/-!
# Formulas of explicit states

The formula of an explicit state equates each of its variables with a value.  If the
values are of the variables' types, the formula is encoded exactly and holds at the
stores that have these values.
-/

namespace AbstractionRefinement

namespace Expr

theorem expectTypeAll_eq_ok {operator : String} {expected : Ty} {operands : List Expr}
    (typed : ∀ operand ∈ operands, operand.ty = expected) :
    expectTypeAll operator expected operands = .ok () := by
  induction operands with
  | nil => rfl
  | cons operand operands ih =>
      obtain ⟨typedFirst, typedRest⟩ := List.forall_mem_cons.mp typed
      rw [expectTypeAll, expectType, if_pos typedFirst]
      exact ih typedRest

theorem exists_mkAnd {operands : List Expr} (boolean : ∀ operand ∈ operands, operand.ty = .bool) :
    ∃ formula, mkAnd operands = .ok formula := by
  unfold mkAnd
  rw [expectTypeAll_eq_ok boolean]
  match operands with
  | [] => exact ⟨_, rfl⟩
  | [operand] => exact ⟨_, rfl⟩
  | _ :: _ :: _ => exact ⟨_, rfl⟩

theorem Encodable.not {operand : Expr} (encodable : operand.Encodable)
    (boolean : operand.ty = .bool) : (unary .not operand .bool).Encodable :=
  ⟨⟨⟨boolean, rfl⟩, encodable.wellTyped⟩, encodable.plain⟩

theorem IsConjunction.isCurrent {operands : List Expr} {formula : Expr}
    (isConjunction : IsConjunction operands formula)
    (all : ∀ operand ∈ operands, operand.IsCurrent) : formula.IsCurrent := by
  cases isConjunction with
  | nil => exact ⟨rfl, rfl⟩
  | singleton => exact all formula (by simp)
  | many operands =>
      constructor
      · rw [hasPrime, hasPrimeAny_eq_any, List.any_eq_false]
        intro operand member
        rw [(all operand member).unprimed]
        decide
      · rw [isIndexed, List.any_eq_false]
        intro symbol occurs
        obtain ⟨operand, member, occurs⟩ := mem_symbols_nary.mp occurs
        rw [(all operand member).index_eq_none symbol occurs]
        decide

theorem isSome_eval_of_evalBool {formula : Expr} {assignment : Symbol → Option Value}
    (decided : (formula.evalBool assignment).isSome) : (formula.eval assignment).isSome := by
  unfold evalBool truthOf at decided
  cases evaluated : formula.eval assignment with
  | none =>
      rw [evaluated] at decided
      cases decided
  | some value => rfl

theorem IsConjunction.properCondition {operands : List Expr} {formula : Expr}
    (isConjunction : IsConjunction operands formula)
    (all : ∀ operand ∈ operands, operand.ProperCondition) : formula.ProperCondition :=
  have ⟨encodable, boolean⟩ :=
    isConjunction.encodable (fun operand member => (all operand member).encodable)
      fun operand member => (all operand member).boolean
  { current := isConjunction.isCurrent fun operand member => (all operand member).current
    encodable, boolean }

theorem IsConjunction.mem_symbols {operands : List Expr} {formula : Expr}
    (isConjunction : IsConjunction operands formula) {symbol : Symbol} :
    symbol ∈ formula.symbols ↔ ∃ operand ∈ operands, symbol ∈ operand.symbols := by
  cases isConjunction with
  | nil => exact iff_of_false mem_symbols_lit (by simp)
  | singleton => simp
  | many => exact mem_symbols_nary

end Expr

namespace Symbol

variable (symbol : Symbol) {value : Value}

/-- The equation of a symbol and a value of its type. -/
theorem hasValue_cases (typed : value.HasType symbol.ty) :
    (value = .bool true ∧ symbol.ty = .bool ∧ symbol.hasValue value = .sym symbol) ∨
      (value = .bool false ∧ symbol.ty = .bool ∧
        symbol.hasValue value = .unary .not (.sym symbol) .bool) ∨
      symbol.hasValue value = .binary .eq (.sym symbol) (.lit value) .bool := by
  have sameType := typed.ty_eq
  unfold hasValue
  split
  · exact .inl ⟨rfl, sameType.symm, rfl⟩
  · have boolean : symbol.toExpr.ty = .bool := sameType.symm
    refine .inr (.inl ⟨rfl, sameType.symm, ?_⟩)
    rw [Expr.mkNot, Expr.expectType, if_pos boolean]
    rfl
  · have sameType' : (Expr.lit value).ty = symbol.toExpr.ty := sameType
    refine .inr (.inr ?_)
    rw [Expr.mkEq, Expr.mkEquation, Expr.expectType, if_pos sameType']
    rfl

theorem encodable_hasValue (typed : value.HasType symbol.ty) :
    (symbol.hasValue value).Encodable ∧ (symbol.hasValue value).ty = .bool := by
  rcases hasValue_cases symbol typed with ⟨-, boolean, same⟩ | ⟨-, boolean, same⟩ | same
  · rw [same]
    exact ⟨⟨trivial, rfl⟩, boolean⟩
  · rw [same]
    exact ⟨Expr.Encodable.not ⟨trivial, rfl⟩ boolean, rfl⟩
  · rw [same]
    refine ⟨⟨⟨⟨typed.ty_eq, rfl⟩, trivial, ?_⟩, rfl⟩, rfl⟩
    show value.HasType value.ty
    rwa [typed.ty_eq]

theorem mem_symbols_hasValue (typed : value.HasType symbol.ty) {other : Symbol}
    (occurs : other ∈ (symbol.hasValue value).symbols) : other = symbol := by
  rcases hasValue_cases symbol typed with ⟨-, -, same⟩ | ⟨-, -, same⟩ | same
  · rw [same] at occurs
    exact Expr.mem_symbols_sym.mp occurs
  · rw [same, Expr.mem_symbols_unary] at occurs
    exact Expr.mem_symbols_sym.mp occurs
  · rw [same, Expr.mem_symbols_binary] at occurs
    exact occurs.elim Expr.mem_symbols_sym.mp fun occurs => absurd occurs Expr.mem_symbols_lit

/-- The equation compares the values of a symbol. -/
theorem evalBool_hasValue (typed : value.HasType symbol.ty)
    {assignment : Symbol → Option Value} {other : Value}
    (assigned : assignment symbol = some other) (typed' : other.HasType symbol.ty) :
    (symbol.hasValue value).evalBool assignment = some (decide (other = value)) := by
  unfold Expr.evalBool
  rcases hasValue_cases symbol typed with ⟨rfl, boolean, same⟩ | ⟨rfl, boolean, same⟩ | same
  · obtain ⟨truth, rfl⟩ := (boolean ▸ typed').exists_bool
    rw [same, Expr.eval, assigned]
    cases truth <;> rfl
  · obtain ⟨truth, rfl⟩ := (boolean ▸ typed').exists_bool
    rw [same, Expr.eval, Expr.eval, assigned]
    cases truth <;> rfl
  · rw [same, Expr.eval, Expr.eval, Expr.eval, assigned]
    rfl

theorem properCondition_hasValue {decl : VarDecl} (typed : value.HasType decl.ty) :
    ((⟨decl, none⟩ : Symbol).hasValue value).ProperCondition :=
  have ⟨encodable, boolean⟩ := encodable_hasValue ⟨decl, none⟩ typed
  { encodable, boolean
    current := by
      rcases hasValue_cases ⟨decl, none⟩ typed with
        ⟨-, -, same⟩ | ⟨-, -, same⟩ | same <;>
      · rw [same]
        exact ⟨rfl, rfl⟩ }

theorem holds_hasValue {decl : VarDecl} (typed : value.HasType decl.ty) {store : Store} :
    ((⟨decl, none⟩ : Symbol).hasValue value).Holds store ↔ store decl = value := by
  unfold Expr.Holds Expr.evalBool
  rcases hasValue_cases ⟨decl, none⟩ typed with
    ⟨rfl, -, same⟩ | ⟨rfl, -, same⟩ | same
  · rw [same, Expr.eval, Store.read_unindexed]
    cases store decl <;> simp [truthOf, Value.asBool]
  · rw [same, Expr.eval, Expr.eval, Store.read_unindexed]
    cases store decl <;> simp [truthOf, Value.asBool, UnaryOperator.evaluate]
  · rw [same, Expr.eval, Expr.eval, Expr.eval, Store.read_unindexed]
    simp [truthOf, Value.asBool, BinaryOperator.evaluate]

end Symbol

namespace Valuation

/-- The valuation assigns values of the symbols' types. -/
def WellTyped (valuation : Valuation) : Prop :=
  ∀ entry ∈ valuation.entries, entry.2.HasType entry.1.ty

/-- The symbols have the values that the valuation assigns. -/
def Matches (valuation : Valuation) (values : Symbol → Value) : Prop :=
  ∀ entry ∈ valuation.entries, values entry.1 = entry.2

/-- The valuation assigns unindexed variables values of their types. -/
def Typed (valuation : Valuation) : Prop :=
  ∀ entry ∈ valuation.entries, entry.1.index = none ∧ entry.2.HasType entry.1.ty

variable {valuation : Valuation}

theorem Typed.wellTyped (typed : valuation.Typed) : valuation.WellTyped :=
  fun entry member => (typed entry member).2

namespace WellTyped

variable (wellTyped : valuation.WellTyped)
include wellTyped

theorem isConjunction :
    Expr.IsConjunction (valuation.entries.map fun entry => entry.1.hasValue entry.2)
      valuation.toExpr := by
  obtain ⟨formula, built⟩ := Expr.exists_mkAnd (List.forall_mem_map.mpr fun entry member =>
    (Symbol.encodable_hasValue entry.1 (wellTyped entry member)).2)
  have same : valuation.toExpr = formula := by
    unfold toExpr
    rw [built]
    rfl
  rw [same]
  exact Expr.isConjunction_of_mkAnd built

theorem encodable : valuation.toExpr.Encodable ∧ valuation.toExpr.ty = .bool :=
  wellTyped.isConjunction.encodable
    (List.forall_mem_map.mpr fun entry member =>
      (Symbol.encodable_hasValue entry.1 (wellTyped entry member)).1)
    (List.forall_mem_map.mpr fun entry member =>
      (Symbol.encodable_hasValue entry.1 (wellTyped entry member)).2)

theorem mem_symbols_toExpr {symbol : Symbol} (occurs : symbol ∈ valuation.toExpr.symbols) :
    symbol ∈ valuation.symbols := by
  obtain ⟨_, equation, occurs⟩ := wellTyped.isConjunction.mem_symbols.mp occurs
  obtain ⟨entry, member, rfl⟩ := List.mem_map.mp equation
  rw [Symbol.mem_symbols_hasValue entry.1 (wellTyped entry member) occurs]
  exact List.mem_map_of_mem member

/-- The formula of a valuation compares the values of its symbols. -/
theorem evalBool_toExpr {values : Symbol → Value}
    (typed : ∀ symbol, (values symbol).HasType symbol.ty) :
    ∃ truth, valuation.toExpr.evalBool (total values) = some truth ∧
      (truth = true ↔ valuation.Matches values) := by
  have compares (entry : Symbol × Value) (member : entry ∈ valuation.entries) :
      (entry.1.hasValue entry.2).evalBool (total values) =
        some (decide (values entry.1 = entry.2)) :=
    Symbol.evalBool_hasValue entry.1 (wellTyped entry member) rfl (typed entry.1)
  have known : (valuation.toExpr.evalBool (total values)).isSome :=
    wellTyped.isConjunction.isSome_evalBool
      (List.forall_mem_map.mpr fun entry member => by rw [compares entry member]; rfl)
  obtain ⟨truth, evaluates⟩ := Option.isSome_iff_exists.mp known
  refine ⟨truth, evaluates, ?_⟩
  rw [← Option.some_inj, ← evaluates, wellTyped.isConjunction.evalBool_iff, List.forall_mem_map]
  refine forall₂_congr fun entry member => ?_
  rw [compares entry member, Option.some_inj, decide_eq_true_iff]

theorem truth_toExpr {values : Symbol → Value}
    (typed : ∀ symbol, (values symbol).HasType symbol.ty) :
    valuation.toExpr.truth (total values) = true ↔ valuation.Matches values := by
  obtain ⟨truth, evaluates, isMatch⟩ := wellTyped.evalBool_toExpr typed
  have typed' : ∀ symbol ∈ valuation.toExpr.symbols,
      OptionHasType (total values symbol) symbol.ty := by
    rintro symbol - _ ⟨⟩
    exact typed symbol
  rw [wellTyped.encodable.1.wellTyped.refines_truth typed' truth evaluates, isMatch]

end WellTyped

theorem Typed.properCondition (typed : valuation.Typed) : valuation.toExpr.ProperCondition := by
  apply typed.wellTyped.isConjunction.properCondition
  rw [List.forall_mem_map]
  rintro ⟨⟨decl, index⟩, value⟩ member
  obtain ⟨rfl, typed⟩ := typed _ member
  exact Symbol.properCondition_hasValue typed

theorem Typed.regularCondition (typed : valuation.Typed) (config : SolverConfig) :
    valuation.toExpr.RegularCondition config where
  toProperCondition := typed.properCondition
  defined store inside := by
    apply Expr.isSome_eval_of_evalBool
    apply typed.wellTyped.isConjunction.isSome_evalBool
    rw [List.forall_mem_map]
    rintro ⟨⟨decl, index⟩, value⟩ member
    obtain ⟨rfl, typed⟩ := typed _ member
    rw [Symbol.evalBool_hasValue ⟨decl, none⟩ typed (Store.read_unindexed store decl)
      (inside decl).1]
    rfl

theorem Typed.holds_toExpr (typed : valuation.Typed) {store : Store} :
    valuation.toExpr.Holds store ↔
      ∀ entry ∈ valuation.entries, store entry.1.decl = entry.2 := by
  unfold Expr.Holds
  rw [typed.wellTyped.isConjunction.evalBool_iff, List.forall_mem_map]
  refine forall₂_congr ?_
  rintro ⟨⟨decl, index⟩, value⟩ member
  obtain ⟨rfl, typed⟩ := typed _ member
  exact Symbol.holds_hasValue typed

end Valuation

end AbstractionRefinement
