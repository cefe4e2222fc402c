import AbstractionRefinement.Proofs.DiagramDecoding
import AbstractionRefinement.Proofs.PartialEvaluation

/-!
# Simplification of formulas

Simplification substitutes the assigned symbols, evaluates what is constant and drops
the neutral operands of connectives.  The result has the type of the formula, and it has
the value of the formula, or none if the formula has none, wherever every assigned symbol
has its assigned value.
-/

namespace AbstractionRefinement

/-- A conjunction without some operands that are true. -/
theorem conjunction_map_filter {α : Type} {items : List α} {known : α → Option Bool}
    {keeps : α → Bool} (neutral : ∀ item ∈ items, keeps item = false → known item = some true) :
    conjunction ((items.filter keeps).map known) = conjunction (items.map known) := by
  have member (truth : Option Bool) (matters : truth ≠ some true) :
      truth ∈ (items.filter keeps).map known ↔ truth ∈ items.map known := by
    simp only [List.mem_map, List.mem_filter]
    constructor
    · rintro ⟨item, ⟨inside, -⟩, same⟩
      exact ⟨item, inside, same⟩
    · rintro ⟨item, inside, same⟩
      refine ⟨item, ⟨inside, ?_⟩, same⟩
      by_contra dropped
      exact matters (same.symm.trans (neutral item inside (Bool.eq_false_of_not_eq_true dropped)))
  unfold conjunction
  simp only [List.contains_iff_mem, member (some false) (by simp), member none (by simp)]

theorem disjunction_map_filter {α : Type} {items : List α} {known : α → Option Bool}
    {keeps : α → Bool} (neutral : ∀ item ∈ items, keeps item = false → known item = some false) :
    disjunction ((items.filter keeps).map known) = disjunction (items.map known) := by
  rw [disjunction_eq, disjunction_eq, List.map_map, List.map_map, conjunction_map_filter]
  intro item inside dropped
  rw [Function.comp_apply, neutral item inside dropped]
  rfl

theorem map_bool_truthOf {value : Option Value} (boolean : OptionHasType value .bool) :
    (truthOf value).map Value.bool = value := by
  rcases value with _ | value
  · rfl
  · obtain ⟨truth, rfl⟩ := (boolean value rfl).exists_bool
    rfl

@[simp]
theorem conjunction_singleton (truth : Option Bool) : conjunction [truth] = truth := by
  rcases truth with _ | _ | _ <;> rfl

@[simp]
theorem disjunction_singleton (truth : Option Bool) : disjunction [truth] = truth := by
  rcases truth with _ | _ | _ <;> rfl

namespace Expr

theorem eq_bottom_of_isBottom {formula : Expr} (isBottom : formula.isBottom = true) :
    formula = .bottom := by
  unfold Expr.isBottom at isBottom
  split at isBottom
  · rfl
  · cases isBottom

variable {σ : Type} {timeline : Timeline σ} {state : σ} {operands : List Expr} {formula : Expr}

namespace IsConjunction

variable {operands : List Expr} {formula : Expr} (isConjunction : IsConjunction operands formula)
include isConjunction

theorem wellTyped (all : ∀ operand ∈ operands, operand.WellTyped)
    (boolean : ∀ operand ∈ operands, operand.ty = .bool) :
    formula.WellTyped ∧ formula.ty = .bool := by
  cases isConjunction with
  | nil => exact ⟨Value.hasType_bool true, rfl⟩
  | singleton => exact ⟨all formula (by simp), boolean formula (by simp)⟩
  | many operands => exact ⟨⟨⟨rfl, List.forall_mem_map.mpr boolean⟩, allWellTyped_iff.mpr all⟩, rfl⟩

/-- One operand stands for itself, which only a Boolean one can. -/
theorem evalIn_eq
    (boolean : ∀ operand ∈ operands, OptionHasType (operand.evalIn timeline state) .bool) :
    formula.evalIn timeline state =
      (conjunction (operands.map fun operand => truthOf (operand.evalIn timeline state))).map
        .bool := by
  cases isConjunction with
  | nil => rfl
  | singleton operand =>
      rw [List.map_singleton, conjunction_singleton,
        map_bool_truthOf (boolean formula (List.mem_singleton.mpr rfl))]
  | many operands =>
      rw [evalIn, evalAllIn_eq_map, NaryOperator.evaluate, List.map_map]
      rfl

end IsConjunction

namespace IsDisjunction

variable {operands : List Expr} {formula : Expr} (isDisjunction : IsDisjunction operands formula)
include isDisjunction

theorem wellTyped (all : ∀ operand ∈ operands, operand.WellTyped)
    (boolean : ∀ operand ∈ operands, operand.ty = .bool) :
    formula.WellTyped ∧ formula.ty = .bool := by
  cases isDisjunction with
  | nil => exact ⟨Value.hasType_bool false, rfl⟩
  | singleton => exact ⟨all formula (by simp), boolean formula (by simp)⟩
  | many operands => exact ⟨⟨⟨rfl, List.forall_mem_map.mpr boolean⟩, allWellTyped_iff.mpr all⟩, rfl⟩

/-- One operand stands for itself, which only a Boolean one can. -/
theorem evalIn_eq
    (boolean : ∀ operand ∈ operands, OptionHasType (operand.evalIn timeline state) .bool) :
    formula.evalIn timeline state =
      (disjunction (operands.map fun operand => truthOf (operand.evalIn timeline state))).map
        .bool := by
  cases isDisjunction with
  | nil => rfl
  | singleton operand =>
      rw [List.map_singleton, disjunction_singleton,
        map_bool_truthOf (boolean formula (List.mem_singleton.mpr rfl))]
  | many operands =>
      rw [evalIn, evalAllIn_eq_map, NaryOperator.evaluate, List.map_map]
      rfl

end IsDisjunction

/-- The steps of simplification at a node whose operands are simplified. -/
inductive SimplifiesTo (assignment : Symbol → Option Value) : Expr → Expr → Prop
  | substitute {symbol : Symbol} {value : Value} (assigned : assignment symbol = some value) :
      SimplifiesTo assignment (sym symbol) (lit value)
  | evaluate {node : Expr} {value : Value} (constant : node.constantValue = some value) :
      SimplifiesTo assignment node (lit value)
  | conjoin {operands : List Expr} {ty : Ty} {result : Expr}
      (isConjunction : IsConjunction (operands.filter fun operand => !operand.isTop) result) :
      SimplifiesTo assignment (nary .and operands ty) result
  | disjoin {operands : List Expr} {ty : Ty} {result : Expr}
      (isDisjunction : IsDisjunction (operands.filter fun operand => !operand.isBottom) result) :
      SimplifiesTo assignment (nary .or operands ty) result

variable {assignment : Symbol → Option Value} {node result : Expr}

theorem simplifiesTo_of_simplifyNode (step : node.simplifyNode assignment = some result) :
    SimplifiesTo assignment node result := by
  unfold simplifyNode at step
  split at step
  case h_1 symbol =>
    obtain ⟨value, assigned, rfl⟩ := Option.map_eq_some_iff.mp step
    exact .substitute assigned
  case h_2 =>
    split at step
    case h_1 value constant =>
      cases step
      exact .evaluate constant
    case h_2 =>
      split at step
      case h_1 =>
        dsimp only at step
        split at step
        · cases step
        · exact .conjoin (isConjunction_of_mkAnd (eq_ok_of_toOption_eq_some step))
      case h_2 =>
        dsimp only at step
        split at step
        · cases step
        · exact .disjoin (isDisjunction_of_mkOr (eq_ok_of_toOption_eq_some step))
      case h_3 => cases step

theorem WellTyped.connective {operator : NaryOperator} {operands : List Expr} {ty : Ty}
    (wellTyped : (nary operator operands ty).WellTyped)
    (isConnective : operator = .and ∨ operator = .or) :
    ty = .bool ∧ (∀ operand ∈ operands, operand.WellTyped) ∧
      ∀ operand ∈ operands, operand.ty = .bool := by
  obtain ⟨types, wellTypedAll⟩ := wellTyped
  have types : ty = .bool ∧ ∀ operand ∈ operands.map Expr.ty, operand = .bool := by
    rcases isConnective with rfl | rfl <;> exact types
  exact ⟨types.1, allWellTyped_iff.mp wellTypedAll, List.forall_mem_map.mp types.2⟩

theorem WellTyped.boolean_evalIn (wellTyped : formula.WellTyped) (boolean : formula.ty = .bool)
    (typed : timeline.Typed) : OptionHasType (formula.evalIn timeline state) .bool :=
  boolean ▸ wellTyped.hasType_evalIn typed state

namespace SimplifiesTo

/-- A step keeps the type of a formula. -/
theorem wellTyped (step : SimplifiesTo assignment node result) (wellTyped : node.WellTyped)
    (typed : ∀ symbol, OptionHasType (assignment symbol) symbol.ty) :
    result.WellTyped ∧ result.ty = node.ty := by
  have ofValue {value : Value} (hasType : value.HasType node.ty) :
      (lit value).WellTyped ∧ (lit value).ty = node.ty := by
    refine ⟨?_, hasType.ty_eq⟩
    show value.HasType value.ty
    rwa [hasType.ty_eq]
  cases step with
  | substitute assigned => exact ofValue (typed _ _ assigned)
  | evaluate constant =>
      exact ofValue (wellTyped.hasType_eval (fun _ _ => by rintro _ ⟨⟩) _ constant)
  | conjoin isConjunction =>
      obtain ⟨rfl, all, boolean⟩ := wellTyped.connective (.inl rfl)
      exact isConjunction.wellTyped
        (fun operand member => all operand (List.mem_of_mem_filter member))
        fun operand member => boolean operand (List.mem_of_mem_filter member)
  | disjoin isDisjunction =>
      obtain ⟨rfl, all, boolean⟩ := wellTyped.connective (.inr rfl)
      exact isDisjunction.wellTyped
        (fun operand member => all operand (List.mem_of_mem_filter member))
        fun operand member => boolean operand (List.mem_of_mem_filter member)

/-- A step keeps the value of a formula, where an assigned symbol has its assigned
value. -/
theorem evalIn_eq (step : SimplifiesTo assignment node result) (wellTyped : node.WellTyped)
    (typed : timeline.Typed) (agrees : ∀ symbol, node = sym symbol →
      StaysKnown (assignment symbol) (timeline.values state symbol)) :
    result.evalIn timeline state = node.evalIn timeline state := by
  cases step with
  | substitute assigned => exact (agrees _ rfl _ assigned).symm
  | evaluate constant => exact (evalIn_of_constantValue constant timeline state).symm
  | @conjoin operands ty _ isConjunction =>
      obtain ⟨-, all, boolean⟩ := wellTyped.connective (.inl rfl)
      rw [isConjunction.evalIn_eq, conjunction_map_filter, evalIn, evalAllIn_eq_map,
        NaryOperator.evaluate, List.map_map]
      · rfl
      · intro operand member dropped
        have isTop : operand.isTop = true := by simpa using dropped
        rw [Encoder.eq_top_of_isTop isTop]
        rfl
      · intro operand member
        have member := List.mem_of_mem_filter member
        exact (all operand member).boolean_evalIn (boolean operand member) typed
  | @disjoin operands ty _ isDisjunction =>
      obtain ⟨-, all, boolean⟩ := wellTyped.connective (.inr rfl)
      rw [isDisjunction.evalIn_eq, disjunction_map_filter, evalIn, evalAllIn_eq_map,
        NaryOperator.evaluate, List.map_map]
      · rfl
      · intro operand member dropped
        have isBottom : operand.isBottom = true := by simpa using dropped
        rw [eq_bottom_of_isBottom isBottom]
        rfl
      · intro operand member
        have member := List.mem_of_mem_filter member
        exact (all operand member).boolean_evalIn (boolean operand member) typed

end SimplifiesTo

mutual

/-- In every state in which the formula reads an assigned symbol, the symbol has its
assigned value. -/
def Respects (timeline : Timeline σ) (assignment : Symbol → Option Value) (state : σ) :
    Expr → Prop
  | lit _ => True
  | sym symbol => StaysKnown (assignment symbol) (timeline.values state symbol)
  | unary .prime operand _ =>
      ∀ later, timeline.next state = some later → operand.Respects timeline assignment later
  | unary _ operand _ => operand.Respects timeline assignment state
  | binary _ left right _ =>
      left.Respects timeline assignment state ∧ right.Respects timeline assignment state
  | ternary _ first second third _ =>
      first.Respects timeline assignment state ∧ second.Respects timeline assignment state ∧
        third.Respects timeline assignment state
  | nary _ operands _ => AllRespect timeline assignment state operands

/-- The same for several formulas. -/
def AllRespect (timeline : Timeline σ) (assignment : Symbol → Option Value) (state : σ) :
    List Expr → Prop
  | [] => True
  | operand :: operands =>
      operand.Respects timeline assignment state ∧ AllRespect timeline assignment state operands

end

theorem allRespect_iff {assignment : Symbol → Option Value} {operands : List Expr} :
    AllRespect timeline assignment state operands ↔
      ∀ operand ∈ operands, operand.Respects timeline assignment state := by
  induction operands with
  | nil => simp [AllRespect]
  | cons operand operands ih => simp [AllRespect, ih]

/-- The second formula is of the type of the first one, and has its value in each state in
which the first one reads assigned symbols only where they have their assigned values. -/
structure Preserves (timeline : Timeline σ) (assignment : Symbol → Option Value)
    (formula result : Expr) : Prop where
  wellTyped : result.WellTyped
  ty : result.ty = formula.ty
  evalIn {state : σ} : formula.Respects timeline assignment state →
    result.evalIn timeline state = formula.evalIn timeline state

namespace Preserves

variable {assignment : Symbol → Option Value}

theorem simplifyNode (preserves : Preserves timeline assignment formula node)
    (typed : ∀ symbol, OptionHasType (assignment symbol) symbol.ty)
    (timelineTyped : timeline.Typed) (operator : ∀ symbol, node ≠ sym symbol) :
    Preserves timeline assignment formula ((node.simplifyNode assignment).getD node) := by
  cases simplified : node.simplifyNode assignment with
  | none => exact preserves
  | some result =>
      have step := simplifiesTo_of_simplifyNode simplified
      obtain ⟨wellTyped, sameType⟩ := step.wellTyped preserves.wellTyped typed
      refine ⟨wellTyped, sameType.trans preserves.ty, fun respects => ?_⟩
      rw [Option.getD_some, step.evalIn_eq preserves.wellTyped timelineTyped
        fun symbol isSymbol => absurd isSymbol (operator symbol), preserves.evalIn respects]

variable {ty : Ty}

theorem unary {operand operand' : Expr} (preserves : Preserves timeline assignment operand operand')
    {operator : UnaryOperator} (types : operator.Types operand.ty ty) :
    Preserves timeline assignment (.unary operator operand ty) (.unary operator operand' ty) := by
  refine ⟨⟨preserves.ty ▸ types, preserves.wellTyped⟩, rfl, fun {state} respects => ?_⟩
  cases operator with
  | prime =>
      rw [Expr.evalIn, Expr.evalIn]
      cases isNext : timeline.next state with
      | none => rfl
      | some later => exact preserves.evalIn (respects later isNext)
  | _ =>
      have respects : operand.Respects timeline assignment state := respects
      exact congrArg (UnaryOperator.evaluate _) (preserves.evalIn respects)

theorem binary {left left' right right' : Expr}
    (preserves : Preserves timeline assignment left left')
    (preserves' : Preserves timeline assignment right right') {operator : BinaryOperator}
    (types : operator.Types left.ty right.ty ty) :
    Preserves timeline assignment (.binary operator left right ty)
      (.binary operator left' right' ty) := by
  refine ⟨⟨?_, preserves.wellTyped, preserves'.wellTyped⟩, rfl, ?_⟩
  · rwa [preserves.ty, preserves'.ty]
  · rintro state ⟨respects, respects'⟩
    rw [Expr.evalIn, Expr.evalIn, preserves.evalIn respects, preserves'.evalIn respects']

theorem ternary {first first' second second' third third' : Expr}
    (preserves : Preserves timeline assignment first first')
    (preserves' : Preserves timeline assignment second second')
    (preserves'' : Preserves timeline assignment third third') {operator : TernaryOperator}
    (types : operator.Types first.ty second.ty third.ty ty) :
    Preserves timeline assignment (.ternary operator first second third ty)
      (.ternary operator first' second' third' ty) := by
  refine ⟨⟨?_, preserves.wellTyped, preserves'.wellTyped, preserves''.wellTyped⟩, rfl, ?_⟩
  · rwa [preserves.ty, preserves'.ty, preserves''.ty]
  · rintro state ⟨respects, respects', respects''⟩
    rw [Expr.evalIn, Expr.evalIn, preserves.evalIn respects, preserves'.evalIn respects',
      preserves''.evalIn respects'']

theorem nary {operands : List Expr} {replace : Expr → Expr}
    (each : ∀ operand ∈ operands, Preserves timeline assignment operand (replace operand))
    {operator : NaryOperator} (types : operator.Types (operands.map Expr.ty) ty) :
    Preserves timeline assignment (.nary operator operands ty)
      (.nary operator (operands.map replace) ty) := by
  have sameTypes : operands.map (Expr.ty ∘ replace) = operands.map Expr.ty :=
    List.map_congr_left fun operand member => (each operand member).ty
  refine ⟨⟨?_, allWellTyped_iff.mpr ?_⟩, rfl, fun {state} respects => ?_⟩
  · rwa [List.map_map, sameTypes]
  · exact List.forall_mem_map.mpr fun operand member => (each operand member).wellTyped
  · have respects := allRespect_iff.mp respects
    rw [Expr.evalIn, Expr.evalIn, evalAllIn_eq_map, evalAllIn_eq_map, List.map_map]
    exact congrArg _ (List.map_congr_left fun operand member =>
      (each operand member).evalIn (respects operand member))

end Preserves

theorem preserves_simplifyNode_sym {assignment : Symbol → Option Value}
    (typed : ∀ symbol, OptionHasType (assignment symbol) symbol.ty)
    (timelineTyped : timeline.Typed) (symbol : Symbol) :
    Preserves timeline assignment (sym symbol)
      ((simplifyNode assignment (sym symbol)).getD (sym symbol)) := by
  cases simplified : Expr.simplifyNode assignment (sym symbol) with
  | none => exact ⟨trivial, rfl, fun _ => rfl⟩
  | some result =>
      have step := simplifiesTo_of_simplifyNode simplified
      obtain ⟨wellTyped, sameType⟩ := step.wellTyped trivial typed
      refine ⟨wellTyped, sameType, fun respects => ?_⟩
      refine step.evalIn_eq trivial timelineTyped ?_
      rintro _ ⟨⟩
      exact respects

/-- Simplification keeps the type and the value of a formula. -/
theorem WellTyped.preserves_simplify {assignment : Symbol → Option Value} {formula : Expr}
    (wellTyped : formula.WellTyped)
    (typed : ∀ symbol, OptionHasType (assignment symbol) symbol.ty)
    (timelineTyped : timeline.Typed) :
    Preserves timeline assignment formula (formula.simplify assignment) := by
  induction formula with
  | lit value => exact ⟨wellTyped, rfl, fun _ => rfl⟩
  | sym symbol => exact preserves_simplifyNode_sym typed timelineTyped symbol
  | unary operator operand ty ih =>
      obtain ⟨types, wellTyped⟩ := wellTyped
      exact ((ih wellTyped).unary types).simplifyNode typed timelineTyped (by simp)
  | binary operator left right ty ihLeft ihRight =>
      obtain ⟨types, wellTypedLeft, wellTypedRight⟩ := wellTyped
      exact ((ihLeft wellTypedLeft).binary (ihRight wellTypedRight) types).simplifyNode typed
        timelineTyped (by simp)
  | ternary operator first second third ty ihFirst ihSecond ihThird =>
      obtain ⟨types, wellTypedFirst, wellTypedSecond, wellTypedThird⟩ := wellTyped
      exact ((ihFirst wellTypedFirst).ternary (ihSecond wellTypedSecond) (ihThird wellTypedThird)
        types).simplifyNode typed timelineTyped (by simp)
  | nary operator operands ty ih =>
      obtain ⟨types, wellTypedAll⟩ := wellTyped
      have each (operand : Expr) (member : operand ∈ operands) :=
        ih operand member (allWellTyped_iff.mp wellTypedAll operand member)
      show Preserves timeline assignment _
        ((simplifyNode assignment (.nary operator (replaceAllBottomUp _ operands) ty)).getD
          (.nary operator (replaceAllBottomUp _ operands) ty))
      rw [replaceAllBottomUp_eq_map]
      exact (Preserves.nary each types).simplifyNode typed timelineTyped (by simp)

end Expr

theorem Valuation.WellTyped.optionHasType {valuation : Valuation} (wellTyped : valuation.WellTyped)
    (symbol : Symbol) : OptionHasType (valuation.get? symbol) symbol.ty :=
  fun _ found => wellTyped _ (OrderedMap.mem_of_find? found)

namespace Expr

theorem respects_present {σ : Type} {assignment assignment' : Symbol → Option Value}
    (stays : ∀ symbol, StaysKnown (assignment symbol) (assignment' symbol)) (formula : Expr)
    (state : σ) : formula.Respects (.present assignment') assignment state := by
  induction formula with
  | lit value => trivial
  | sym symbol => exact stays symbol
  | unary operator operand ty ih =>
      cases operator with
      | prime => rintro later ⟨⟩
      | _ => exact ih
  | binary operator left right ty ihLeft ihRight => exact ⟨ihLeft, ihRight⟩
  | ternary operator first second third ty ihFirst ihSecond ihThird =>
      exact ⟨ihFirst, ihSecond, ihThird⟩
  | nary operator operands ty ih => exact allRespect_iff.mpr ih

/-- A value stands when more symbols are assigned.  A formula that is simplified under a
valuation keeps its type and, under every valuation that extends it, its value: either
both formulas have the same value or none has any. -/
theorem WellTyped.stable_and_simplified {formula : Expr} (wellTyped : formula.WellTyped)
    {valuation valuation' : Valuation} (typed : valuation.WellTyped)
    (typed' : valuation'.WellTyped)
    (extended : ∀ symbol value, valuation.get? symbol = some value →
      valuation'.get? symbol = some value) :
    (∀ value, formula.eval valuation.get? = some value →
      formula.eval valuation'.get? = some value) ∧
      (formula.simplify valuation.get?).ty = formula.ty ∧
      (formula.simplify valuation.get?).eval valuation'.get? = formula.eval valuation'.get? := by
  have preserves : Preserves (.present valuation'.get? : Timeline Unit) valuation.get? formula
      (formula.simplify valuation.get?) :=
    wellTyped.preserves_simplify typed.optionHasType fun _ => typed'.optionHasType
  refine ⟨formula.staysKnown_eval extended, preserves.ty, ?_⟩
  rw [eval_eq_evalIn valuation'.get? _ (), eval_eq_evalIn valuation'.get? formula (),
    preserves.evalIn (respects_present extended formula ())]

/-- The amount is at most one, and the next amount is the largest number plus the amount
unless the flag is set. -/
def guardedIncrement : Expr :=
  let amount : Symbol := ⟨⟨"amount", .int⟩, none⟩
  let flag : Symbol := ⟨⟨"flag", .bool⟩, none⟩
  nary .and
    [binary .leq (sym amount) (ofInt 1) .bool,
      nary .or
        [sym flag,
          binary .eq (unary .prime (sym amount) .int) (nary .add [ofInt maxInt64, sym amount] .int)
            .bool]
        .bool]
    .bool

/-- The conjunct that is true is dropped, and the sum that overflows stays. -/
theorem guardedIncrement_simplified :
    let amount : Symbol := ⟨⟨"amount", .int⟩, none⟩
    let flag : Symbol := ⟨⟨"flag", .bool⟩, none⟩
    let few : Valuation := ⟨[(amount, .int 1)]⟩
    let more : Valuation := ⟨[(amount, .int 1), (flag, .bool true)]⟩
    (∀ value, guardedIncrement.eval few.get? = some value →
      guardedIncrement.eval more.get? = some value) ∧
      (guardedIncrement.simplify few.get?).ty = guardedIncrement.ty ∧
      (guardedIncrement.simplify few.get?).eval more.get? = guardedIncrement.eval more.get? := by
  intro amount flag few more
  have wellTyped : guardedIncrement.WellTyped := by
    refine ⟨⟨rfl, by decide⟩, ⟨⟨rfl, rfl, rfl⟩, trivial, ?_⟩,
      ⟨⟨rfl, by decide⟩, trivial, ⟨⟨rfl, rfl⟩, ⟨rfl, trivial⟩, ⟨rfl, by decide⟩, ?_, trivial, trivial⟩,
        trivial⟩, trivial⟩
    · show FitsInt64 1
      decide
    · show FitsInt64 maxInt64
      decide
  have typedFew : few.WellTyped := by
    rintro entry (_ | ⟨_, ⟨⟩⟩)
    show FitsInt64 1
    decide
  have typedMore : more.WellTyped := by
    rintro entry (_ | ⟨_, _ | ⟨_, ⟨⟩⟩⟩)
    · show FitsInt64 1
      decide
    · trivial
  refine wellTyped.stable_and_simplified typedFew typedMore fun symbol value found => ?_
  obtain ⟨rfl, rfl⟩ : symbol = amount ∧ value = .int 1 := by
    simpa [few] using OrderedMap.mem_of_find? found
  decide +kernel

example :
    guardedIncrement.simplify (Valuation.get? ⟨[(⟨⟨"amount", .int⟩, none⟩, .int 1)]⟩) =
      .nary .or
        [.sym ⟨⟨"flag", .bool⟩, none⟩,
          .binary .eq (.unary .prime (.lit (.int 1)) .int)
            (.nary .add [.ofInt maxInt64, .lit (.int 1)] .int) .bool]
        .bool := by
  decide +kernel

end Expr

end AbstractionRefinement
