import AbstractionRefinement.Proofs.FormulaOrder

/-!
# Types of formulas and of their values

The checked constructors only build formulas whose operators have operands of
suitable types.  This file states that condition on finished formulas and shows
that evaluation respects it: under an assignment of values of the right types, a
value has the type of its formula.
-/

namespace AbstractionRefinement

theorem Ty.isBool_iff {ty : Ty} : ty.isBool = true ↔ ty = .bool := by
  cases ty <;> simp [isBool]

namespace Value

mutual

/-- The value is a representable one of the type. -/
def HasType : Value → Ty → Prop
  | bool _, .bool => True
  | int number, .int => FitsInt64 number
  | rat _, .rat => True
  | bitVec bits width, .bitVec width' => width = width' ∧ bits < 2 ^ width
  | array index default entries, .array index' element =>
      index = index' ∧ default.HasType element ∧ EntriesHaveType index element entries
  | _, _ => False

/-- The stored entries of an array are of the types of its indices and elements. -/
def EntriesHaveType (index element : Ty) : List (Value × Value) → Prop
  | [] => True
  | (place, stored) :: entries =>
      place.HasType index ∧ stored.HasType element ∧ EntriesHaveType index element entries

end

theorem HasType.ty_eq {value : Value} {ty : Ty} (typed : value.HasType ty) : value.ty = ty := by
  match value, ty, typed with
  | bool _, .bool, _ | int _, .int, _ | rat _, .rat, _ => rfl
  | bitVec _ _, .bitVec _, ⟨sameWidth, _⟩ => rw [Value.ty, sameWidth]
  | array _ _ _, .array _ _, ⟨sameIndex, typed, _⟩ =>
      rw [Value.ty, sameIndex, typed.ty_eq]

theorem hasType_bool (truth : Bool) : (bool truth).HasType .bool := by
  simp [HasType]

theorem HasType.exists_bool {value : Value} (typed : value.HasType .bool) :
    ∃ truth, value = .bool truth := by
  cases value <;> simp_all [HasType]

theorem HasType.exists_int {value : Value} (typed : value.HasType .int) :
    ∃ number, value = .int number ∧ FitsInt64 number := by
  cases value <;> simp_all [HasType]

theorem HasType.exists_rat {value : Value} (typed : value.HasType .rat) :
    ∃ number, value = .rat number := by
  cases value <;> simp_all [HasType]

theorem HasType.exists_bitVec {value : Value} {width : Nat}
    (typed : value.HasType (.bitVec width)) :
    ∃ bits, value = .bitVec bits width ∧ bits < 2 ^ width := by
  cases value with
  | bitVec bits width' =>
      obtain ⟨rfl, small⟩ := typed
      exact ⟨bits, rfl, small⟩
  | _ => cases typed

theorem entriesHaveType_iff {index element : Ty} {entries : List (Value × Value)} :
    EntriesHaveType index element entries ↔
      ∀ entry ∈ entries, entry.1.HasType index ∧ entry.2.HasType element := by
  induction entries with
  | nil => simp [EntriesHaveType]
  | cons entry entries ih => rw [EntriesHaveType, ih, List.forall_mem_cons, and_assoc]

theorem HasType.select {index element : Ty} {array place result : Value}
    (typed : array.HasType (.array index element)) (selected : array.select place = some result) :
    result.HasType element := by
  cases array with
  | array index' default entries =>
      obtain ⟨-, typedDefault, typedEntries⟩ := typed
      cases selected
      cases found : OrderedMap.find? place entries with
      | none => exact typedDefault
      | some stored =>
          exact (entriesHaveType_iff.mp typedEntries _ (OrderedMap.mem_of_find? found)).2
  | _ => cases selected

theorem HasType.store {index element : Ty} {array place stored result : Value}
    (typed : array.HasType (.array index element)) (typedPlace : place.HasType index)
    (typedStored : stored.HasType element) (written : array.store place stored = some result) :
    result.HasType (.array index element) := by
  cases array with
  | array index' default entries =>
      obtain ⟨sameIndex, typedDefault, typedEntries⟩ := typed
      subst sameIndex
      rw [entriesHaveType_iff] at typedEntries
      cases written
      refine ⟨rfl, typedDefault, ?_⟩
      rw [entriesHaveType_iff]
      intro entry member
      split at member
      · exact typedEntries entry ((OrderedMap.sublist_erase place entries).subset member)
      · rcases OrderedMap.mem_of_mem_insert member with rfl | member
        · exact ⟨typedPlace, typedStored⟩
        · exact typedEntries entry member
  | _ => cases written

end Value

/-- The operator makes a formula of the result type from an operand of the other
type. -/
def UnaryOperator.Types (operator : UnaryOperator) (operand result : Ty) : Prop :=
  match operator with
  | prime => result = operand
  | not => operand = .bool ∧ result = .bool
  | negate => operand.isNumeric ∧ result = operand
  | bvNot => operand.isBitVec ∧ result = operand

/-- The operator makes a formula of the result type from operands of the other
types. -/
def BinaryOperator.Types (operator : BinaryOperator) (left right result : Ty) : Prop :=
  match operator with
  | imply | iff => left = .bool ∧ right = .bool ∧ result = .bool
  | eq | neq => right = left ∧ result = .bool
  | lt | leq | gt | geq => left.isNumeric ∧ right = left ∧ result = .bool
  | sub | div => left.isNumeric ∧ right = left ∧ result = left
  | mod => left = .int ∧ right = .int ∧ result = .int
  | read => left = .array right result
  | bvAnd | bvOr | bvXor | bvAdd => left.isBitVec ∧ right = left ∧ result = left
  | bvUlt => left.isBitVec ∧ right = left ∧ result = .bool

/-- The operator makes a formula of the result type from operands of the other
types. -/
def TernaryOperator.Types (operator : TernaryOperator) (first second third result : Ty) : Prop :=
  match operator with
  | ite => first = .bool ∧ third = second ∧ result = second
  | write => first = .array second third ∧ result = first

/-- The operator makes a formula of the result type from operands of the listed
types. -/
def NaryOperator.Types (operator : NaryOperator) (operands : List Ty) (result : Ty) : Prop :=
  match operator with
  | and | or => result = .bool ∧ ∀ operand ∈ operands, operand = .bool
  | add | mul => result.isNumeric ∧ ∀ operand ∈ operands, operand = result

/-- The value, if there is one, is of the type. -/
def OptionHasType (value : Option Value) (ty : Ty) : Prop :=
  ∀ result, value = some result → result.HasType ty

namespace Value

theorem hasType_checkedInt64 {number : Int} {result : Value}
    (computed : (checkedInt64 number).map int = some result) : result.HasType .int := by
  obtain ⟨number', checked, rfl⟩ := Option.map_eq_some_iff.mp computed
  obtain ⟨fits, rfl⟩ := checkedInt64_eq_some_iff.mp checked
  exact fits

theorem fits_emod {left right : Int} (fits : FitsInt64 right) (nonzero : right ≠ 0) :
    FitsInt64 (left % right) := by
  have lower := Int.emod_nonneg left nonzero
  have upper := Int.emod_lt left nonzero
  unfold FitsInt64 minInt64 maxInt64 at *
  omega

theorem hasType_integerOperation {operator : BinaryOperator} {left right : Int} {result : Value}
    (fitsLeft : FitsInt64 left) (fitsRight : FitsInt64 right)
    (computed : (integerOperation operator left right).map int = some result) :
    result.HasType .int := by
  unfold integerOperation at computed
  split at computed
  case h_1 => exact hasType_checkedInt64 computed
  case h_2 =>
    split at computed
    · cases computed
      show FitsInt64 0
      decide
    · exact hasType_checkedInt64 computed
  case h_3 =>
    split at computed
    case isTrue =>
      cases computed
      exact fitsLeft
    case isFalse nonzero =>
      split at computed
      · cases computed
      · cases computed
        exact fits_emod fitsRight nonzero
  case h_4 => cases computed

theorem hasType_map_rat {computation : Option RationalNumber} {result : Value}
    (computed : computation.map rat = some result) : result.HasType .rat := by
  obtain ⟨number, -, rfl⟩ := Option.map_eq_some_iff.mp computed
  exact trivial

theorem hasType_arithmetic {operator : BinaryOperator} {left right result : Value} {ty : Ty}
    (typedLeft : left.HasType ty) (typedRight : right.HasType ty)
    (computed : arithmetic operator left right = some result) : result.HasType ty := by
  obtain rfl := typedLeft.ty_eq
  unfold arithmetic at computed
  split at computed
  case h_1 => exact hasType_integerOperation typedLeft typedRight computed
  case h_2 =>
    split at computed
    · exact hasType_map_rat computed
    · exact hasType_map_rat computed
    · cases computed
  case h_3 => cases computed

theorem hasType_accumulate {operator : NaryOperator} {left right result : Value} {ty : Ty}
    (typedLeft : left.HasType ty) (computed : accumulate operator left right = some result) :
    result.HasType ty := by
  obtain rfl := typedLeft.ty_eq
  unfold accumulate at computed
  split at computed
  case h_1 =>
    split at computed
    · exact hasType_checkedInt64 computed
    · exact hasType_checkedInt64 computed
    · cases computed
  case h_2 =>
    split at computed
    · exact hasType_map_rat computed
    · exact hasType_map_rat computed
    · cases computed
  case h_3 => cases computed

theorem hasType_bitVecOperation {operator : BinaryOperator} {left right result : Value} {ty : Ty}
    (isBitVec : ty.isBitVec) (typedLeft : left.HasType ty)
    (computed : bitVecOperation operator left right = some result) :
    result.HasType (if operator = .bvUlt then .bool else ty) := by
  cases ty <;> try cases isBitVec
  case bitVec width =>
    obtain ⟨bits, rfl, -⟩ := typedLeft.exists_bitVec
    have reduced (number : Nat) :
        (bitVec (number % Nat.pow 2 width) width).HasType (.bitVec width) :=
      ⟨rfl, Nat.mod_lt _ (Nat.two_pow_pos width)⟩
    cases right with
    | bitVec bits' width' =>
        cases operator <;> cases computed
        case bvUlt.refl => exact hasType_bool _
        all_goals exact reduced _
    | _ => cases computed

end Value

theorem UnaryOperator.Types.hasType_evaluate {operator : UnaryOperator} {operand result : Ty}
    (types : operator.Types operand result) {value : Option Value}
    (typed : OptionHasType value operand) : OptionHasType (operator.evaluate value) result := by
  intro computedValue computed
  cases operator with
  | prime => cases computed
  | not =>
      obtain ⟨-, rfl⟩ := types
      obtain ⟨truth, -, computed⟩ := Option.bind_eq_some_iff.mp computed
      cases computed
      exact Value.hasType_bool _
  | negate =>
      obtain ⟨-, rfl⟩ := types
      simp only [UnaryOperator.evaluate] at computed
      split at computed
      case h_1 number =>
        rw [← (typed _ rfl).ty_eq]
        exact Value.hasType_checkedInt64 computed
      case h_2 number =>
        rw [← (typed _ rfl).ty_eq]
        cases computed
        exact trivial
      case h_3 => cases computed
  | bvNot =>
      obtain ⟨-, rfl⟩ := types
      simp only [UnaryOperator.evaluate] at computed
      split at computed
      case h_1 bits width =>
        have typedBits := typed _ rfl
        obtain rfl := typedBits.ty_eq
        cases computed
        exact ⟨rfl, Nat.xor_lt_two_pow (Nat.sub_lt (Nat.two_pow_pos width) Nat.one_pos)
          typedBits.2⟩
      case h_2 => cases computed

theorem exists_of_bind₂ {α β γ : Type} {first : Option α} {second : Option β}
    {operation : α → β → Option γ} {result : γ}
    (computed : (do operation (← first) (← second)) = some result) :
    ∃ left right, first = some left ∧ second = some right ∧
      operation left right = some result := by
  obtain ⟨left, hasLeft, computed⟩ := Option.bind_eq_some_iff.mp computed
  obtain ⟨right, hasRight, computed⟩ := Option.bind_eq_some_iff.mp computed
  exact ⟨left, right, hasLeft, hasRight, computed⟩

theorem BinaryOperator.Types.hasType_evaluate {operator : BinaryOperator} {left right result : Ty}
    (types : operator.Types left right result) {first second : Option Value}
    (typedFirst : OptionHasType first left) (typedSecond : OptionHasType second right) :
    OptionHasType (operator.evaluate first second) result := by
  intro computedValue computed
  cases operator
  case imply =>
    obtain ⟨-, -, rfl⟩ := types
    simp only [BinaryOperator.evaluate] at computed
    split at computed <;> cases computed <;> exact Value.hasType_bool _
  case iff =>
    obtain ⟨-, -, rfl⟩ := types
    obtain ⟨truth, truth', -, -, computed⟩ := exists_of_bind₂ computed
    cases computed
    exact Value.hasType_bool _
  case eq | neq =>
    obtain ⟨-, rfl⟩ := types
    obtain ⟨value, value', -, -, computed⟩ := exists_of_bind₂ computed
    cases computed
    exact Value.hasType_bool _
  case lt | leq | gt | geq =>
    obtain ⟨-, -, rfl⟩ := types
    obtain ⟨value, value', -, -, computed⟩ := exists_of_bind₂ computed
    obtain ⟨order, -, computed⟩ := Option.bind_eq_some_iff.mp computed
    cases computed
    exact Value.hasType_bool _
  case sub | div =>
    obtain ⟨-, rfl, rfl⟩ := types
    obtain ⟨value, value', hasValue, hasValue', computed⟩ := exists_of_bind₂ computed
    exact Value.hasType_arithmetic (typedFirst value hasValue) (typedSecond value' hasValue')
      computed
  case mod =>
    obtain ⟨rfl, rfl, rfl⟩ := types
    obtain ⟨value, value', hasValue, hasValue', computed⟩ := exists_of_bind₂ computed
    exact Value.hasType_arithmetic (typedFirst value hasValue) (typedSecond value' hasValue')
      computed
  case read =>
    obtain rfl := types
    obtain ⟨value, value', hasValue, -, computed⟩ := exists_of_bind₂ computed
    exact (typedFirst value hasValue).select computed
  case bvAnd | bvOr | bvXor | bvAdd =>
    obtain ⟨isBitVec, -, rfl⟩ := types
    obtain ⟨value, value', hasValue, -, computed⟩ := exists_of_bind₂ computed
    exact Value.hasType_bitVecOperation isBitVec (typedFirst value hasValue) computed
  case bvUlt =>
    obtain ⟨isBitVec, -, rfl⟩ := types
    obtain ⟨value, value', hasValue, -, computed⟩ := exists_of_bind₂ computed
    exact Value.hasType_bitVecOperation isBitVec (typedFirst value hasValue) computed

theorem TernaryOperator.Types.hasType_evaluate {operator : TernaryOperator}
    {first second third result : Ty} (types : operator.Types first second third result)
    {value value' value'' : Option Value} (typed : OptionHasType value first)
    (typed' : OptionHasType value' second) (typed'' : OptionHasType value'' third) :
    OptionHasType (operator.evaluate value value' value'') result := by
  intro computedValue computed
  cases operator with
  | ite =>
      obtain ⟨-, rfl, rfl⟩ := types
      simp only [TernaryOperator.evaluate] at computed
      split at computed
      · exact typed' _ computed
      · exact typed'' _ computed
      · obtain ⟨positive, negative, hasPositive, -, computed⟩ := exists_of_bind₂ computed
        split at computed
        · cases computed
          exact typed' _ hasPositive
        · cases computed
  | write =>
      obtain ⟨rfl, rfl⟩ := types
      obtain ⟨array, hasArray, computed⟩ := Option.bind_eq_some_iff.mp computed
      obtain ⟨place, stored, hasPlace, hasStored, computed⟩ := exists_of_bind₂ computed
      exact (typed _ hasArray).store (typed' _ hasPlace) (typed'' _ hasStored) computed

theorem NaryOperator.Types.hasType_evaluate {operator : NaryOperator} {operands : List Ty}
    {result : Ty} (types : operator.Types operands result) {values : List (Option Value)}
    (typed : ∀ value ∈ values, ∃ operand ∈ operands, OptionHasType value operand) :
    OptionHasType (operator.evaluate values) result := by
  -- A sum or product keeps the type of its first operand.
  have accumulated (operator : NaryOperator) (rest : List (Option Value)) (total : Option Value)
      (typedTotal : OptionHasType total result) :
      OptionHasType (rest.foldl
        (fun total operand => do Value.accumulate operator (← total) (← operand)) total)
        result := by
    induction rest generalizing total with
    | nil => exact typedTotal
    | cons value rest ih =>
        apply ih
        intro sum computed
        obtain ⟨left, right, hasLeft, -, computed⟩ := exists_of_bind₂ computed
        exact Value.hasType_accumulate (typedTotal left hasLeft) computed
  intro computedValue computed
  cases operator
  case and | or =>
    obtain ⟨rfl, -⟩ := types
    obtain ⟨truth, -, rfl⟩ := Option.map_eq_some_iff.mp computed
    exact Value.hasType_bool _
  case add | mul =>
    simp only [NaryOperator.evaluate] at computed
    split at computed
    · cases computed
    · obtain ⟨operand, member, typedFirst⟩ := typed _ (List.mem_cons_self ..)
      obtain rfl := types.2 operand member
      exact accumulated _ _ _ typedFirst computedValue computed

namespace Expr

mutual

/-- Every operator has operands of suitable types, and every literal is
representable. -/
def WellTyped : Expr → Prop
  | lit value => value.HasType value.ty
  | sym _ => True
  | unary operator operand ty => operator.Types operand.ty ty ∧ operand.WellTyped
  | binary operator left right ty =>
      operator.Types left.ty right.ty ty ∧ left.WellTyped ∧ right.WellTyped
  | ternary operator first second third ty =>
      operator.Types first.ty second.ty third.ty ty ∧ first.WellTyped ∧ second.WellTyped ∧
        third.WellTyped
  | nary operator operands ty =>
      operator.Types (operands.map Expr.ty) ty ∧ AllWellTyped operands

def AllWellTyped : List Expr → Prop
  | [] => True
  | operand :: operands => operand.WellTyped ∧ AllWellTyped operands

end

theorem allWellTyped_iff {operands : List Expr} :
    AllWellTyped operands ↔ ∀ operand ∈ operands, operand.WellTyped := by
  induction operands with
  | nil => simp [AllWellTyped]
  | cons operand operands ih => simp [AllWellTyped, ih]

/-- A value of a well-typed formula has the formula's type. -/
theorem WellTyped.hasType_eval {assignment : Symbol → Option Value} {formula : Expr}
    (wellTyped : formula.WellTyped)
    (typed : ∀ symbol ∈ formula.symbols, OptionHasType (assignment symbol) symbol.ty) :
    OptionHasType (formula.eval assignment) formula.ty := by
  induction formula with
  | lit value =>
      rintro result ⟨⟩
      exact wellTyped
  | sym symbol => exact typed symbol (by simp)
  | unary operator operand ty ih => exact wellTyped.1.hasType_evaluate (ih wellTyped.2 typed)
  | binary operator left right ty ihLeft ihRight =>
      obtain ⟨types, wellTypedLeft, wellTypedRight⟩ := wellTyped
      simp only [mem_symbols_binary] at typed
      exact types.hasType_evaluate
        (ihLeft wellTypedLeft fun symbol member => typed symbol (.inl member))
        (ihRight wellTypedRight fun symbol member => typed symbol (.inr member))
  | ternary operator first second third ty ihFirst ihSecond ihThird =>
      obtain ⟨types, wellTypedFirst, wellTypedSecond, wellTypedThird⟩ := wellTyped
      simp only [mem_symbols_ternary] at typed
      exact types.hasType_evaluate
        (ihFirst wellTypedFirst fun symbol member => typed symbol (.inl member))
        (ihSecond wellTypedSecond fun symbol member => typed symbol (.inr (.inl member)))
        (ihThird wellTypedThird fun symbol member => typed symbol (.inr (.inr member)))
  | nary operator operands ty ih =>
      obtain ⟨types, wellTypedAll⟩ := wellTyped
      simp only [mem_symbols_nary] at typed
      apply types.hasType_evaluate
      rw [evalAll_eq_map]
      simp only [List.mem_map, forall_exists_index, and_imp, forall_apply_eq_imp_iff₂]
      intro operand member
      exact ⟨operand.ty, ⟨operand, member, rfl⟩,
        ih operand member (allWellTyped_iff.mp wellTypedAll operand member)
          fun symbol occurs => typed symbol ⟨operand, member, occurs⟩⟩

theorem WellTyped.exists_bool {assignment : Symbol → Option Value} {formula : Expr}
    (wellTyped : formula.WellTyped) (boolean : formula.ty = .bool)
    (typed : ∀ symbol ∈ formula.symbols, OptionHasType (assignment symbol) symbol.ty)
    {value : Value} (evaluates : formula.eval assignment = some value) :
    ∃ truth, value = .bool truth ∧ formula.evalBool assignment = some truth := by
  have typedValue := wellTyped.hasType_eval typed value evaluates
  rw [boolean] at typedValue
  obtain ⟨truth, rfl⟩ := typedValue.exists_bool
  exact ⟨truth, rfl, by rw [evalBool, evaluates]; rfl⟩

end Expr

end AbstractionRefinement
