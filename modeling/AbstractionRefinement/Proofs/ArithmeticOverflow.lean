import AbstractionRefinement.Proofs.ConjunctionEncoding

/-!
# Arithmetic overflow

Under values for all its symbols, a well-typed formula over current states evaluates,
unless one of its arithmetic operations has operands with values but no representable
result.  Only formulas over current states are encoded.
-/

namespace AbstractionRefinement

/-- Whether results of the operator may leave the machine range. -/
def UnaryOperator.isArithmetic : UnaryOperator → Bool
  | negate => true
  | prime | not | bvNot => false

/-- Whether results of the operator may leave the machine range. -/
def BinaryOperator.isArithmetic : BinaryOperator → Bool
  | sub | div | mod => true
  | _ => false

/-- Whether results of the operator may leave the machine range. -/
def NaryOperator.isArithmetic : NaryOperator → Bool
  | add | mul => true
  | and | or => false

/-- Any other operator but the prime has a result. -/
theorem UnaryOperator.Types.isSome_evaluate {operator : UnaryOperator} {operand result : Ty}
    (types : operator.Types operand result) (current : operator ≠ .prime)
    (exact_ : operator.isArithmetic = false) {value : Value} (typed : value.HasType operand) :
    (operator.evaluate (some value)).isSome := by
  cases operator with
  | prime => exact absurd rfl current
  | negate => cases exact_
  | not =>
      obtain ⟨rfl, -⟩ := types
      obtain ⟨truth, rfl⟩ := typed.exists_bool
      rfl
  | bvNot =>
      obtain ⟨isBitVec, -⟩ := types
      cases operand with
      | bitVec width =>
          obtain ⟨bits, rfl, -⟩ := typed.exists_bitVec
          rfl
      | _ => cases isBitVec

theorem Value.isSome_compareNumeric {value value' : Value} {ty : Ty} (numeric : ty.isNumeric)
    (typed : value.HasType ty) (typed' : value'.HasType ty) :
    (value.compareNumeric value').isSome := by
  cases ty with
  | int =>
      obtain ⟨number, rfl, -⟩ := typed.exists_int
      obtain ⟨number', rfl, -⟩ := typed'.exists_int
      rfl
  | rat =>
      obtain ⟨number, rfl⟩ := typed.exists_rat
      obtain ⟨number', rfl⟩ := typed'.exists_rat
      rfl
  | _ => cases numeric

theorem Value.isSome_select {array place : Value} {index element : Ty}
    (typed : array.HasType (.array index element)) : (array.select place).isSome := by
  cases array with
  | array => rfl
  | _ => cases typed

theorem Value.isSome_store {array place stored : Value} {index element : Ty}
    (typed : array.HasType (.array index element)) : (array.store place stored).isSome := by
  cases array with
  | array => rfl
  | _ => cases typed

/-- Any other operator has a result. -/
theorem BinaryOperator.Types.isSome_evaluate {operator : BinaryOperator} {left right result : Ty}
    (types : operator.Types left right result) (exact_ : operator.isArithmetic = false)
    {value value' : Value} (typed : value.HasType left) (typed' : value'.HasType right) :
    (operator.evaluate (some value) (some value')).isSome := by
  cases operator
  case imply | iff =>
    obtain ⟨rfl, rfl, -⟩ := types
    obtain ⟨truth, rfl⟩ := typed.exists_bool
    obtain ⟨truth', rfl⟩ := typed'.exists_bool
    cases truth <;> cases truth' <;> rfl
  case eq | neq => rfl
  case lt | leq | gt | geq =>
    obtain ⟨numeric, rfl, -⟩ := types
    obtain ⟨order, compared⟩ :=
      Option.isSome_iff_exists.mp (Value.isSome_compareNumeric numeric typed typed')
    simp [BinaryOperator.evaluate, compared, Value.relates]
  case sub | div | mod => cases exact_
  case read =>
    obtain rfl := types
    exact Value.isSome_select typed
  case bvAnd | bvOr | bvXor | bvAdd | bvUlt =>
    obtain ⟨isBitVec, rfl, -⟩ := types
    cases right with
    | bitVec width =>
        obtain ⟨bits, rfl, -⟩ := typed.exists_bitVec
        obtain ⟨bits', rfl, -⟩ := typed'.exists_bitVec
        rfl
    | _ => cases isBitVec

theorem TernaryOperator.Types.isSome_evaluate {operator : TernaryOperator}
    {first second third result : Ty} (types : operator.Types first second third result)
    {value value' value'' : Value} (typed : value.HasType first) :
    (operator.evaluate (some value) (some value') (some value'')).isSome := by
  cases operator with
  | ite =>
      obtain ⟨rfl, -⟩ := types
      obtain ⟨truth, rfl⟩ := typed.exists_bool
      cases truth <;> rfl
  | write =>
      obtain ⟨rfl, -⟩ := types
      exact Value.isSome_store typed

/-- Connectives of truth values have a result. -/
theorem NaryOperator.isSome_evaluate {operator : NaryOperator}
    (exact_ : operator.isArithmetic = false) {values : List (Option Value)}
    (boolean : ∀ value ∈ values, ∃ truth, value = some (.bool truth)) :
    (operator.evaluate values).isSome := by
  have known : none ∉ values.map truthOf := by
    intro member
    obtain ⟨value, member, unknown⟩ := List.mem_map.mp member
    obtain ⟨truth, rfl⟩ := boolean value member
    cases unknown
  cases operator with
  | and =>
      simp only [NaryOperator.evaluate, conjunction]
      split
      · rfl
      · simp [known]
  | or =>
      simp only [NaryOperator.evaluate, disjunction]
      split
      · rfl
      · simp [known]
  | _ => cases exact_

theorem NaryOperator.Types.ty_eq_bool {operator : NaryOperator} {operands : List Ty} {result : Ty}
    (types : operator.Types operands result) (exact_ : operator.isArithmetic = false)
    {operand : Ty} (member : operand ∈ operands) : operand = .bool := by
  cases operator with
  | and | or => exact types.2 operand member
  | _ => cases exact_

namespace Expr

theorem hasPrime_of_mem {operator : NaryOperator} {operands : List Expr} {ty : Ty}
    (current : (nary operator operands ty).hasPrime = false) {operand : Expr}
    (member : operand ∈ operands) : operand.hasPrime = false := by
  rw [hasPrime, hasPrimeAny_eq_any, List.any_eq_false] at current
  simpa using current operand member

/-- Whether the outermost operator is an arithmetic one. -/
def isArithmetic : Expr → Bool
  | lit _ | sym _ | ternary .. => false
  | unary operator _ _ => operator.isArithmetic
  | binary operator _ _ _ => operator.isArithmetic
  | nary operator _ _ => operator.isArithmetic

/-- An arithmetic operation in the formula has no value although its operands have:
its result, or that of a partial sum or product, is out of range. -/
inductive Overflows (assignment : Symbol → Option Value) : Expr → Prop
  | here {formula : Expr} : formula.isArithmetic →
      (∀ operand ∈ formula.children, (operand.eval assignment).isSome) →
      formula.eval assignment = none → Overflows assignment formula
  | inside {formula operand : Expr} : operand ∈ formula.children →
      Overflows assignment operand → Overflows assignment formula

variable {assignment : Symbol → Option Value}

/-- The assignment gives every symbol of the formula a value of its type. -/
def Assigned (assignment : Symbol → Option Value) (formula : Expr) : Prop :=
  ∀ symbol ∈ formula.symbols, ∃ value, assignment symbol = some value ∧ value.HasType symbol.ty

theorem Assigned.typed {formula : Expr} (assigned : formula.Assigned assignment) :
    ∀ symbol ∈ formula.symbols, OptionHasType (assignment symbol) symbol.ty := by
  intro symbol occurs value found
  obtain ⟨value', found', typed⟩ := assigned symbol occurs
  rw [found] at found'
  cases found'
  exact typed

theorem WellTyped.exists_value {formula : Expr} (wellTyped : formula.WellTyped)
    (assigned : formula.Assigned assignment) (evaluates : (formula.eval assignment).isSome) :
    ∃ value, formula.eval assignment = some value ∧ value.HasType formula.ty := by
  obtain ⟨value, evaluates⟩ := Option.isSome_iff_exists.mp evaluates
  exact ⟨value, evaluates, wellTyped.hasType_eval assigned.typed value evaluates⟩

theorem isSome_eval_of_isArithmetic {formula : Expr} (isArithmetic : formula.isArithmetic)
    (operands : ∀ operand ∈ formula.children, (operand.eval assignment).isSome)
    (exact_ : ¬ formula.Overflows assignment) : (formula.eval assignment).isSome := by
  rw [Option.isSome_iff_ne_none]
  exact fun undefined => exact_ (.here isArithmetic operands undefined)

/-- Under values for its symbols, a well-typed formula over current states evaluates
unless its arithmetic overflows. -/
theorem WellTyped.isSome_eval {formula : Expr} (wellTyped : formula.WellTyped)
    (current : formula.hasPrime = false) (assigned : formula.Assigned assignment)
    (exact_ : ¬ formula.Overflows assignment) : (formula.eval assignment).isSome := by
  induction formula with
  | lit value => rfl
  | sym symbol =>
      obtain ⟨value, found, -⟩ := assigned symbol (by simp)
      rw [eval, found]
      rfl
  | unary operator operand ty ih =>
      obtain ⟨types, wellTyped⟩ := wellTyped
      simp only [hasPrime, Bool.or_eq_false_iff, decide_eq_false_iff_not] at current
      have evaluates := ih wellTyped current.2 assigned fun overflows =>
        exact_ (.inside (List.mem_singleton_self operand) overflows)
      cases arithmetic : operator.isArithmetic with
      | true => exact isSome_eval_of_isArithmetic arithmetic (by simpa [children]) exact_
      | false =>
          obtain ⟨value, found, typed⟩ := wellTyped.exists_value assigned evaluates
          rw [eval, found]
          exact types.isSome_evaluate current.1 arithmetic typed
  | binary operator left right ty ihLeft ihRight =>
      obtain ⟨types, wellTypedLeft, wellTypedRight⟩ := wellTyped
      simp only [hasPrime, Bool.or_eq_false_iff] at current
      have assignedLeft : left.Assigned assignment := fun symbol occurs =>
        assigned symbol (mem_symbols_binary.mpr (.inl occurs))
      have assignedRight : right.Assigned assignment := fun symbol occurs =>
        assigned symbol (mem_symbols_binary.mpr (.inr occurs))
      have evaluatesLeft := ihLeft wellTypedLeft current.1 assignedLeft fun overflows =>
        exact_ (.inside (by simp [children]) overflows)
      have evaluatesRight := ihRight wellTypedRight current.2 assignedRight fun overflows =>
        exact_ (.inside (by simp [children]) overflows)
      cases arithmetic : operator.isArithmetic with
      | true =>
          exact isSome_eval_of_isArithmetic arithmetic
            (by simp [children, evaluatesLeft, evaluatesRight]) exact_
      | false =>
          obtain ⟨value, found, typed⟩ := wellTypedLeft.exists_value assignedLeft evaluatesLeft
          obtain ⟨value', found', typed'⟩ :=
            wellTypedRight.exists_value assignedRight evaluatesRight
          rw [eval, found, found']
          exact types.isSome_evaluate arithmetic typed typed'
  | ternary operator first second third ty ihFirst ihSecond ihThird =>
      obtain ⟨types, wellTypedFirst, wellTypedSecond, wellTypedThird⟩ := wellTyped
      simp only [hasPrime, Bool.or_eq_false_iff] at current
      have assignedFirst : first.Assigned assignment := fun symbol occurs =>
        assigned symbol (mem_symbols_ternary.mpr (.inl occurs))
      have evaluatesFirst := ihFirst wellTypedFirst current.1.1 assignedFirst fun overflows =>
        exact_ (.inside (by simp [children]) overflows)
      have evaluatesSecond := ihSecond wellTypedSecond current.1.2
        (fun symbol occurs => assigned symbol (mem_symbols_ternary.mpr (.inr (.inl occurs))))
        fun overflows => exact_ (.inside (by simp [children]) overflows)
      have evaluatesThird := ihThird wellTypedThird current.2
        (fun symbol occurs => assigned symbol (mem_symbols_ternary.mpr (.inr (.inr occurs))))
        fun overflows => exact_ (.inside (by simp [children]) overflows)
      obtain ⟨value, found, typed⟩ := wellTypedFirst.exists_value assignedFirst evaluatesFirst
      obtain ⟨value', found'⟩ := Option.isSome_iff_exists.mp evaluatesSecond
      obtain ⟨value'', found''⟩ := Option.isSome_iff_exists.mp evaluatesThird
      rw [eval, found, found', found'']
      exact types.isSome_evaluate typed
  | nary operator operands ty ih =>
      obtain ⟨types, wellTyped⟩ := wellTyped
      rw [allWellTyped_iff] at wellTyped
      have assignedOperand (operand : Expr) (member : operand ∈ operands) :
          operand.Assigned assignment := fun symbol occurs =>
        assigned symbol (mem_symbols_nary.mpr ⟨operand, member, occurs⟩)
      have evaluates (operand : Expr) (member : operand ∈ operands) :
          (operand.eval assignment).isSome :=
        ih operand member (wellTyped operand member)
          (hasPrime_of_mem current member) (assignedOperand operand member) fun overflows =>
            exact_ (.inside member overflows)
      cases arithmetic : operator.isArithmetic with
      | true => exact isSome_eval_of_isArithmetic arithmetic evaluates exact_
      | false =>
          rw [eval, evalAll_eq_map]
          apply NaryOperator.isSome_evaluate arithmetic
          rw [List.forall_mem_map]
          intro operand member
          obtain ⟨value, found, typed⟩ := (wellTyped operand member).exists_value
            (assignedOperand operand member) (evaluates operand member)
          rw [types.ty_eq_bool arithmetic (List.mem_map_of_mem member)] at typed
          obtain ⟨truth, rfl⟩ := typed.exists_bool
          exact ⟨truth, found⟩

/-- A formula that is encoded exactly has its compiled truth value, unless its arithmetic
overflows and it has none. -/
theorem Encodable.evalBool_eq {formula : Expr} (encodable : formula.Encodable)
    (boolean : formula.ty = .bool) (current : formula.hasPrime = false)
    (assigned : formula.Assigned assignment) :
    formula.evalBool assignment = some (formula.truth assignment) ∨
      formula.evalBool assignment = none ∧ formula.Overflows assignment := by
  have refines := encodable.wellTyped.refines_truth assigned.typed
  by_cases overflows : formula.Overflows assignment
  · cases decided : formula.evalBool assignment with
    | none => exact .inr ⟨rfl, overflows⟩
    | some truth => exact .inl (congrArg some (refines truth decided).symm)
  · obtain ⟨value, found⟩ := Option.isSome_iff_exists.mp
      (encodable.wellTyped.isSome_eval current assigned overflows)
    obtain ⟨truth, -, decided⟩ :=
      encodable.wellTyped.exists_bool boolean assigned.typed found
    rw [refines truth decided]
    exact .inl decided

end Expr

namespace Encoding

variable {α β ι : Type} {encoder : Encoder}

theorem exists_of_bind {first : Encoding β} {next : β → Encoding α} {result : α}
    (returned : ((first >>= next) encoder).1 = .ok result) :
    ∃ middle after, (first encoder).1 = .ok middle ∧ (next middle after).1 = .ok result := by
  rw [bind_run] at returned
  rcases outcome : first encoder with ⟨cause | middle, after⟩
  · rw [outcome] at returned
    cases returned
  · rw [outcome] at returned
    exact ⟨middle, after, rfl, returned⟩

theorem exists_of_foldlM {step : α → ι → Encoding α} {items : List ι} {start result : α}
    (returned : (items.foldlM step start encoder).1 = .ok result) {item : ι}
    (member : item ∈ items) :
    ∃ total before middle, (step total item before).1 = .ok middle := by
  induction items generalizing start encoder with
  | nil => cases member
  | cons first items ih =>
      rw [List.foldlM_cons] at returned
      obtain ⟨middle, after, returnedFirst, returned⟩ := exists_of_bind returned
      rcases List.mem_cons.mp member with rfl | member
      · exact ⟨start, encoder, middle, returnedFirst⟩
      · exact ih returned member

theorem hasPrime_of_encodeAtom {formula : Expr} {edge : Edge}
    (returned : (Encoder.encodeAtom formula encoder).1 = .ok edge) : formula.hasPrime = false := by
  unfold Encoder.encodeAtom at returned
  split at returned
  case isTrue =>
    obtain ⟨_, _, refused, -⟩ := exists_of_bind returned
    cases refused
  case isFalse current => simpa using current

/-- Only formulas over current states are encoded. -/
theorem hasPrime_of_encode {formula : Expr} {edge : Edge}
    (returned : (Encoder.encode formula encoder).1 = .ok edge) : formula.hasPrime = false := by
  have operands {operation : Edge → Edge → DiagramManager → Edge × DiagramManager}
      {operands : List Expr} {start edge : Edge} {encoder : Encoder}
      (each : ∀ operand ∈ operands, ∀ encoder edge,
        (Encoder.encode operand encoder).1 = .ok edge → operand.hasPrime = false)
      (returned : (operands.foldlM (fun (total : Edge) operand => do
        let edge ← Encoder.encode operand
        Encoder.diagram (operation total edge)) start encoder).1 = .ok edge) :
      Expr.hasPrimeAny operands = false := by
    rw [Expr.hasPrimeAny_eq_any, List.any_eq_false]
    intro operand member
    obtain ⟨_, before, _, round⟩ := exists_of_foldlM returned member
    obtain ⟨_, _, encoded, -⟩ := exists_of_bind round
    simpa using each operand member before _ encoded
  refine Encoder.forall_encode (fun formula computation => ∀ encoder edge,
    (computation encoder).1 = .ok edge → formula.hasPrime = false)
    (fun formula computation compiles each encoder edge returned => ?_) formula encoder edge returned
  cases compiles with
  | truth | «variable» => rfl
  | atom =>
      obtain ⟨_, _, encoded, -⟩ := exists_of_bind returned
      exact hasPrime_of_encodeAtom encoded
  | negation operand ty =>
      obtain ⟨_, _, encoded, -⟩ := exists_of_bind returned
      exact each operand (by simp [Expr.children]) _ _ encoded
  | connective operator left right ty =>
      obtain ⟨_, after, encoded, returned⟩ := exists_of_bind returned
      obtain ⟨_, _, encoded', -⟩ := exists_of_bind returned
      rw [Expr.hasPrime, each left (by simp [Expr.children]) _ _ encoded,
        each right (by simp [Expr.children]) _ _ encoded', Bool.or_false]
  | choice operator first second third ty =>
      obtain ⟨_, after, encoded, returned⟩ := exists_of_bind returned
      obtain ⟨_, after', encoded', returned⟩ := exists_of_bind returned
      obtain ⟨_, _, encoded'', -⟩ := exists_of_bind returned
      rw [Expr.hasPrime, each first (by simp [Expr.children]) _ _ encoded,
        each second (by simp [Expr.children]) _ _ encoded',
        each third (by simp [Expr.children]) _ _ encoded'', Bool.or_false, Bool.or_false]
  | conjunction parts ty =>
      rw [encodeConjunction_eq_foldlM] at returned
      obtain ⟨_, _, encoded, -⟩ := exists_of_bind returned
      exact operands each encoded
  | disjunction parts ty =>
      rw [encodeDisjunction_eq_foldlM] at returned
      obtain ⟨_, _, encoded, -⟩ := exists_of_bind returned
      exact operands each encoded

end Encoding

end AbstractionRefinement
