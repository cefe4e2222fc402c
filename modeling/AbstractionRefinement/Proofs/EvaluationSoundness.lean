import AbstractionRefinement.Proofs.ArithmeticOverflow
import AbstractionRefinement.Proofs.ConstructedFormulas

/-!
# Soundness of evaluation

A constructed formula evaluates to a canonical value of its type.  If it is about the current
state and its symbols have values, it only fails to evaluate if the exact result of one of its
arithmetic operations is not representable.
-/

namespace AbstractionRefinement

/-- The exact result of the operation on two integers or on two rational numbers is not
representable. -/
inductive Value.OutOfRange (onIntegers : Int → Int → Int) (onRationals : ℚ → ℚ → ℚ) :
    Value → Value → Prop
  | integer {left right : Int} : ¬ FitsInt64 (onIntegers left right) →
      OutOfRange onIntegers onRationals (.int left) (.int right)
  | rational {left right : RationalNumber} :
      RationalNumber.ofRat? (onRationals left.toRat right.toRat) = none →
      OutOfRange onIntegers onRationals (.rat left) (.rat right)

/-- The operation on the values leaves the machine range.  Division by zero gives zero, and
the only remainder out of range is that of the least integer modulo -1. -/
def BinaryOperator.LeavesRange (operator : BinaryOperator) (left right : Value) : Prop :=
  match operator with
  | sub => left.OutOfRange (· - ·) (· - ·) right
  | div => left.OutOfRange (· / ·) (· / ·) right
  | mod => left = .int minInt64 ∧ right = .int (-1)
  | _ => False

/-- The next step of a sum or product leaves the machine range. -/
def NaryOperator.LeavesRange (operator : NaryOperator) (left right : Value) : Prop :=
  match operator with
  | add => left.OutOfRange (· + ·) (· + ·) right
  | mul => left.OutOfRange (· * ·) (· * ·) right
  | and | or => False

/-- A rational difference is computed as the sum with the opposite number, which is out of
range for the least numerator. -/
def BinaryOperator.SubtractsLeast (operator : BinaryOperator) (right : Value) : Prop :=
  operator = .sub ∧ ∃ number, right = .rat number ∧ number.num = minInt64

theorem not_fits_of_checkedInt64 {number : Int} (undefined : checkedInt64 number = none) :
    ¬ FitsInt64 number := by
  intro fits
  rw [checkedInt64, if_pos fits] at undefined
  cases undefined

theorem BinaryOperator.leavesRange_of_integerOperation {operator : BinaryOperator}
    (arithmetic : operator.isArithmetic) {left right : Int}
    (undefined : Value.integerOperation operator left right = none) :
    operator.LeavesRange (.int left) (.int right) := by
  cases operator
  case sub => exact .integer (not_fits_of_checkedInt64 undefined)
  case div =>
    simp only [Value.integerOperation] at undefined
    split at undefined
    case isTrue => cases undefined
    case isFalse => exact .integer (not_fits_of_checkedInt64 undefined)
  case mod =>
    simp only [Value.integerOperation] at undefined
    split at undefined
    case isTrue => cases undefined
    case isFalse =>
      split at undefined
      case isTrue least => exact ⟨congrArg Value.int least.1, congrArg Value.int least.2⟩
      case isFalse => cases undefined
  all_goals cases arithmetic

/-- An arithmetic operation without a result leaves the range. -/
theorem BinaryOperator.Types.leavesRange {operator : BinaryOperator} {left right result : Ty}
    (types : operator.Types left right result) (arithmetic : operator.isArithmetic)
    {value value' : Value} (proper : value.Proper left) (proper' : value'.Proper right)
    (undefined : operator.evaluate (some value) (some value') = none) :
    operator.LeavesRange value value' ∨ operator.SubtractsLeast value' := by
  have integer (typed : value.HasType .int) (typed' : value'.HasType .int)
      (undefined : Value.arithmetic operator value value' = none) :
      operator.LeavesRange value value' := by
    obtain ⟨number, rfl, -⟩ := typed.exists_int
    obtain ⟨number', rfl, -⟩ := typed'.exists_int
    exact leavesRange_of_integerOperation arithmetic (Option.map_eq_none_iff.mp undefined)
  cases operator
  case sub =>
    obtain ⟨numeric, rfl, rfl⟩ := types
    cases result with
    | int => exact .inl (integer proper.hasType proper'.hasType undefined)
    | rat =>
        obtain ⟨number, rfl⟩ := proper.hasType.exists_rat
        obtain ⟨number', rfl⟩ := proper'.hasType.exists_rat
        by_cases least : number'.num = minInt64
        · exact .inr ⟨rfl, number', rfl, least⟩
        · have refused : number.checkedSub number' = none := Option.map_eq_none_iff.mp undefined
          rw [RationalNumber.checkedSub_eq proper.canonical proper'.canonical least] at refused
          exact .inl (.rational refused)
    | _ => cases numeric
  case div =>
    obtain ⟨numeric, rfl, rfl⟩ := types
    cases result with
    | int => exact .inl (integer proper.hasType proper'.hasType undefined)
    | rat =>
        obtain ⟨number, rfl⟩ := proper.hasType.exists_rat
        obtain ⟨number', rfl⟩ := proper'.hasType.exists_rat
        have refused : number.checkedDiv number' = none := Option.map_eq_none_iff.mp undefined
        rw [RationalNumber.checkedDiv_eq proper.canonical proper'.canonical] at refused
        exact .inl (.rational refused)
    | _ => cases numeric
  case mod =>
    obtain ⟨rfl, rfl, rfl⟩ := types
    exact .inl (integer proper.hasType proper'.hasType undefined)
  all_goals cases arithmetic

/-- A step of a sum or product without a result leaves the range. -/
theorem NaryOperator.leavesRange_of_accumulate {operator : NaryOperator}
    (arithmetic : operator.isArithmetic) {ty : Ty} (numeric : ty.isNumeric) {total value : Value}
    (proper : total.Proper ty) (proper' : value.Proper ty)
    (undefined : Value.accumulate operator total value = none) :
    operator.LeavesRange total value := by
  cases ty with
  | int =>
      obtain ⟨number, rfl, -⟩ := proper.hasType.exists_int
      obtain ⟨number', rfl, -⟩ := proper'.hasType.exists_int
      cases operator with
      | add | mul =>
          exact .integer (not_fits_of_checkedInt64 (Option.map_eq_none_iff.mp undefined))
      | and | or => cases arithmetic
  | rat =>
      obtain ⟨number, rfl⟩ := proper.hasType.exists_rat
      obtain ⟨number', rfl⟩ := proper'.hasType.exists_rat
      cases operator with
      | add =>
          have refused : number.checkedAdd number' = none := Option.map_eq_none_iff.mp undefined
          rw [RationalNumber.checkedAdd_eq proper.canonical proper'.canonical] at refused
          exact .rational refused
      | mul =>
          have refused : number.checkedMul number' = none := Option.map_eq_none_iff.mp undefined
          rw [RationalNumber.checkedMul_eq proper.canonical proper'.canonical] at refused
          exact .rational refused
      | and | or => cases arithmetic
  | _ => cases numeric

theorem NaryOperator.Types.isNumeric {operator : NaryOperator} {operands : List Ty} {result : Ty}
    (types : operator.Types operands result) (arithmetic : operator.isArithmetic) :
    result.isNumeric ∧ ∀ operand ∈ operands, operand = result := by
  cases operator with
  | add | mul => exact types
  | and | or => cases arithmetic

theorem NaryOperator.Types.of_subset {operator : NaryOperator} {operands some : List Ty}
    {result : Ty} (types : operator.Types operands result) (subset : some ⊆ operands) :
    operator.Types some result := by
  cases operator <;> exact ⟨types.1, fun operand member => types.2 operand (subset member)⟩

namespace Expr

variable {assignment : Symbol → Option Value} {formula : Expr}

/-- A part of the formula, or all of it, has the property. -/
inductive Contains (property : Expr → Prop) : Expr → Prop
  | here {formula : Expr} : property formula → Contains property formula
  | inside {formula operand : Expr} : operand ∈ formula.children → Contains property operand →
      Contains property formula

theorem contains_iff {property : Expr → Prop} : formula.Contains property ↔
    property formula ∨ ∃ operand ∈ formula.children, operand.Contains property := by
  constructor
  · rintro (holds | ⟨member, contains⟩)
    · exact .inl holds
    · exact .inr ⟨_, member, contains⟩
  · rintro (holds | ⟨operand, member, contains⟩)
    · exact .here holds
    · exact .inside member contains

/-- The outermost operation has operands with values, but its exact result, or that of a
further step of a sum or product, is not representable. -/
inductive LeavesRange (assignment : Symbol → Option Value) : Expr → Prop
  | negate {operand : Expr} {ty : Ty} {number : Int} :
      operand.eval assignment = some (.int number) → ¬ FitsInt64 (-number) →
      LeavesRange assignment (unary .negate operand ty)
  | binary {operator : BinaryOperator} {left right : Expr} {ty : Ty} {value value' : Value} :
      left.eval assignment = some value → right.eval assignment = some value' →
      operator.LeavesRange value value' → LeavesRange assignment (binary operator left right ty)
  | nary {operator : NaryOperator} {before after : List Expr} {operand : Expr} {ty : Ty}
      {total value : Value} : (nary operator before ty).eval assignment = some total →
      operand.eval assignment = some value → operator.LeavesRange total value →
      LeavesRange assignment (nary operator (before ++ operand :: after) ty)

/-- The formula is a rational difference that subtracts the least numerator. -/
inductive SubtractsLeast (assignment : Symbol → Option Value) : Expr → Prop
  | binary {operator : BinaryOperator} {left right : Expr} {ty : Ty} {value : Value} :
      right.eval assignment = some value → operator.SubtractsLeast value →
      SubtractsLeast assignment (binary operator left right ty)

/-- The value of the formula is a rational number with the least numerator. -/
def HasLeast (assignment : Symbol → Option Value) (formula : Expr) : Prop :=
  ∃ number, formula.eval assignment = some (.rat number) ∧ number.num = minInt64

theorem Contains.hasLeast (contains : formula.Contains (SubtractsLeast assignment)) :
    formula.Contains (HasLeast assignment) := by
  induction contains with
  | here subtracts =>
      obtain ⟨evaluates, -, number, rfl, least⟩ := subtracts
      exact .inside (by simp [children]) (.here ⟨number, evaluates, least⟩)
  | inside member _ ih => exact .inside member ih

/-- The formula can be evaluated soundly: it is well typed and well formed, and the values of
its symbols are canonical ones of their types. -/
structure SoundUnder (assignment : Symbol → Option Value) (formula : Expr) : Prop where
  wellTyped : formula.WellTyped
  wellFormed : formula.WellFormed
  proper : ∀ symbol ∈ formula.symbols, ∀ value,
    assignment symbol = some value → value.Proper symbol.ty

namespace SoundUnder

variable (sound : formula.SoundUnder assignment)
include sound

theorem proper_eval {value : Value} (evaluates : formula.eval assignment = some value) :
    value.Proper formula.ty where
  hasType := sound.wellTyped.hasType_eval
    (fun symbol occurs value found => (sound.proper symbol occurs value found).hasType)
    value evaluates
  canonical := sound.wellFormed.canonical_eval
    (fun symbol occurs value found => (sound.proper symbol occurs value found).canonical)
    value evaluates

theorem operand {operand : Expr} (member : operand ∈ formula.children) :
    operand.SoundUnder assignment := by
  obtain ⟨wellTyped, wellFormed, proper⟩ := sound
  cases formula with
  | lit | sym => cases member
  | unary operator operand' ty =>
      obtain rfl := List.mem_singleton.mp member
      exact ⟨wellTyped.2, wellFormed, fun symbol occurs => proper symbol occurs⟩
  | binary operator left right ty =>
      simp only [mem_symbols_binary] at proper
      simp only [children, List.mem_cons, List.not_mem_nil, or_false] at member
      rcases member with rfl | rfl
      · exact ⟨wellTyped.2.1, wellFormed.1, fun symbol occurs => proper symbol (.inl occurs)⟩
      · exact ⟨wellTyped.2.2, wellFormed.2, fun symbol occurs => proper symbol (.inr occurs)⟩
  | ternary operator first second third ty =>
      simp only [mem_symbols_ternary] at proper
      simp only [children, List.mem_cons, List.not_mem_nil, or_false] at member
      rcases member with rfl | rfl | rfl
      · exact ⟨wellTyped.2.1, wellFormed.1, fun symbol occurs => proper symbol (.inl occurs)⟩
      · exact ⟨wellTyped.2.2.1, wellFormed.2.1,
          fun symbol occurs => proper symbol (.inr (.inl occurs))⟩
      · exact ⟨wellTyped.2.2.2, wellFormed.2.2,
          fun symbol occurs => proper symbol (.inr (.inr occurs))⟩
  | nary operator operands ty =>
      simp only [mem_symbols_nary] at proper
      exact ⟨allWellTyped_iff.mp wellTyped.2 operand member,
        allWellFormed_iff.mp wellFormed.2 operand member,
        fun symbol occurs => proper symbol ⟨operand, member, occurs⟩⟩

end SoundUnder

theorem SoundUnder.of_subset {operator : NaryOperator} {operands part : List Expr} {ty : Ty}
    (sound : (nary operator operands ty).SoundUnder assignment) (nonempty : part ≠ [])
    (subset : part ⊆ operands) : (nary operator part ty).SoundUnder assignment where
  wellTyped := ⟨sound.wellTyped.1.of_subset (List.map_subset _ subset), allWellTyped_iff.mpr
    fun _ member => allWellTyped_iff.mp sound.wellTyped.2 _ (subset member)⟩
  wellFormed := ⟨nonempty, allWellFormed_iff.mpr
    fun _ member => allWellFormed_iff.mp sound.wellFormed.2 _ (subset member)⟩
  proper symbol occurs := by
    obtain ⟨operand, member, occurs⟩ := mem_symbols_nary.mp occurs
    exact sound.proper symbol (mem_symbols_nary.mpr ⟨operand, subset member, occurs⟩)

/-- The last operand of a sum or product is added to the sum or product of the others. -/
theorem eval_nary_concat {operator : NaryOperator} (arithmetic : operator.isArithmetic)
    {operands : List Expr} (nonempty : operands ≠ []) (operand : Expr) (ty : Ty) :
    (nary operator (operands ++ [operand]) ty).eval assignment = (do
      Value.accumulate operator (← (nary operator operands ty).eval assignment)
        (← operand.eval assignment)) := by
  obtain ⟨first, rest, rfl⟩ := List.exists_cons_of_ne_nil nonempty
  simp only [eval, evalAll_eq_map, List.map_append, List.map_cons, List.map_nil]
  cases operator with
  | add | mul => simp only [NaryOperator.evaluate, List.cons_append, List.foldl_append,
      List.foldl_cons, List.foldl_nil]
  | and | or => cases arithmetic

/-- A sum or product of evaluated operands without a value has a step without a result. -/
theorem exists_step_of_eval_nary {operator : NaryOperator} (arithmetic : operator.isArithmetic)
    {operands : List Expr} (nonempty : operands ≠ []) {ty : Ty}
    (evaluate : ∀ operand ∈ operands, (operand.eval assignment).isSome)
    (undefined : (nary operator operands ty).eval assignment = none) :
    ∃ before operand after total value, operands = before ++ operand :: after ∧ before ≠ [] ∧
      (nary operator before ty).eval assignment = some total ∧
      operand.eval assignment = some value ∧ Value.accumulate operator total value = none := by
  induction operands using List.reverseRecOn with
  | nil => exact absurd rfl nonempty
  | append_singleton operands operand ih =>
      obtain ⟨value, hasValue⟩ :=
        Option.isSome_iff_exists.mp (evaluate operand (by simp))
      by_cases alone : operands = []
      · subst alone
        cases operator with
        | add | mul =>
            rw [List.nil_append, eval, evalAll_eq_map, List.map_singleton, hasValue] at undefined
            cases undefined
        | and | or => cases arithmetic
      · rw [eval_nary_concat arithmetic alone, hasValue] at undefined
        cases hasTotal : (nary operator operands ty).eval assignment with
        | none =>
            obtain ⟨before, operand', after, total, value', rfl, rest⟩ :=
              ih alone (fun operand member => evaluate operand (by simp [member])) hasTotal
            exact ⟨before, operand', after ++ [operand], total, value', by simp, rest⟩
        | some total =>
            rw [hasTotal] at undefined
            exact ⟨operands, operand, [], total, value, rfl, alone, hasTotal, hasValue, undefined⟩

/-- An arithmetic operation of evaluated operands without a value leaves the range. -/
theorem SoundUnder.leavesRange (sound : formula.SoundUnder assignment)
    (arithmetic : formula.isArithmetic)
    (evaluate : ∀ operand ∈ formula.children, (operand.eval assignment).isSome)
    (undefined : formula.eval assignment = none) :
    formula.LeavesRange assignment ∨ formula.SubtractsLeast assignment := by
  cases formula with
  | lit | sym | ternary => cases arithmetic
  | unary operator operand ty =>
      cases operator with
      | negate =>
          have member : operand ∈ (unary .negate operand ty).children := by simp [children]
          obtain ⟨value, hasValue⟩ := Option.isSome_iff_exists.mp (evaluate operand member)
          rw [eval, hasValue] at undefined
          obtain ⟨numeric, -⟩ := sound.wellTyped.1
          have typed := ((sound.operand member).proper_eval hasValue).hasType
          cases isTy : operand.ty with
          | int =>
              rw [isTy] at typed
              obtain ⟨number, rfl, -⟩ := typed.exists_int
              exact .inl (.negate hasValue
                (not_fits_of_checkedInt64 (Option.map_eq_none_iff.mp undefined)))
          | rat =>
              rw [isTy] at typed
              obtain ⟨number, rfl⟩ := typed.exists_rat
              cases undefined
          | _ =>
              rw [isTy] at numeric
              cases numeric
      | _ => cases arithmetic
  | binary operator left right ty =>
      have member : left ∈ (binary operator left right ty).children := by simp [children]
      have member' : right ∈ (binary operator left right ty).children := by simp [children]
      obtain ⟨value, hasValue⟩ := Option.isSome_iff_exists.mp (evaluate left member)
      obtain ⟨value', hasValue'⟩ := Option.isSome_iff_exists.mp (evaluate right member')
      rw [eval, hasValue, hasValue'] at undefined
      exact (sound.wellTyped.1.leavesRange arithmetic ((sound.operand member).proper_eval hasValue)
        ((sound.operand member').proper_eval hasValue') undefined).imp
          (.binary hasValue hasValue') (.binary hasValue')
  | nary operator operands ty =>
      obtain ⟨before, operand, after, total, value, rfl, nonempty, hasTotal, hasValue, refused⟩ :=
        exists_step_of_eval_nary arithmetic sound.wellFormed.1 evaluate undefined
      obtain ⟨numeric, same⟩ := sound.wellTyped.1.isNumeric arithmetic
      have member : operand ∈ before ++ operand :: after := by simp
      have properTotal := (sound.of_subset nonempty (List.subset_append_left ..)).proper_eval hasTotal
      have properValue := (sound.operand member).proper_eval hasValue
      rw [same _ (List.mem_map_of_mem member)] at properValue
      exact .inl (.nary hasTotal hasValue
        (NaryOperator.leavesRange_of_accumulate arithmetic numeric properTotal properValue refused))

theorem Overflows.contains (overflows : formula.Overflows assignment)
    (sound : formula.SoundUnder assignment) :
    formula.Contains (LeavesRange assignment) ∨ formula.Contains (SubtractsLeast assignment) := by
  induction overflows with
  | here arithmetic evaluate undefined =>
      exact (sound.leavesRange arithmetic evaluate undefined).imp .here .here
  | inside member _ ih => exact (ih (sound.operand member)).imp (.inside member) (.inside member)

/-- Evaluation is sound.  Under canonical values of the right types for symbols, a value of a
constructed formula is of the formula's type and canonical.  If the formula is about the current
state and all its symbols have values, it has one unless the exact result of an arithmetic
operation inside it is not representable.  Rational differences add the opposite number, so
that operation may also be the opposite of the least numerator, if a part of the formula has
such a value. -/
theorem Constructed.eval_sound (constructed : formula.Constructed)
    (proper : ∀ symbol ∈ formula.symbols, ∀ value,
      assignment symbol = some value → value.Proper symbol.ty) :
    (∀ value, formula.eval assignment = some value → value.Proper formula.ty) ∧
    (formula.hasPrime = false → (∀ symbol ∈ formula.symbols, (assignment symbol).isSome) →
      formula.eval assignment = none →
        (¬ formula.Contains (HasLeast assignment) → formula.Contains (LeavesRange assignment)) ∧
        (formula.Contains (LeavesRange assignment) ∨
          formula.Contains (SubtractsLeast assignment))) := by
  have sound : formula.SoundUnder assignment :=
    ⟨constructed.regular.1, constructed.regular.2, proper⟩
  refine ⟨fun value => sound.proper_eval, fun current assigned undefined => ?_⟩
  have assignedTyped : formula.Assigned assignment := fun symbol occurs => by
    obtain ⟨value, found⟩ := Option.isSome_iff_exists.mp (assigned symbol occurs)
    exact ⟨value, found, (proper symbol occurs value found).hasType⟩
  have outOfRange : formula.Contains (LeavesRange assignment) ∨
      formula.Contains (SubtractsLeast assignment) := by
    by_contra inRange
    have evaluates := sound.wellTyped.isSome_eval current assignedTyped fun overflows =>
      inRange (overflows.contains sound)
    rw [undefined] at evaluates
    cases evaluates
  exact ⟨fun noLeast => outOfRange.resolve_right fun subtracts => noLeast subtracts.hasLeast,
    outOfRange⟩

/-- A sum that restores the default element of an array, and one that leaves the range. -/
theorem eval_sound_sums :
    let number : Symbol := ⟨⟨"number", .rat⟩, none⟩
    let table : Symbol := ⟨⟨"table", .array .int .rat⟩, none⟩
    let assignment : Symbol → Option Value := fun symbol =>
      if symbol = number then some (.rat ⟨1, 2⟩)
      else if symbol = table then some (.array .int (.rat ⟨1, 1⟩) [(.int 3, .rat ⟨5, 1⟩)])
      else none
    let sum : RationalNumber → Expr := fun other =>
      nary .add [sym number, lit (.rat other)] .rat
    let written := ternary .write (sym table) (lit (.int 3)) (sum ⟨1, 2⟩) table.ty
    (written.eval assignment = some (.constantArray .int (.rat ⟨1, 1⟩)) ∧
      (Value.constantArray .int (.rat ⟨1, 1⟩)).Proper written.ty) ∧
    (sum ⟨maxInt64, 1⟩).eval assignment = none ∧
      (sum ⟨maxInt64, 1⟩).Contains (LeavesRange assignment) := by
  intro number table assignment sum written
  have normal (value : Int) (fits : FitsInt64 value) : RationalNumber.Normal ⟨value, 1⟩ :=
    RationalNumber.normal_integer fits
  have proper (symbol : Symbol) (value : Value) (found : assignment symbol = some value) :
      value.Proper symbol.ty := by
    simp only [assignment] at found
    split_ifs at found with isNumber isTable <;> cases found
    · subst isNumber
      exact ⟨trivial, by decide, by decide, by decide, by decide⟩
    · subst isTable
      exact ⟨⟨rfl, trivial, show FitsInt64 3 by decide, trivial, trivial⟩,
        normal 1 (by decide), List.pairwise_singleton ..,
        ⟨trivial, normal 5 (by decide), by decide⟩, trivial⟩
  have constructedSum (other : RationalNumber) (normal : other.Normal) :
      (sum other).Constructed := by
    have built : mkAdd [sym number, lit (.rat other)] = .ok (sum other) := rfl
    refine .add (List.forall_mem_cons.mpr ⟨.sym number, ?_⟩) built
    exact List.forall_mem_singleton.mpr (.lit ⟨trivial, normal⟩)
  have constructedWritten : written.Constructed := by
    have built : mkWrite (sym table) (lit (.int 3)) (sum ⟨1, 2⟩) = .ok written := rfl
    have index : (Value.int 3).Proper .int := ⟨show FitsInt64 3 by decide, trivial⟩
    exact .write (.sym table) (.lit index)
      (constructedSum ⟨1, 2⟩ ⟨by decide, by decide, by decide, by decide⟩) built
  have restored : written.eval assignment = some (.constantArray .int (.rat ⟨1, 1⟩)) := by decide
  have undefined : (sum ⟨maxInt64, 1⟩).eval assignment = none := by decide
  have noLeast : ¬ (sum ⟨maxInt64, 1⟩).Contains (HasLeast assignment) := by
    rw [contains_iff]
    rintro (⟨_, evaluates, -⟩ | ⟨operand, member, contains⟩)
    · rw [undefined] at evaluates
      cases evaluates
    rw [contains_iff] at contains
    simp only [sum, children, List.mem_cons, List.not_mem_nil, or_false] at member
    rcases member with rfl | rfl <;>
      rcases contains with ⟨least, evaluates, isLeast⟩ | ⟨_, none, -⟩
    · cases evaluates
      exact absurd isLeast (by decide)
    · cases none
    · cases evaluates
      exact absurd isLeast (by decide)
    · cases none
  obtain ⟨valueProper, -⟩ := constructedWritten.eval_sound fun symbol _ => proper symbol
  obtain ⟨-, outOfRange⟩ :=
    (constructedSum ⟨maxInt64, 1⟩ (normal _ (by decide))).eval_sound fun symbol _ => proper symbol
  refine ⟨⟨restored, valueProper _ restored⟩, undefined, (outOfRange rfl ?_ undefined).1 noLeast⟩
  intro symbol occurs
  obtain rfl : symbol = number := by simpa [sum, mem_symbols_nary] using occurs
  rfl

end Expr

end AbstractionRefinement
