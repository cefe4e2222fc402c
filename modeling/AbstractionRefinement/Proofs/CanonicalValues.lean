import AbstractionRefinement.Proofs.FormulaTyping
import AbstractionRefinement.Proofs.RationalArithmetic

/-!
# Canonical values

Values are compared by their representation, so every value has one: a rational number is in
lowest terms, and an array is sorted and stores no default element.  Every operator gives
canonical values of canonical operands, hence so does evaluation.
-/

namespace AbstractionRefinement

namespace RationalNumber

variable {first second result : RationalNumber}

theorem Normal.negate (normal : first.Normal) : first.negate.Normal := by
  by_cases least : first.num = minInt64
  · have same : first.negate = first := by
      rw [RationalNumber.negate, least]
      exact congrArg (RationalNumber.mk · first.den) least.symm
    rwa [same]
  · exact (normal.toRat_negate least).1

theorem normal_of_checkedDiv (computed : first.checkedDiv second = some result) :
    result.Normal := by
  unfold checkedDiv at computed
  split at computed
  · cases computed
    exact normal_integer (by decide)
  · exact normal_of_normalize computed

end RationalNumber

namespace Value

mutual

/-- The value is the canonical representation.  That integers and bitvectors are in range is
a matter of their types. -/
def Canonical : Value → Prop
  | bool _ | int _ | bitVec .. => True
  | rat number => number.Normal
  | array _ default entries =>
      default.Canonical ∧ OrderedMap.Sorted entries ∧ EntriesCanonical default entries

/-- The indices and elements are canonical, and no element is the default. -/
def EntriesCanonical (default : Value) : List (Value × Value) → Prop
  | [] => True
  | (place, stored) :: entries =>
      (place.Canonical ∧ stored.Canonical ∧ stored ≠ default) ∧ EntriesCanonical default entries

end

/-- A canonical value of the type. -/
structure Proper (value : Value) (ty : Ty) : Prop where
  hasType : value.HasType ty
  canonical : value.Canonical

variable {array place stored result : Value}

theorem entriesCanonical_iff {default : Value} {entries : List (Value × Value)} :
    EntriesCanonical default entries ↔
      ∀ entry ∈ entries, entry.1.Canonical ∧ entry.2.Canonical ∧ entry.2 ≠ default := by
  induction entries with
  | nil => simp [EntriesCanonical]
  | cons entry entries ih => rw [EntriesCanonical, ih, List.forall_mem_cons]

theorem canonical_constantArray (index : Ty) {default : Value} (canonical : default.Canonical) :
    (constantArray index default).Canonical :=
  ⟨canonical, .nil, trivial⟩

theorem Canonical.select (canonical : array.Canonical)
    (selected : array.select place = some result) : result.Canonical := by
  cases array with
  | array index default entries =>
      obtain ⟨canonicalDefault, -, canonicalEntries⟩ := canonical
      cases selected
      cases found : OrderedMap.find? place entries with
      | none => exact canonicalDefault
      | some stored =>
          exact (entriesCanonical_iff.mp canonicalEntries _ (OrderedMap.mem_of_find? found)).2.1
  | _ => cases selected

/-- Writing the default element erases an entry, so that no entry has the default. -/
theorem Canonical.store (canonical : array.Canonical) (canonicalPlace : place.Canonical)
    (canonicalStored : stored.Canonical) (written : array.store place stored = some result) :
    result.Canonical := by
  cases array with
  | array index default entries =>
      obtain ⟨canonicalDefault, sorted, canonicalEntries⟩ := canonical
      rw [entriesCanonical_iff] at canonicalEntries
      cases written
      refine ⟨canonicalDefault, ?_⟩
      rw [entriesCanonical_iff]
      split
      case isTrue =>
        have kept := OrderedMap.sublist_erase place entries
        exact ⟨sorted.sublist kept, fun entry member => canonicalEntries entry (kept.subset member)⟩
      case isFalse differ =>
        refine ⟨sorted.insert place stored, fun entry member => ?_⟩
        rcases OrderedMap.mem_of_mem_insert member with rfl | member
        · exact ⟨canonicalPlace, canonicalStored, differ⟩
        · exact canonicalEntries entry member
  | _ => cases written

theorem canonical_map_rat {computation : Option RationalNumber}
    (normal : ∀ number, computation = some number → number.Normal)
    (computed : computation.map rat = some result) : result.Canonical := by
  obtain ⟨number, exactNumber, rfl⟩ := Option.map_eq_some_iff.mp computed
  exact normal number exactNumber

theorem canonical_map_int {computation : Option Int}
    (computed : computation.map int = some result) : result.Canonical := by
  obtain ⟨number, -, rfl⟩ := Option.map_eq_some_iff.mp computed
  trivial

theorem canonical_arithmetic {operator : BinaryOperator} {left right : Value}
    (computed : arithmetic operator left right = some result) : result.Canonical := by
  unfold arithmetic at computed
  split at computed
  case h_1 => exact canonical_map_int computed
  case h_2 =>
    split at computed
    · exact canonical_map_rat (fun _ => RationalNumber.normal_of_normalize) computed
    · exact canonical_map_rat (fun _ => RationalNumber.normal_of_checkedDiv) computed
    · cases computed
  case h_3 => cases computed

theorem canonical_accumulate {operator : NaryOperator} {left right : Value}
    (computed : accumulate operator left right = some result) : result.Canonical := by
  unfold accumulate at computed
  split at computed
  case h_1 =>
    split at computed
    · exact canonical_map_int computed
    · exact canonical_map_int computed
    · cases computed
  case h_2 =>
    split at computed
    · exact canonical_map_rat (fun _ => RationalNumber.normal_of_normalize) computed
    · exact canonical_map_rat (fun _ => RationalNumber.normal_of_normalize) computed
    · cases computed
  case h_3 => cases computed

theorem canonical_bitVecOperation {operator : BinaryOperator} {left right : Value}
    (computed : bitVecOperation operator left right = some result) : result.Canonical := by
  unfold bitVecOperation at computed
  split at computed
  case h_1 => split at computed <;> cases computed <;> trivial
  case h_2 => cases computed

end Value

/-- The value, if there is one, is canonical. -/
def OptionCanonical (value : Option Value) : Prop :=
  ∀ result, value = some result → result.Canonical

theorem optionCanonical_map_bool (truth : Option Bool) : OptionCanonical (truth.map .bool) := by
  intro result computed
  obtain ⟨truth, -, rfl⟩ := Option.map_eq_some_iff.mp computed
  trivial

theorem UnaryOperator.canonical_evaluate (operator : UnaryOperator) {value : Option Value}
    (canonical : OptionCanonical value) : OptionCanonical (operator.evaluate value) := by
  intro result computed
  cases operator with
  | prime => cases computed
  | not =>
      obtain ⟨truth, -, computed⟩ := Option.bind_eq_some_iff.mp computed
      cases computed
      trivial
  | negate =>
      simp only [UnaryOperator.evaluate] at computed
      split at computed
      case h_1 => exact Value.canonical_map_int computed
      case h_2 number =>
        cases computed
        exact RationalNumber.Normal.negate (canonical _ rfl)
      case h_3 => cases computed
  | bvNot =>
      simp only [UnaryOperator.evaluate] at computed
      split at computed
      · cases computed
        trivial
      · cases computed

theorem BinaryOperator.canonical_evaluate (operator : BinaryOperator) {first second : Option Value}
    (canonical : OptionCanonical first) : OptionCanonical (operator.evaluate first second) := by
  intro result computed
  cases operator
  case imply =>
    simp only [BinaryOperator.evaluate] at computed
    split at computed <;> cases computed <;> trivial
  case iff =>
    obtain ⟨_, _, -, -, computed⟩ := exists_of_bind₂ computed
    cases computed
    trivial
  case eq | neq =>
    obtain ⟨_, _, -, -, computed⟩ := exists_of_bind₂ computed
    cases computed
    trivial
  case lt | leq | gt | geq =>
    obtain ⟨_, _, -, -, computed⟩ := exists_of_bind₂ computed
    obtain ⟨_, -, computed⟩ := Option.bind_eq_some_iff.mp computed
    cases computed
    trivial
  case sub | div | mod =>
    obtain ⟨_, _, -, -, computed⟩ := exists_of_bind₂ computed
    exact Value.canonical_arithmetic computed
  case read =>
    obtain ⟨array, _, hasArray, -, computed⟩ := exists_of_bind₂ computed
    exact (canonical array hasArray).select computed
  case bvAnd | bvOr | bvXor | bvAdd | bvUlt =>
    obtain ⟨_, _, -, -, computed⟩ := exists_of_bind₂ computed
    exact Value.canonical_bitVecOperation computed

theorem TernaryOperator.canonical_evaluate (operator : TernaryOperator)
    {first second third : Option Value} (canonical : OptionCanonical first)
    (canonical' : OptionCanonical second) (canonical'' : OptionCanonical third) :
    OptionCanonical (operator.evaluate first second third) := by
  intro result computed
  cases operator with
  | ite =>
      simp only [TernaryOperator.evaluate] at computed
      split at computed
      · exact canonical' _ computed
      · exact canonical'' _ computed
      · obtain ⟨positive, negative, hasPositive, -, computed⟩ := exists_of_bind₂ computed
        split at computed
        · cases computed
          exact canonical' _ hasPositive
        · cases computed
  | write =>
      obtain ⟨array, hasArray, computed⟩ := Option.bind_eq_some_iff.mp computed
      obtain ⟨place, stored, hasPlace, hasStored, computed⟩ := exists_of_bind₂ computed
      exact (canonical _ hasArray).store (canonical' _ hasPlace) (canonical'' _ hasStored) computed

theorem NaryOperator.canonical_evaluate (operator : NaryOperator) {values : List (Option Value)}
    (canonical : ∀ value ∈ values, OptionCanonical value) :
    OptionCanonical (operator.evaluate values) := by
  -- The induction is on the operands that are still to be added to the total.
  have accumulated (operator : NaryOperator) (rest : List (Option Value)) (total : Option Value)
      (canonicalTotal : OptionCanonical total) :
      OptionCanonical (rest.foldl
        (fun total operand => do Value.accumulate operator (← total) (← operand)) total) := by
    induction rest generalizing total with
    | nil => exact canonicalTotal
    | cons value rest ih =>
        refine ih _ fun sum computed => ?_
        obtain ⟨_, _, -, -, computed⟩ := exists_of_bind₂ computed
        exact Value.canonical_accumulate computed
  cases operator with
  | and | or => exact optionCanonical_map_bool _
  | add | mul =>
      cases values with
      | nil => rintro _ ⟨⟩
      | cons first rest => exact accumulated _ rest first (canonical first List.mem_cons_self)

namespace Expr

mutual

/-- Every literal is canonical, and every operator has an operand. -/
def WellFormed : Expr → Prop
  | lit value => value.Canonical
  | sym _ => True
  | unary _ operand _ => operand.WellFormed
  | binary _ left right _ => left.WellFormed ∧ right.WellFormed
  | ternary _ first second third _ => first.WellFormed ∧ second.WellFormed ∧ third.WellFormed
  | nary _ operands _ => operands ≠ [] ∧ AllWellFormed operands

def AllWellFormed : List Expr → Prop
  | [] => True
  | operand :: operands => operand.WellFormed ∧ AllWellFormed operands

end

theorem allWellFormed_iff {operands : List Expr} :
    AllWellFormed operands ↔ ∀ operand ∈ operands, operand.WellFormed := by
  induction operands with
  | nil => simp [AllWellFormed]
  | cons operand operands ih => simp [AllWellFormed, ih]

/-- Under canonical values for its symbols, a formula has a canonical value. -/
theorem WellFormed.canonical_eval {assignment : Symbol → Option Value} {formula : Expr}
    (wellFormed : formula.WellFormed)
    (canonical : ∀ symbol ∈ formula.symbols, OptionCanonical (assignment symbol)) :
    OptionCanonical (formula.eval assignment) := by
  induction formula with
  | lit value =>
      rintro result ⟨⟩
      exact wellFormed
  | sym symbol => exact canonical symbol (by simp)
  | unary operator operand ty ih => exact operator.canonical_evaluate (ih wellFormed canonical)
  | binary operator left right ty ihLeft ihRight =>
      simp only [mem_symbols_binary] at canonical
      exact operator.canonical_evaluate
        (ihLeft wellFormed.1 fun symbol member => canonical symbol (.inl member))
  | ternary operator first second third ty ihFirst ihSecond ihThird =>
      obtain ⟨wellFormedFirst, wellFormedSecond, wellFormedThird⟩ := wellFormed
      simp only [mem_symbols_ternary] at canonical
      exact operator.canonical_evaluate
        (ihFirst wellFormedFirst fun symbol member => canonical symbol (.inl member))
        (ihSecond wellFormedSecond fun symbol member => canonical symbol (.inr (.inl member)))
        (ihThird wellFormedThird fun symbol member => canonical symbol (.inr (.inr member)))
  | nary operator operands ty ih =>
      rw [WellFormed, allWellFormed_iff] at wellFormed
      simp only [mem_symbols_nary] at canonical
      apply operator.canonical_evaluate
      rw [evalAll_eq_map, List.forall_mem_map]
      exact fun operand member => ih operand member (wellFormed.2 operand member)
        fun symbol occurs => canonical symbol ⟨operand, member, occurs⟩

end Expr

end AbstractionRefinement
