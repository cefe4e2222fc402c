import AbstractionRefinement.Proofs.PartialTruth

/-!
# Evaluation with partial information

A formula may have a value although some of its symbols have none.  Such a value stands:
whatever else becomes known, the formula keeps it.  This holds for each operator, hence
for whole formulas.

Next-state values are unknown to evaluation, but they are known once a formula is
unfolded.  A timeline covers both: it says which states follow one another and what
is known in each of them.
-/

namespace AbstractionRefinement

/-- What is known of the first value is known of the second. -/
def StaysKnown {α : Type} (value value' : Option α) : Prop :=
  ∀ result, value = some result → value' = some result

namespace StaysKnown

variable {α β γ : Type} {value value' : Option α} {other other' : Option β}

theorem refl (value : Option α) : StaysKnown value value :=
  fun _ known => known

theorem none (value : Option α) : StaysKnown Option.none value := by
  rintro result ⟨⟩

theorem apply (stays : StaysKnown value value') {function : Option α → Option β}
    (strict : function Option.none = Option.none) :
    StaysKnown (function value) (function value') := by
  rcases value with _ | result
  · rw [strict]
    exact none _
  · rw [stays result rfl]
    exact refl _

theorem map (stays : StaysKnown value value') (function : α → β) :
    StaysKnown (value.map function) (value'.map function) :=
  stays.apply rfl

theorem bind (stays : StaysKnown value value') {function function' : α → Option β}
    (each : ∀ result, StaysKnown (function result) (function' result)) :
    StaysKnown (value.bind function) (value'.bind function') := by
  intro result computed
  obtain ⟨argument, known, computed⟩ := Option.bind_eq_some_iff.mp computed
  exact Option.bind_eq_some_iff.mpr ⟨argument, stays argument known, each argument result computed⟩

theorem bind₂ (stays : StaysKnown value value') (stays' : StaysKnown other other')
    (operation : α → β → Option γ) :
    StaysKnown (do operation (← value) (← other)) (do operation (← value') (← other')) :=
  stays.bind fun _ => stays'.bind fun _ => refl _

theorem truthOf {value value' : Option Value} (stays : StaysKnown value value') :
    StaysKnown (truthOf value) (truthOf value') :=
  stays.bind fun _ => refl _

end StaysKnown

theorem UnaryOperator.staysKnown_evaluate (operator : UnaryOperator) {value value' : Option Value}
    (stays : StaysKnown value value') :
    StaysKnown (operator.evaluate value) (operator.evaluate value') :=
  have strict : operator.evaluate none = none := by cases operator <;> rfl
  stays.apply strict

theorem BinaryOperator.staysKnown_imply {value value' other other' : Option Value}
    (stays : StaysKnown value value') (stays' : StaysKnown other other') :
    StaysKnown (imply.evaluate value other) (imply.evaluate value' other') := by
  have stays := stays.truthOf
  have stays' := stays'.truthOf
  simp only [evaluate]
  generalize truthOf value = known at stays
  generalize truthOf other = known' at stays'
  generalize truthOf value' = later at stays
  unfold StaysKnown at *
  rcases known with _ | _ | _ <;> rcases known' with _ | _ | _ <;>
    rcases later with _ | _ | _ <;> simp_all

theorem BinaryOperator.staysKnown_evaluate (operator : BinaryOperator)
    {value value' other other' : Option Value} (stays : StaysKnown value value')
    (stays' : StaysKnown other other') :
    StaysKnown (operator.evaluate value other) (operator.evaluate value' other') := by
  cases operator
  case imply => exact staysKnown_imply stays stays'
  case iff => exact stays.truthOf.bind₂ stays'.truthOf _
  all_goals exact stays.bind₂ stays' _

theorem TernaryOperator.staysKnown_evaluate (operator : TernaryOperator)
    {first first' second second' third third' : Option Value} (stays : StaysKnown first first')
    (stays' : StaysKnown second second') (stays'' : StaysKnown third third') :
    StaysKnown (operator.evaluate first second third)
      (operator.evaluate first' second' third') := by
  cases operator with
  | write => exact stays.bind fun _ => stays'.bind₂ stays'' _
  | ite =>
      have stays := stays.truthOf
      simp only [evaluate]
      intro result computed
      cases known : truthOf first with
      | some truth =>
          rw [known] at computed
          rw [stays truth known]
          cases truth with
          | true => exact stays' result computed
          | false => exact stays'' result computed
      | none =>
          -- Without the condition both branches have the same value, so either may be chosen.
          rw [known] at computed
          obtain ⟨positive, negative, isPositive, isNegative, computed⟩ := exists_of_bind₂ computed
          split at computed
          case isFalse => cases computed
          case isTrue same =>
            subst same
            cases computed
            rw [stays' _ isPositive, stays'' _ isNegative]
            rcases truthOf first' with _ | _ | _
            · exact if_pos rfl
            · rfl
            · rfl

section Lists

variable {α : Type} {items : List α} {known known' : α → Option Bool}

theorem staysKnown_conjunction (each : ∀ item ∈ items, StaysKnown (known item) (known' item)) :
    StaysKnown (conjunction (items.map known)) (conjunction (items.map known')) := by
  intro truth decided
  cases truth with
  | false =>
      rw [conjunction_eq_false_iff, List.mem_map] at *
      obtain ⟨item, member, isFalse⟩ := decided
      exact ⟨item, member, each item member false isFalse⟩
  | true =>
      rw [conjunction_eq_true_iff, List.forall_mem_map] at *
      exact fun item member => each item member true (decided item member)

theorem staysKnown_disjunction (each : ∀ item ∈ items, StaysKnown (known item) (known' item)) :
    StaysKnown (disjunction (items.map known)) (disjunction (items.map known')) := by
  rw [disjunction_eq, disjunction_eq, List.map_map, List.map_map]
  exact (staysKnown_conjunction fun item member => (each item member).map not).map not

end Lists

theorem NaryOperator.staysKnown_evaluate (operator : NaryOperator) {α : Type} {items : List α}
    {known known' : α → Option Value}
    (each : ∀ item ∈ items, StaysKnown (known item) (known' item)) :
    StaysKnown (operator.evaluate (items.map known)) (operator.evaluate (items.map known')) := by
  -- A sum or product that is defined has only defined operands.
  have accumulated (rest : List α) (inside : ∀ item ∈ rest, StaysKnown (known item) (known' item))
      {total total' : Option Value} (stays : StaysKnown total total') :
      StaysKnown
        ((rest.map known).foldl
          (fun total operand => do Value.accumulate operator (← total) (← operand)) total)
        ((rest.map known').foldl
          (fun total operand => do Value.accumulate operator (← total) (← operand)) total') := by
    induction rest generalizing total total' with
    | nil => exact stays
    | cons item rest ih =>
        obtain ⟨first, others⟩ := List.forall_mem_cons.mp inside
        exact ih others (stays.bind₂ first _)
  cases operator
  case and | or =>
    simp only [evaluate, List.map_map]
    refine StaysKnown.map ?_ _
    first
      | exact staysKnown_conjunction fun item member => (each item member).truthOf
      | exact staysKnown_disjunction fun item member => (each item member).truthOf
  case add | mul =>
    cases items with
    | nil => exact .refl _
    | cons item rest =>
        obtain ⟨first, others⟩ := List.forall_mem_cons.mp each
        exact accumulated rest others first

/-- States that follow one another, as far as they are known, with what is known of the
symbols in each of them. -/
structure Timeline (σ : Type) where
  next : σ → Option σ
  values : σ → Symbol → Option Value

namespace Timeline

variable {σ : Type}

def present (assignment : Symbol → Option Value) : Timeline σ :=
  ⟨fun _ => none, fun _ => assignment⟩

/-- What the first timeline knows the second one knows, too. -/
structure Extends (timeline timeline' : Timeline σ) : Prop where
  next (state : σ) : StaysKnown (timeline.next state) (timeline'.next state)
  values (state : σ) (symbol : Symbol) :
    StaysKnown (timeline.values state symbol) (timeline'.values state symbol)

/-- The values of symbols are of their types. -/
def Typed (timeline : Timeline σ) : Prop :=
  ∀ state symbol, OptionHasType (timeline.values state symbol) symbol.ty

theorem extends_of_nothing (timeline : Timeline σ) :
    (present fun _ => none).Extends timeline :=
  ⟨fun _ => .none _, fun _ _ => .none _⟩

theorem extends_present {assignment assignment' : Symbol → Option Value}
    (stays : ∀ symbol, StaysKnown (assignment symbol) (assignment' symbol)) :
    (present (σ := σ) assignment).Extends (present assignment') :=
  ⟨fun _ => .refl _, fun _ => stays⟩

end Timeline

namespace Expr

variable {σ : Type}

mutual

/-- The value of a formula in a state of a timeline; priming moves to the next state. -/
def evalIn (timeline : Timeline σ) (state : σ) : Expr → Option Value
  | lit value => some value
  | sym symbol => timeline.values state symbol
  | unary .prime operand _ =>
      (timeline.next state).bind fun later => operand.evalIn timeline later
  | unary operator operand _ => operator.evaluate (operand.evalIn timeline state)
  | binary operator left right _ =>
      operator.evaluate (left.evalIn timeline state) (right.evalIn timeline state)
  | ternary operator first second third _ =>
      operator.evaluate (first.evalIn timeline state) (second.evalIn timeline state)
        (third.evalIn timeline state)
  | nary operator operands _ => operator.evaluate (evalAllIn timeline state operands)

/-- The values of several formulas in a state of a timeline. -/
def evalAllIn (timeline : Timeline σ) (state : σ) : List Expr → List (Option Value)
  | [] => []
  | operand :: operands => operand.evalIn timeline state :: evalAllIn timeline state operands

end

variable {timeline timeline' : Timeline σ} {state : σ}

theorem evalAllIn_eq_map (operands : List Expr) :
    evalAllIn timeline state operands = operands.map (evalIn timeline state) := by
  induction operands with
  | nil => rfl
  | cons operand operands ih => rw [evalAllIn, ih, List.map_cons]

theorem eval_eq_evalIn (assignment : Symbol → Option Value) (formula : Expr) (state : σ) :
    formula.eval assignment = formula.evalIn (.present assignment) state := by
  induction formula with
  | lit value => rfl
  | sym symbol => rfl
  | unary operator operand ty ih =>
      rw [eval, ih]
      cases operator <;> rfl
  | binary operator left right ty ihLeft ihRight => rw [eval, evalIn, ihLeft, ihRight]
  | ternary operator first second third ty ihFirst ihSecond ihThird =>
      rw [eval, evalIn, ihFirst, ihSecond, ihThird]
  | nary operator operands ty ih =>
      rw [eval, evalIn, evalAll_eq_map, evalAllIn_eq_map, List.map_congr_left ih]

/-- A value stands whatever else becomes known. -/
theorem staysKnown_evalIn (formula : Expr) (more : timeline.Extends timeline') (state : σ) :
    StaysKnown (formula.evalIn timeline state) (formula.evalIn timeline' state) := by
  induction formula generalizing state with
  | lit value => exact .refl _
  | sym symbol => exact more.values state symbol
  | unary operator operand ty ih =>
      cases operator with
      | prime => exact (more.next state).bind ih
      | _ => exact UnaryOperator.staysKnown_evaluate _ (ih state)
  | binary operator left right ty ihLeft ihRight =>
      exact operator.staysKnown_evaluate (ihLeft state) (ihRight state)
  | ternary operator first second third ty ihFirst ihSecond ihThird =>
      exact operator.staysKnown_evaluate (ihFirst state) (ihSecond state) (ihThird state)
  | nary operator operands ty ih =>
      rw [evalIn, evalIn, evalAllIn_eq_map, evalAllIn_eq_map]
      exact operator.staysKnown_evaluate fun operand member => ih operand member state

theorem evalIn_of_constantValue {formula : Expr} {value : Value}
    (constant : formula.constantValue = some value) (timeline : Timeline σ) (state : σ) :
    formula.evalIn timeline state = some value := by
  rw [constantValue, eval_eq_evalIn _ _ state] at constant
  exact formula.staysKnown_evalIn timeline.extends_of_nothing state value constant

theorem staysKnown_eval (formula : Expr) {assignment assignment' : Symbol → Option Value}
    (stays : ∀ symbol, StaysKnown (assignment symbol) (assignment' symbol)) :
    StaysKnown (formula.eval assignment) (formula.eval assignment') := by
  rw [eval_eq_evalIn assignment formula (), eval_eq_evalIn assignment' formula ()]
  exact formula.staysKnown_evalIn (Timeline.extends_present stays) ()

/-- In a timeline of typed values, the value of a well-typed formula has its type. -/
theorem WellTyped.hasType_evalIn {formula : Expr} (wellTyped : formula.WellTyped)
    (typed : timeline.Typed) (state : σ) :
    OptionHasType (formula.evalIn timeline state) formula.ty := by
  induction formula generalizing state with
  | lit value =>
      rintro result ⟨⟩
      exact wellTyped
  | sym symbol => exact typed state symbol
  | unary operator operand ty ih =>
      have types := wellTyped.1
      cases operator with
      | prime =>
          intro result computed
          rw [evalIn] at computed
          obtain ⟨later, -, computed⟩ := Option.bind_eq_some_iff.mp computed
          obtain rfl : ty = operand.ty := types
          exact ih wellTyped.2 later result computed
      | _ => exact types.hasType_evaluate (ih wellTyped.2 state)
  | binary operator left right ty ihLeft ihRight =>
      obtain ⟨types, wellTypedLeft, wellTypedRight⟩ := wellTyped
      exact types.hasType_evaluate (ihLeft wellTypedLeft state) (ihRight wellTypedRight state)
  | ternary operator first second third ty ihFirst ihSecond ihThird =>
      obtain ⟨types, wellTypedFirst, wellTypedSecond, wellTypedThird⟩ := wellTyped
      exact types.hasType_evaluate (ihFirst wellTypedFirst state) (ihSecond wellTypedSecond state)
        (ihThird wellTypedThird state)
  | nary operator operands ty ih =>
      obtain ⟨types, wellTypedAll⟩ := wellTyped
      rw [evalIn, evalAllIn_eq_map]
      apply types.hasType_evaluate
      rw [List.forall_mem_map]
      intro operand member
      exact ⟨operand.ty, List.mem_map_of_mem member,
        ih operand member (allWellTyped_iff.mp wellTypedAll operand member) state⟩

end Expr

end AbstractionRefinement
