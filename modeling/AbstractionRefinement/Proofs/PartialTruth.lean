import AbstractionRefinement.Proofs.FormulaTyping

/-!
# Partial truth tables

Evaluation decides a connective as soon as the known operands decide it.  This file
says when a truth value agrees with a partially known one, and shows that each
connective respects agreement.
-/

namespace AbstractionRefinement

/-- The truth value is the known one, if one is known. -/
def Refines (truth : Bool) (known : Option Bool) : Prop :=
  ∀ truth', known = some truth' → truth = truth'

theorem Refines.not {truth : Bool} {value : Option Value} (refines : Refines truth (truthOf value)) :
    Refines (!truth) (truthOf (UnaryOperator.not.evaluate value)) := by
  unfold Refines UnaryOperator.evaluate at *
  cases known : truthOf value <;> simp_all [truthOf, Value.asBool]

section Binary

variable {truth truth' : Bool} {value value' : Option Value}
  (refines : Refines truth (truthOf value)) (refines' : Refines truth' (truthOf value'))
include refines refines'

theorem refines_imply :
    Refines (!truth || truth') (truthOf (BinaryOperator.imply.evaluate value value')) := by
  simp only [BinaryOperator.evaluate]
  generalize truthOf value = known at refines
  generalize truthOf value' = known' at refines'
  unfold Refines at *
  rcases known with _ | _ | _ <;> rcases known' with _ | _ | _ <;>
    simp_all [truthOf, Value.asBool]

theorem refines_iff :
    Refines (truth == truth') (truthOf (BinaryOperator.iff.evaluate value value')) := by
  have table : truthOf (BinaryOperator.iff.evaluate value value') =
      (truthOf value).bind fun known => (truthOf value').map (known == ·) := by
    simp only [BinaryOperator.evaluate]
    cases truthOf value <;> cases truthOf value' <;> rfl
  rw [table]
  generalize truthOf value = known at refines
  generalize truthOf value' = known' at refines'
  unfold Refines at *
  rcases known with _ | _ | _ <;> rcases known' with _ | _ | _ <;> simp_all

end Binary

theorem evaluate_eq_of_bool {value value' : Option Value}
    (boolean : OptionHasType value .bool) (boolean' : OptionHasType value' .bool) :
    BinaryOperator.eq.evaluate value value' = BinaryOperator.iff.evaluate value value' := by
  rcases value with _ | value
  · rfl
  rcases value' with _ | value'
  · obtain ⟨truth, rfl⟩ := (boolean value rfl).exists_bool
    rfl
  obtain ⟨truth, rfl⟩ := (boolean value rfl).exists_bool
  obtain ⟨truth', rfl⟩ := (boolean' value' rfl).exists_bool
  cases truth <;> cases truth' <;> rfl

theorem evaluate_neq (value value' : Option Value) :
    BinaryOperator.neq.evaluate value value' =
      UnaryOperator.not.evaluate (BinaryOperator.eq.evaluate value value') := by
  rcases value with _ | value <;> rcases value' with _ | value' <;> try rfl
  by_cases same : value = value' <;>
    simp [BinaryOperator.evaluate, UnaryOperator.evaluate, truthOf, Value.asBool, same]

theorem conjunction_eq_false_iff {truths : List (Option Bool)} :
    conjunction truths = some false ↔ some false ∈ truths := by
  unfold conjunction
  split
  case isTrue => simp_all
  case isFalse absent => split <;> simp_all

theorem conjunction_eq_true_iff {truths : List (Option Bool)} :
    conjunction truths = some true ↔ ∀ truth ∈ truths, truth = some true := by
  unfold conjunction
  simp only [List.contains_iff_mem]
  split
  case isTrue present =>
    simp only [Option.some.injEq, Bool.false_eq_true, false_iff, not_forall]
    exact ⟨_, present, by simp⟩
  case isFalse absent =>
    split
    case isTrue present =>
      simp only [reduceCtorEq, false_iff, not_forall]
      exact ⟨_, present, by simp⟩
    case isFalse absent' =>
      simp only [true_iff]
      intro truth member
      rcases truth with _ | _ | _
      · exact absurd member absent'
      · exact absurd member absent
      · rfl

theorem refines_conjunction_cons {truth truth' : Bool} {known : Option Bool}
    {others : List (Option Bool)} (refines : Refines truth known)
    (refines' : Refines truth' (conjunction others)) :
    Refines (truth && truth') (conjunction (known :: others)) := by
  unfold Refines at *
  intro result decided
  cases result with
  | false =>
      rw [conjunction_eq_false_iff, List.mem_cons] at decided
      rcases decided with here | later
      · rw [refines false here.symm, Bool.false_and]
      · rw [refines' false (conjunction_eq_false_iff.mpr later), Bool.and_false]
  | true =>
      rw [conjunction_eq_true_iff, List.forall_mem_cons] at decided
      rw [refines true decided.1, refines' true (conjunction_eq_true_iff.mpr decided.2),
        Bool.and_true]

theorem refines_conjunction {α : Type} {items : List α} {truth : α → Bool}
    {known : α → Option Bool} (each : ∀ item ∈ items, Refines (truth item) (known item)) :
    Refines (items.all truth) (conjunction (items.map known)) := by
  induction items with
  | nil => exact fun _ => Option.some.inj
  | cons item items ih =>
      obtain ⟨first, rest⟩ := List.forall_mem_cons.mp each
      exact refines_conjunction_cons first (ih rest)

/-- A disjunction is the negated conjunction of the negations. -/
theorem disjunction_eq (truths : List (Option Bool)) :
    disjunction truths = (conjunction (truths.map (Option.map not))).map not := by
  have negated {truth : Bool} : some truth ∈ truths.map (Option.map not) ↔
      some (!truth) ∈ truths := by
    simp only [List.mem_map, Option.map_eq_some_iff]
    constructor
    · rintro ⟨_, member, truth', rfl, rfl⟩
      simpa using member
    · intro member
      exact ⟨_, member, !truth, rfl, by simp⟩
  have undefined : none ∈ truths.map (Option.map not) ↔ none ∈ truths := by simp
  unfold disjunction conjunction
  simp only [List.contains_iff_mem, negated, undefined, Bool.not_false]
  split
  · rfl
  · split <;> rfl

theorem refines_disjunction_cons {truth truth' : Bool} {known : Option Bool}
    {others : List (Option Bool)} (refines : Refines truth known)
    (refines' : Refines truth' (disjunction others)) :
    Refines (truth || truth') (disjunction (known :: others)) := by
  rw [disjunction_eq] at *
  have negated : Refines (!truth) (known.map not) := by
    rintro result decided
    obtain ⟨truth'', rfl, rfl⟩ := Option.map_eq_some_iff.mp decided
    rw [refines truth'' rfl]
  have negated' : Refines (!truth') (conjunction (others.map (Option.map not))) := by
    intro result decided
    rw [refines' (!result) (by rw [decided]; rfl), Bool.not_not]
  intro result decided
  obtain ⟨result', decided', rfl⟩ := Option.map_eq_some_iff.mp decided
  have both := refines_conjunction_cons negated negated' result' decided'
  rw [← both]
  cases truth <;> cases truth' <;> rfl

theorem refines_disjunction {α : Type} {items : List α} {truth : α → Bool}
    {known : α → Option Bool} (each : ∀ item ∈ items, Refines (truth item) (known item)) :
    Refines (items.any truth) (disjunction (items.map known)) := by
  induction items with
  | nil => exact fun _ => Option.some.inj
  | cons item items ih =>
      obtain ⟨first, rest⟩ := List.forall_mem_cons.mp each
      exact refines_disjunction_cons first (ih rest)

namespace Expr

variable {assignment : Symbol → Option Value} {operands : List Expr} {ty : Ty}

theorem evalBool_not (operand : Expr) : (unary .not operand ty).evalBool assignment =
    (operand.evalBool assignment).map not := by
  rw [evalBool, eval, evalBool]
  unfold UnaryOperator.evaluate
  cases truthOf (operand.eval assignment) <;> rfl

theorem evalBool_and : (nary .and operands ty).evalBool assignment =
    conjunction (operands.map (evalBool assignment)) := by
  rw [evalBool, eval, evalAll_eq_map, NaryOperator.evaluate, List.map_map]
  show truthOf ((conjunction (operands.map (evalBool assignment))).map Value.bool) = _
  cases conjunction (operands.map (evalBool assignment)) <;> rfl

theorem evalBool_or : (nary .or operands ty).evalBool assignment =
    disjunction (operands.map (evalBool assignment)) := by
  rw [evalBool, eval, evalAll_eq_map, NaryOperator.evaluate, List.map_map]
  show truthOf ((disjunction (operands.map (evalBool assignment))).map Value.bool) = _
  cases disjunction (operands.map (evalBool assignment)) <;> rfl

end Expr

namespace BinaryOperator

theorem truthOf_eq (first second : Int) :
    truthOf (eq.evaluate (some (.int first)) (some (.int second))) =
      some (decide (first = second)) := by
  simp [evaluate, truthOf, Value.asBool]

theorem truthOf_lt (first second : Int) :
    truthOf (lt.evaluate (some (.int first)) (some (.int second))) =
      some (decide (first < second)) := by
  simp [evaluate, truthOf, Value.compareNumeric, Value.relates, Value.asBool, compare_lt_iff_lt]

theorem truthOf_leq (first second : Int) :
    truthOf (leq.evaluate (some (.int first)) (some (.int second))) =
      some (decide (first ≤ second)) := by
  simp [evaluate, truthOf, Value.compareNumeric, Value.relates, Value.asBool, compare_gt_iff_gt]
  exact (decide_eq_decide.mpr Int.not_le.symm).trans decide_not

end BinaryOperator

end AbstractionRefinement
