import AbstractionRefinement.Proofs.FormulaAtoms
import AbstractionRefinement.Proofs.FormulaSimplification
import AbstractionRefinement.Proofs.PredicateAbstractions

/-!
# Atoms decide formulas

A well-typed Boolean formula is built from its atoms with connectives.  Negations,
equivalences between truth values and choices between truth values count as connectives,
and a disequality of other values is the negation of an atom.  So the truth values of the
atoms determine that of the formula, undefined ones included, and a formula whose atoms are
all defined is defined.

Atoms are neither negations nor constants.  So the precision of the atoms tracks all of
them, and a predicate state that decides the tracked predicates decides the formula.
-/

namespace AbstractionRefinement

namespace Expr

/-- A Boolean formula that is neither a negation nor a constant. -/
structure IsAtom (formula : Expr) : Prop where
  wellTyped : formula.WellTyped
  boolean : formula.ty = .bool
  positive : ∀ operand ty, formula ≠ .unary .not operand ty
  notLiteral : formula.asLiteral = none

/-- The operator combines truth values if its operands are Boolean. -/
def Connects (operator : BinaryOperator) : Prop :=
  operator = .imply ∨ operator = .iff ∨ operator = .eq ∨ operator = .neq

/-- How a Boolean formula is built from its atoms. -/
inductive Skeleton : Expr → Prop
  | constant (truth : Bool) : Skeleton (lit (.bool truth))
  | atom {formula} : formula.IsAtom → formula.atoms = [formula] → Skeleton formula
  | unequal {left right ty} : (binary .eq left right .bool).IsAtom →
      (binary .neq left right ty).atoms = [binary .eq left right .bool] →
      Skeleton (binary .neq left right ty)
  | not {operand ty} : Skeleton operand → Skeleton (unary .not operand ty)
  | binary {operator left right ty} : Connects operator → left.ty = .bool →
      Skeleton left → Skeleton right → Skeleton (binary operator left right ty)
  | choice {condition positive negative ty} : positive.ty = .bool →
      Skeleton condition → Skeleton positive → Skeleton negative →
      Skeleton (ternary .ite condition positive negative ty)
  | nary {operator operands ty} : operator = .and ∨ operator = .or →
      (∀ operand ∈ operands, Skeleton operand) → Skeleton (nary operator operands ty)

variable {atom formula left right condition positive negative : Expr} {operands : List Expr}
  {ty : Ty}

theorem mem_atoms_binary {operator : BinaryOperator} (connects : Connects operator)
    (boolean : left.ty = .bool) : atom ∈ (binary operator left right ty).atoms ↔
      atom ∈ left.atoms ∨ atom ∈ right.atoms := by
  have isBool : left.ty.isBool := Ty.isBool_iff.mpr boolean
  have adds : (binary operator left right ty).atoms = right.collectAtoms left.atoms := by
    rcases connects with rfl | rfl | rfl | rfl <;> simp [atoms, collectAtoms, isBool]
  rw [adds, mem_collectAtoms]

theorem mem_atoms_ite (boolean : positive.ty = .bool) :
    atom ∈ (ternary .ite condition positive negative ty).atoms ↔
      atom ∈ condition.atoms ∨ atom ∈ positive.atoms ∨ atom ∈ negative.atoms := by
  have isBool : positive.ty.isBool := Ty.isBool_iff.mpr boolean
  have adds : (ternary .ite condition positive negative ty).atoms =
      negative.collectAtoms (positive.collectAtoms condition.atoms) := by
    simp [atoms, collectAtoms, isBool]
  rw [adds, mem_collectAtoms, mem_collectAtoms, or_assoc]

/-- Every well-typed Boolean formula is built from atoms. -/
theorem WellTyped.skeleton (wellTyped : formula.WellTyped) (boolean : formula.ty = .bool) :
    formula.Skeleton := by
  induction formula with
  | lit value =>
      have typed : value.HasType value.ty := wellTyped
      rw [show value.ty = .bool from boolean] at typed
      obtain ⟨truth, rfl⟩ := typed.exists_bool
      exact .constant truth
  | sym symbol => exact .atom ⟨wellTyped, boolean, by simp, rfl⟩ rfl
  | unary operator operand ty ih =>
      cases operator with
      | not => exact .not (ih wellTyped.2 wellTyped.1.1)
      | _ => exact .atom ⟨wellTyped, boolean, by simp, rfl⟩ (by simp [atoms, collectAtoms]; rfl)
  | binary operator left right ty ihLeft ihRight =>
      obtain ⟨types, wellTypedLeft, wellTypedRight⟩ := wellTyped
      cases operator with
      | imply =>
          exact .binary (.inl rfl) types.1 (ihLeft wellTypedLeft types.1)
            (ihRight wellTypedRight types.2.1)
      | iff =>
          exact .binary (.inr (.inl rfl)) types.1 (ihLeft wellTypedLeft types.1)
            (ihRight wellTypedRight types.2.1)
      | eq =>
          by_cases isBool : left.ty.isBool
          · have booleanLeft := Ty.isBool_iff.mp isBool
            exact .binary (.inr (.inr (.inl rfl))) booleanLeft (ihLeft wellTypedLeft booleanLeft)
              (ihRight wellTypedRight (types.1.trans booleanLeft))
          · exact .atom ⟨⟨types, wellTypedLeft, wellTypedRight⟩, boolean, by simp, rfl⟩
              (by simp [atoms, collectAtoms, isBool]; rfl)
      | neq =>
          by_cases isBool : left.ty.isBool
          · have booleanLeft := Ty.isBool_iff.mp isBool
            exact .binary (.inr (.inr (.inr rfl))) booleanLeft (ihLeft wellTypedLeft booleanLeft)
              (ihRight wellTypedRight (types.1.trans booleanLeft))
          · exact .unequal ⟨⟨⟨types.1, rfl⟩, wellTypedLeft, wellTypedRight⟩, rfl, by simp, rfl⟩
              (by simp [atoms, collectAtoms, isBool]; rfl)
      | _ =>
          exact .atom ⟨⟨types, wellTypedLeft, wellTypedRight⟩, boolean, by simp, rfl⟩
            (by simp [atoms, collectAtoms]; rfl)
  | ternary operator first second third ty ihFirst ihSecond ihThird =>
      obtain ⟨types, wellTypedFirst, wellTypedSecond, wellTypedThird⟩ := wellTyped
      cases operator with
      | ite =>
          have booleanSecond : second.ty = .bool := types.2.2.symm.trans boolean
          exact .choice booleanSecond (ihFirst wellTypedFirst types.1)
            (ihSecond wellTypedSecond booleanSecond)
            (ihThird wellTypedThird (types.2.1.trans booleanSecond))
      | write =>
          exact .atom ⟨⟨types, wellTypedFirst, wellTypedSecond, wellTypedThird⟩, boolean,
            by simp, rfl⟩ (by simp [atoms, collectAtoms]; rfl)
  | nary operator operands ty ih =>
      obtain ⟨types, wellTypedAll⟩ := wellTyped
      have each (booleans : ∀ operand ∈ operands.map Expr.ty, operand = .bool) :
          ∀ operand ∈ operands, operand.Skeleton := fun operand member =>
        ih operand member (allWellTyped_iff.mp wellTypedAll operand member)
          (booleans _ (List.mem_map_of_mem member))
      cases operator with
      | and => exact .nary (.inl rfl) (each types.2)
      | or => exact .nary (.inr rfl) (each types.2)
      | _ =>
          exact .atom ⟨⟨types, wellTypedAll⟩, boolean, by simp, rfl⟩
            (by simp [atoms, collectAtoms]; rfl)

theorem mem_atoms_nary {operator : NaryOperator} (connects : operator = .and ∨ operator = .or) :
    atom ∈ (nary operator operands ty).atoms ↔ ∃ operand ∈ operands, atom ∈ operand.atoms := by
  rcases connects with rfl | rfl
  · exact mem_atoms_and
  · exact mem_atoms_or

theorem Skeleton.isAtom (skeleton : formula.Skeleton) (member : atom ∈ formula.atoms) :
    atom.IsAtom := by
  induction skeleton with
  | constant truth => simp [atoms, collectAtoms] at member
  | atom isAtom itself =>
      rw [itself, List.mem_singleton] at member
      exact member ▸ isAtom
  | unequal isAtom equality =>
      rw [equality, List.mem_singleton] at member
      exact member ▸ isAtom
  | not _ ih => exact ih (mem_atoms_not.mp member)
  | binary connects boolean _ _ ihLeft ihRight =>
      exact ((mem_atoms_binary connects boolean).mp member).elim ihLeft ihRight
  | choice boolean _ _ _ ihCondition ihPositive ihNegative =>
      rcases (mem_atoms_ite boolean).mp member with inCondition | inPositive | inNegative
      · exact ihCondition inCondition
      · exact ihPositive inPositive
      · exact ihNegative inNegative
  | nary connects _ ih =>
      obtain ⟨operand, isOperand, inOperand⟩ := (mem_atoms_nary connects).mp member
      exact ih operand isOperand inOperand

section Values

variable {assignment assignment' : Symbol → Option Value}

theorem IsAtom.eval_eq (isAtom : atom.IsAtom)
    (typed : ∀ symbol, OptionHasType (assignment symbol) symbol.ty) :
    atom.eval assignment = (atom.evalBool assignment).map .bool := by
  cases evaluates : atom.eval assignment with
  | none => rw [evalBool, evaluates]; rfl
  | some value =>
      obtain ⟨truth, rfl, known⟩ :=
        isAtom.wellTyped.exists_bool isAtom.boolean (fun symbol _ => typed symbol) evaluates
      rw [known]
      rfl

/-- Atoms of the same values give the formula the same value. -/
theorem Skeleton.eval_congr (skeleton : formula.Skeleton)
    (same : ∀ atom ∈ formula.atoms, atom.eval assignment = atom.eval assignment') :
    formula.eval assignment = formula.eval assignment' := by
  induction skeleton with
  | constant truth => rfl
  | atom isAtom itself => exact same _ (itself ▸ List.mem_singleton_self _)
  | unequal isAtom equality =>
      have sameEquality := same _ (equality ▸ List.mem_singleton_self _)
      rw [eval, eval] at sameEquality
      rw [eval, eval, evaluate_neq, evaluate_neq, sameEquality]
  | not _ ih => rw [eval, eval, ih fun atom member => same atom (mem_atoms_not.mpr member)]
  | binary connects boolean _ _ ihLeft ihRight =>
      simp only [mem_atoms_binary connects boolean, or_imp, forall_and] at same
      rw [eval, eval, ihLeft same.1, ihRight same.2]
  | choice boolean _ _ _ ihCondition ihPositive ihNegative =>
      simp only [mem_atoms_ite boolean, or_imp, forall_and] at same
      rw [eval, eval, ihCondition same.1, ihPositive same.2.1, ihNegative same.2.2]
  | nary connects _ ih =>
      rw [eval, eval, evalAll_eq_map, evalAll_eq_map]
      congr 1
      refine List.map_congr_left fun operand isOperand => ih operand isOperand ?_
      exact fun atom member => same atom ((mem_atoms_nary connects).mpr ⟨operand, isOperand, member⟩)

/-- Connectives of known truth values are known. -/
theorem Skeleton.exists_truth (skeleton : formula.Skeleton)
    (known : ∀ atom ∈ formula.atoms, ∃ truth, atom.eval assignment = some (.bool truth)) :
    ∃ truth, formula.eval assignment = some (.bool truth) := by
  induction skeleton with
  | constant truth => exact ⟨truth, rfl⟩
  | atom isAtom itself => exact known _ (itself ▸ List.mem_singleton_self _)
  | unequal isAtom equality =>
      obtain ⟨truth, evaluates⟩ := known _ (equality ▸ List.mem_singleton_self _)
      rw [eval] at evaluates
      rw [eval, evaluate_neq, evaluates]
      exact ⟨!truth, rfl⟩
  | not _ ih =>
      obtain ⟨truth, evaluates⟩ := ih fun atom member => known atom (mem_atoms_not.mpr member)
      rw [eval, evaluates]
      exact ⟨!truth, rfl⟩
  | binary connects boolean _ _ ihLeft ihRight =>
      simp only [mem_atoms_binary connects boolean, or_imp, forall_and] at known
      obtain ⟨truth, evaluates⟩ := ihLeft known.1
      obtain ⟨truth', evaluates'⟩ := ihRight known.2
      rw [eval, evaluates, evaluates']
      rcases connects with rfl | rfl | rfl | rfl
      · cases truth <;> cases truth' <;> exact ⟨_, rfl⟩
      · exact ⟨truth == truth', rfl⟩
      · exact ⟨_, rfl⟩
      · exact ⟨_, rfl⟩
  | choice boolean _ _ _ ihCondition ihPositive ihNegative =>
      simp only [mem_atoms_ite boolean, or_imp, forall_and] at known
      obtain ⟨truth, evaluates⟩ := ihCondition known.1
      rw [eval, evaluates]
      cases truth with
      | true => exact ihPositive known.2.1
      | false => exact ihNegative known.2.2
  | @nary operator operands ty connects _ ih =>
      have each : ∀ value ∈ (evalAll assignment operands).map truthOf, value ≠ none := by
        rw [evalAll_eq_map, List.map_map]
        refine List.forall_mem_map.mpr fun operand isOperand => ?_
        obtain ⟨truth, evaluates⟩ := ih operand isOperand fun atom member =>
          known atom ((mem_atoms_nary connects).mpr ⟨operand, isOperand, member⟩)
        rw [Function.comp_apply, evaluates]
        rintro ⟨⟩
      have complete : none ∉ (evalAll assignment operands).map truthOf :=
        fun member => each _ member rfl
      rw [eval]
      rcases connects with rfl | rfl
      · rw [NaryOperator.evaluate, conjunction]
        split
        · exact ⟨false, rfl⟩
        · simp [complete]
      · rw [NaryOperator.evaluate, disjunction]
        split
        · exact ⟨true, rfl⟩
        · simp [complete]

end Values

theorem IsAtom.stripNegations_eq (isAtom : atom.IsAtom) : atom.stripNegations = atom := by
  cases atom with
  | unary operator operand ty =>
      cases operator with
      | not => exact absurd rfl (isAtom.positive operand ty)
      | _ => rfl
  | _ => rfl

end Expr

namespace PredicateState

/-- In all well-typed valuations that satisfy the state the formula has the same truth
value. -/
def Determines (state : PredicateState) (formula : Expr) : Prop :=
  ∃ truth, ∀ valuation : Valuation, valuation.WellTyped →
    (ExprState.toExpr state).evalBool valuation.get? = some true →
      formula.evalBool valuation.get? = some truth

/-- Where a cube is satisfied, a predicate has the truth value of its literal. -/
theorem evalBool_of_signed {literals : List Expr} {predicate : Expr} {truth : Bool}
    {assignment : Symbol → Option Value} (member : signed predicate truth ∈ literals)
    (satisfied : (ExprState.toExpr (cube literals)).evalBool assignment = some true) :
    predicate.evalBool assignment = some truth := by
  rcases toExpr_cases literals with bottom | ⟨isConjunction, -⟩
  · rw [bottom] at satisfied
    cases satisfied
  · have holds := (isConjunction.evalBool_iff assignment).mp satisfied _ member
    cases truth with
    | true => exact holds
    | false =>
        rw [signed, Expr.evalBool_not, Option.map_eq_some_iff] at holds
        obtain ⟨truth, evaluates, negated⟩ := holds
        rw [evaluates, ← Bool.not_not truth, negated]
        rfl

theorem determines_of_signed {literals : List Expr} {predicate : Expr} {truth : Bool}
    (member : signed predicate truth ∈ literals) : (cube literals).Determines predicate :=
  ⟨truth, fun _ _ => evalBool_of_signed member⟩

end PredicateState

namespace Expr

variable {formula : Expr} {state : PredicateState}

theorem Skeleton.mem_ofList_atoms (skeleton : formula.Skeleton) {predicate : Expr} :
    predicate ∈ (PredicatePrecision.ofList formula.atoms).predicates ↔
      predicate ∈ formula.atoms := by
  have stripped : formula.atoms.map stripNegations = formula.atoms :=
    (List.map_congr_left fun atom member => (skeleton.isAtom member).stripNegations_eq).trans
      (List.map_id' _)
  rw [PredicatePrecision.ofList, OrderedSet.mem_ofList, stripped, List.mem_filter]
  refine and_iff_left_of_imp fun member => ?_
  rw [(skeleton.isAtom member).notLiteral]
  rfl

/-- A state that determines all atoms determines the formula. -/
theorem Skeleton.determines (skeleton : formula.Skeleton)
    (each : ∀ atom ∈ formula.atoms, state.Determines atom) : state.Determines formula := by
  by_cases satisfiable : ∃ valuation : Valuation, valuation.WellTyped ∧
      (ExprState.toExpr state).evalBool valuation.get? = some true
  case neg =>
    exact ⟨true, fun valuation wellTyped satisfied =>
      absurd ⟨valuation, wellTyped, satisfied⟩ satisfiable⟩
  case pos =>
    obtain ⟨valuation, wellTyped, satisfied⟩ := satisfiable
    have known : ∀ atom ∈ formula.atoms, ∃ truth,
        atom.eval valuation.get? = some (.bool truth) := by
      intro atom member
      obtain ⟨truth, determined⟩ := each atom member
      refine ⟨truth, ?_⟩
      rw [(skeleton.isAtom member).eval_eq wellTyped.optionHasType,
        determined valuation wellTyped satisfied]
      rfl
    obtain ⟨truth, evaluates⟩ := skeleton.exists_truth known
    refine ⟨truth, fun valuation' wellTyped' satisfied' => ?_⟩
    have same : formula.eval valuation'.get? = formula.eval valuation.get? := by
      refine skeleton.eval_congr fun atom member => ?_
      obtain ⟨truth, determined⟩ := each atom member
      rw [(skeleton.isAtom member).eval_eq wellTyped.optionHasType,
        (skeleton.isAtom member).eval_eq wellTyped'.optionHasType,
        determined valuation wellTyped satisfied, determined valuation' wellTyped' satisfied']
    rw [evalBool, same, evaluates]
    rfl

/-- Atoms determine a formula.  The precision of the atoms tracks all of them, and a
predicate state that determines the tracked predicates, as each cube does that contains all
of them or their negations, determines the formula. -/
theorem WellTyped.atoms_determine (wellTyped : formula.WellTyped)
    (boolean : formula.ty = .bool) :
    (∀ valuation valuation' : Valuation, valuation.WellTyped → valuation'.WellTyped →
      (∀ atom ∈ formula.atoms, atom.evalBool valuation.get? = atom.evalBool valuation'.get?) →
        formula.evalBool valuation.get? = formula.evalBool valuation'.get?) ∧
    (∀ state : PredicateState,
      (∀ predicate ∈ (PredicatePrecision.ofList formula.atoms).predicates,
        state.Determines predicate) → state.Determines formula) ∧
    ∀ state : PredicateState, state.DecidesAll (.ofList formula.atoms) →
      state.Determines formula := by
  have skeleton := wellTyped.skeleton boolean
  have decided (state : PredicateState)
      (each : ∀ predicate ∈ (PredicatePrecision.ofList formula.atoms).predicates,
        state.Determines predicate) : state.Determines formula :=
    skeleton.determines fun atom member => each atom (skeleton.mem_ofList_atoms.mpr member)
  refine ⟨?_, decided, ?_⟩
  · intro valuation valuation' typed typed' same
    refine congrArg truthOf (skeleton.eval_congr fun atom member => ?_)
    rw [(skeleton.isAtom member).eval_eq typed.optionHasType,
      (skeleton.isAtom member).eval_eq typed'.optionHasType, same atom member]
  · rintro state ⟨literals, rfl, each⟩
    refine decided _ fun predicate member => ?_
    obtain ⟨truth, isLiteral⟩ := each predicate member
    exact PredicateState.determines_of_signed isLiteral

/-- Unless the amount is three, the first flag decides whether the second one is false or
equal to it. -/
def guardedFlags : Expr :=
  .binary .imply (.binary .neq (.sym Session.amount) (.ofInt 3) .bool)
    (.ternary .ite Session.flag (.unary .not (.sym ⟨⟨"other", .bool⟩, none⟩) .bool)
      (.binary .eq Session.flag (.sym ⟨⟨"other", .bool⟩, none⟩) .bool) .bool) .bool

/-- The formula does not tell amounts other than three apart, and a cube over its three atoms
determines it. -/
theorem guardedFlags_determined : guardedFlags.WellTyped ∧ guardedFlags.ty = .bool ∧
    guardedFlags.evalBool (Valuation.ofList [(Session.amount, .int 4)]).get? =
      guardedFlags.evalBool (Valuation.ofList [(Session.amount, .int 5)]).get? ∧
    (PredicateState.cube [Session.flag, .sym ⟨⟨"other", .bool⟩, none⟩,
      .unary .not (Session.amountIs 3) .bool]).Determines guardedFlags := by
  have fits : FitsInt64 3 := by decide
  have wellTyped : guardedFlags.WellTyped :=
    ⟨⟨rfl, rfl, rfl⟩, ⟨⟨rfl, rfl⟩, trivial, fits⟩, ⟨rfl, rfl, rfl⟩, trivial,
      ⟨⟨rfl, rfl⟩, trivial⟩, ⟨rfl, rfl⟩, trivial, trivial⟩
  have amountTyped (number : Int) (fits : FitsInt64 number) :
      (Valuation.ofList [(Session.amount, .int number)]).WellTyped := by
    intro entry member
    obtain rfl : entry = (Session.amount, .int number) := List.mem_singleton.mp member
    exact fits
  have determined := wellTyped.atoms_determine rfl
  exact ⟨wellTyped, rfl, determined.1 _ _ (amountTyped 4 (by decide)) (amountTyped 5 (by decide))
    (by decide), determined.2.2 _ ⟨_, rfl, by decide⟩⟩

end Expr

end AbstractionRefinement
