import AbstractionRefinement.Proofs.FeasibilityVerdicts
import AbstractionRefinement.Proofs.TracePartitions
import AbstractionRefinement.Proofs.StepFormulas
import AbstractionRefinement.Proofs.WidenedRanges
import AbstractionRefinement.TransitionSystems

/-!
# Interpolants along traces

The interpolants of a refuted trace, one per state, are inductive: each of them holds of
the stores that the actions before its state reach, every action leads from stores that
satisfy one to stores that satisfy the next one, and the last one contradicts the target
condition.  This is meant over the intervals that all of them are computed over, and for
traces whose formulas do not choose between truth values.
-/

namespace AbstractionRefinement

open AbstractionRefinement.Computation

section Reaching

variable {σ α : Type} [ExprState σ] [ExprAction α]

/-- The action leads from one store to another with admitted values in between. -/
def Relates (ranges : SolverConfig) (action : α) (store next : Store) : Prop :=
  ∃ values : Symbol → Value, (∀ symbol, ranges.Admits symbol.decl (values symbol)) ∧
    storeAt values (Indexing.constant 0).get = store ∧
    storeAt values (ExprAction.nextIndexing action).get = next ∧
    ((ExprAction.toExpr action).unfold (.constant 0)).evalBool (total values) = some true

/-- The store is reached by the actions before the state at the position, from the initial
condition on and through the states before. -/
inductive Trace.Reaches (ranges : SolverConfig) (initial : Expr) (trace : Trace σ α) :
    Nat → Store → Prop
  | start {store : Store} (inRange : ranges.InRange store) (starts : initial.Holds store)
      (holds : (ExprState.toExpr trace.first).Holds store) : Reaches ranges initial trace 0 store
  | step {position : Nat} {action : α} {state : σ} {store next : Store}
      (reached : Reaches ranges initial trace position store)
      (isStep : trace.steps[position]? = some (action, state))
      (relates : Relates ranges action store next)
      (holds : (ExprState.toExpr state).Holds next) :
      Reaches ranges initial trace (position + 1) next

/-- Conditions on the stores at the states of a trace.  They hold of the stores that are
reached, are passed on by the actions, and in the end exclude the target condition. -/
structure InductiveAlong (ranges : SolverConfig) (initial target : Expr) (trace : Trace σ α)
    (conditions : List Expr) : Prop where
  length_eq : conditions.length = trace.length + 1
  current : ∀ condition ∈ conditions, condition.IsCurrent
  reached {position : Nat} {condition : Expr} {store : Store} :
    conditions[position]? = some condition → trace.Reaches ranges initial position store →
      condition.Holds store
  advances {position : Nat} {action : α} {state : σ} {before after : Expr} {store next : Store} :
    trace.steps[position]? = some (action, state) → conditions[position]? = some before →
      conditions[position + 1]? = some after → before.Holds store →
        Relates ranges action store next → (ExprState.toExpr state).Holds next → after.Holds next
  excludes {condition : Expr} {store : Store} : conditions.getLast? = some condition →
    ranges.InRange store → condition.Holds store → ¬ target.Holds store

end Reaching

theorem Expr.IsCurrent.evalBool_unfold {formula : Expr} (current : formula.IsCurrent)
    (indexing : Indexing) (values : Symbol → Value) :
    (formula.unfold indexing).evalBool (total values) = some true ↔
      formula.Holds (storeAt values indexing.get) := by
  rw [unfold_eq_atVersions current.unprimed, current.evalBool_atVersions]

namespace Expr

variable {indexing : Indexing} {formula : Expr} (atSteps : ∀ symbol ∈ formula.symbols,
  symbol.index = some (indexing.get symbol.decl))
include atSteps

theorem properCondition_fold (unprimed : formula.hasPrime = false)
    (encodable : formula.Encodable) (boolean : formula.ty = .bool) :
    (formula.fold indexing).ProperCondition := by
  rw [fold_eq_moved atSteps]
  refine ⟨⟨⟨(hasPrime_moved formula).trans unprimed, ?_⟩, encodable.moved⟩,
    (ty_moved formula).trans boolean⟩
  rw [isIndexed, List.any_eq_false]
  intro symbol occurs
  obtain ⟨other, -, rfl⟩ := mem_symbols_moved.mp occurs
  exact Bool.false_ne_true

theorem holds_fold_iff (store : Store) : (formula.fold indexing).Holds store ↔
    formula.evalBool (total fun symbol => store symbol.decl) = some true := by
  rw [Holds, fold_eq_moved atSteps, evalBool, eval_moved]
  rfl

end Expr

namespace StrongestConsequence

variable {ranges : SolverConfig} {first second : List Expr} {consequence : Expr}
  {indexing : Indexing}
  (strongest : StrongestConsequence ranges first
    (fun symbol => Occurs symbol first → Occurs symbol second) consequence)
  (upTo : ∀ formula ∈ first, formula.UpTo indexing.get)
  (later : ∀ formula ∈ second, formula.From indexing.get)
include strongest upTo later

theorem index_eq : ∀ symbol ∈ consequence.symbols,
    symbol.index = some (indexing.get symbol.decl) := by
  intro symbol occurs
  obtain ⟨inFirst, kept⟩ := strongest.mentions occurs
  obtain ⟨formula', member', inside'⟩ := kept inFirst
  obtain ⟨formula, member, inside⟩ := inFirst
  obtain ⟨step, isIndex, le⟩ := upTo formula member symbol inside
  obtain ⟨step', isIndex', ge⟩ := later formula' member' symbol inside'
  obtain rfl : step = step' := Option.some_injective _ (isIndex.symm.trans isIndex')
  exact isIndex.trans (congrArg some (Nat.le_antisymm le ge))

/-- The folded consequence holds of the stores in between that the first formulas allow. -/
theorem holds_fold_iff_strongestInterpolant {store : Store} (inRange : ranges.InRange store) :
    (consequence.fold indexing).Holds store ↔
      StrongestInterpolant ranges first second indexing.get store := by
  classical
  have atSteps := strongest.index_eq upTo later
  rw [Expr.holds_fold_iff atSteps]
  constructor
  · intro holds
    obtain ⟨values, admits, fulfills, same⟩ :=
      strongest.completes (fun symbol _ _ => inRange symbol.decl) holds
    -- Symbols that do not occur get the value of the store.
    refine ⟨fun symbol => if Occurs symbol first then values symbol else store symbol.decl,
      fun symbol => ?_, fulfills.congr fun symbol occurs => (if_pos occurs).symm,
      fun decl occurs occurs' => ?_⟩
    · dsimp only
      split
      case isTrue occurs =>
        obtain ⟨formula, member, inside⟩ := occurs
        exact admits formula member symbol inside
      case isFalse => exact inRange symbol.decl
    · exact (if_pos occurs).trans (same _ fun _ _ => occurs')
  · rintro ⟨values, admitted, fulfills, agrees⟩
    rw [← strongest.follows (fun _ _ symbol _ => admitted symbol) fulfills]
    refine Expr.evalBool_congr fun symbol occurs => congrArg some ?_
    obtain ⟨inFirst, kept⟩ := strongest.mentions occurs
    obtain ⟨decl, index⟩ := symbol
    obtain rfl : index = some (indexing.get decl) := atSteps _ occurs
    exact (agrees decl inFirst (kept inFirst)).symm

end StrongestConsequence

namespace PathFormula

variable {σ α : Type} [ExprState σ] [ExprAction α] {initial target : Expr} {indexing : Indexing}
  {path : PathFormula}

theorem length_indexings {steps : List (α × σ)}
    (written : ofActions target indexing steps = .ok path) :
    path.indexings.length = steps.length + 1 := by
  induction steps generalizing indexing path with
  | nil =>
      cases written
      rfl
  | cons step steps ih =>
      obtain ⟨_, following, -, writtenRest, rfl⟩ := ofActions_cons written
      exact congrArg (· + 1) (ih writtenRest)

/-- The formulas up to a position and from it on. -/
theorem exists_cut_ofActions {steps : List (α × σ)}
    (written : ofActions target indexing steps = .ok path) (timely : TimelySteps steps)
    {position : Nat} (le : position ≤ steps.length) :
    ∃ later, path.indexings[position]? = some later ∧
      ofActions target later (steps.drop position) =
        .ok ⟨path.steps.drop position, path.indexings.drop position⟩ ∧
      (∀ decl, indexing.get decl ≤ later.get decl) ∧
      ∀ formula ∈ path.steps.take position, formula.UpTo later.get := by
  induction position generalizing steps indexing path with
  | zero =>
      refine ⟨indexing, head?_indexings written, written, fun decl => Nat.le_refl _, ?_⟩
      rintro formula ⟨⟩
  | succ position ih =>
      cases steps with
      | nil => cases le
      | cons step steps =>
          obtain ⟨⟨timelyAction, current⟩, timelyRest⟩ := List.forall_mem_cons.mp timely
          obtain ⟨formula, following, isConjunction, writtenRest, rfl⟩ := ofActions_cons written
          obtain ⟨later, isLater, writtenLater, advanced, upTo⟩ :=
            ih writtenRest timelyRest (Nat.le_of_succ_le_succ le)
          refine ⟨later, isLater, writtenLater,
            fun decl => (le_get_add indexing _ decl).trans (advanced decl), ?_⟩
          rw [List.take_succ_cons]
          refine List.forall_mem_cons.mpr ⟨?_, upTo⟩
          exact (from_and_upTo_step timelyAction current isConjunction).2.mono advanced

/-- The formulas of a trace are cut in two at each state.  The first ones lie before the
time of the state and the others after it. -/
structure Cut (target : Expr) (trace : Trace σ α) (path : PathFormula) (position : Nat)
    (later : Indexing) : Prop where
  indexing_eq : path.indexings[position]? = some later
  written : ofActions target later (trace.steps.drop position) =
    .ok ⟨path.steps.drop (position + 1), path.indexings.drop position⟩
  upTo : ∀ formula ∈ path.steps.take (position + 1), formula.UpTo later.get
  from_ : ∀ formula ∈ path.steps.drop (position + 1), formula.From later.get

/-- Between two cuts there is the formula of an action with the state it leads to. -/
theorem Cut.exists_step {trace : Trace σ α} {position : Nat} {here : Indexing}
    (cut : Cut target trace path position here) {action : α} {state : σ}
    (isStep : trace.steps[position]? = some (action, state)) :
    ∃ step ∈ path.steps, Expr.IsConjunction [(ExprAction.toExpr action).unfold here,
        (ExprState.toExpr state).unfold (here.add (ExprAction.nextIndexing action))] step ∧
      path.steps.drop (position + 1) = [step] ++ path.steps.drop (position + 1 + 1) ∧
      path.steps.take (position + 1 + 1) = path.steps.take (position + 1) ++ [step] ∧
      path.indexings[position + 1]? = some (here.add (ExprAction.nextIndexing action)) := by
  have written := cut.written
  rw [List.drop_eq_getElem?_toList_append, isStep] at written
  obtain ⟨step, following, isConjunction, writtenRest, same⟩ := ofActions_cons written
  obtain ⟨sameSteps, sameIndexings⟩ := PathFormula.mk.inj same
  have isThere : path.steps[position + 1]? = some step := by
    rw [← List.head?_drop, sameSteps, List.head?_cons]
  have isNext := head?_indexings writtenRest
  refine ⟨step, List.mem_of_getElem? isThere, isConjunction, ?_, ?_, ?_⟩
  · rw [List.drop_eq_getElem?_toList_append, isThere, Option.toList_some]
  · rw [List.take_add_one, isThere, Option.toList_some]
  · have second : (path.indexings.drop position)[1]? = following.indexings[0]? := by
      rw [sameIndexings, List.getElem?_cons_succ]
    rw [List.getElem?_drop] at second
    exact second.trans isNext

section Traces

variable {trace : Trace σ α} (written : ofTrace initial target trace = .ok path)
include written

theorem exists_of_ofTrace : ∃ first following,
    Expr.IsConjunction [initial, ExprState.toExpr trace.first] first ∧
      ofActions target (.constant 0) trace.steps = .ok following ∧
      path = ⟨first.unfold (.constant 0) :: following.steps, following.indexings⟩ := by
  obtain ⟨first, joined, composed⟩ := exists_of_bind_eq_ok written
  obtain ⟨following, writtenRest, result⟩ := exists_of_bind_eq_ok composed
  exact ⟨first, following, Expr.isConjunction_of_mkAnd joined, writtenRest,
    (Except.ok.inj result).symm⟩

theorem length_indexings_ofTrace : path.indexings.length = trace.length + 1 := by
  obtain ⟨first, following, -, writtenRest, rfl⟩ := exists_of_ofTrace written
  show following.indexings.length = _
  exact length_indexings writtenRest

theorem exists_cut (currentInitial : initial.IsCurrent)
    (currentFirst : (ExprState.toExpr trace.first).IsCurrent) (currentTarget : target.IsCurrent)
    (timely : TimelySteps trace.steps) {position : Nat} (le : position ≤ trace.length) :
    ∃ later, Cut target trace path position later := by
  obtain ⟨first, following, isConjunction, writtenRest, rfl⟩ := exists_of_ofTrace written
  obtain ⟨later, isLater, writtenLater, advanced, upTo⟩ :=
    exists_cut_ofActions writtenRest timely le
  have currentStart : first.IsCurrent := isConjunction.isCurrent
    (List.forall_mem_cons.mpr ⟨currentInitial, List.forall_mem_singleton.mpr currentFirst⟩)
  refine ⟨later, isLater, writtenLater, ?_, ?_⟩
  · rw [List.take_succ_cons]
    exact List.forall_mem_cons.mpr ⟨currentStart.upTo_unfold.mono advanced, upTo⟩
  · exact from_of_ofActions writtenLater currentTarget fun step member =>
      timely step (List.mem_of_mem_drop member)

end Traces

end PathFormula

/-- A conjunct of statements after some assignments.  It speaks about current values under
primes, which count the assignments up to the given numbers. -/
structure PlacedUpTo (final : Indexing) (conjunct : Expr) : Prop where
  unindexed : ∀ symbol ∈ conjunct.symbols, symbol.index = none
  upTo : (conjunct.unfold (.constant 0)).UpTo final.get

theorem PlacedUpTo.mono {final final' : Indexing} {conjunct : Expr}
    (placed : PlacedUpTo final conjunct) (le : ∀ decl, final.get decl ≤ final'.get decl) :
    PlacedUpTo final' conjunct :=
  ⟨placed.unindexed, placed.upTo.mono le⟩

theorem placedUpTo_shift {formula : Expr} (current : formula.IsCurrent) (offsets : Indexing) :
    PlacedUpTo offsets (formula.shift offsets) := by
  refine ⟨fun symbol occurs => current.index_eq_none symbol (Expr.mem_symbols_of_shift occurs),
    fun symbol occurs => ?_⟩
  rw [Expr.unfold, Expr.unfoldUnder_shift current.unprimed] at occurs
  obtain ⟨other, inside, -, index⟩ := Expr.exists_of_mem_symbols_atVersions _ occurs
  refine ⟨_, index (current.index_eq_none other inside), Nat.le_of_eq ?_⟩
  rw [Indexing.get_constant, Nat.zero_add]

theorem le_get_increment (offsets : Indexing) (target decl : VarDecl) :
    offsets.get decl ≤ (offsets.increment target).get decl := by
  rw [Indexing.get_increment, Function.update_apply]
  split
  case isTrue same => exact same ▸ Nat.le_succ _
  case isFalse => exact Nat.le_refl _

theorem placedUpTo_assignment {target : VarDecl} {value : Expr} (current : value.IsCurrent)
    (offsets : Indexing) : PlacedUpTo (offsets.increment target)
      (.binary .eq (Expr.primedVariable target ((offsets.increment target).get target))
        (value.shift offsets) .bool) := by
  have placed := (placedUpTo_shift current offsets).mono (le_get_increment offsets target)
  constructor
  · intro symbol occurs
    rcases Expr.mem_symbols_binary.mp occurs with occurs | occurs
    · rw [Expr.mem_symbols_primedVariable.mp occurs]
    · exact placed.unindexed symbol occurs
  · intro symbol occurs
    rcases Expr.mem_symbols_binary.mp occurs with occurs | occurs
    · rw [Expr.unfoldUnder_primedVariable] at occurs
      rw [Expr.mem_symbols_sym.mp occurs]
      refine ⟨_, rfl, Nat.le_of_eq ?_⟩
      rw [Indexing.get_constant, Nat.zero_add]
    · exact placed.upTo symbol occurs

/-- The conjuncts of validated statements are placed before the last assignments. -/
theorem placedUpTo_encodeStatements {statements : List Statement} {offsets final : Indexing}
    {conjuncts : List Expr}
    (encoded : encodeStatements offsets statements = .ok (conjuncts, final))
    (valid : ∀ statement ∈ statements, statement.validate = .ok ()) :
    (∀ decl, offsets.get decl ≤ final.get decl) ∧
      ∀ conjunct ∈ conjuncts, PlacedUpTo final conjunct := by
  induction statements generalizing offsets conjuncts with
  | nil =>
      cases encoded
      exact ⟨fun decl => Nat.le_refl _, List.forall_mem_nil _⟩
  | cons statement statements ih =>
      obtain ⟨validFirst, validRest⟩ := List.forall_mem_cons.mp valid
      have grown (target : VarDecl) (le : ∀ decl, (offsets.increment target).get decl ≤
          final.get decl) (decl : VarDecl) : offsets.get decl ≤ final.get decl :=
        (le_get_increment offsets target decl).trans (le decl)
      cases statement with
      | assume condition =>
          obtain ⟨_, encodedRest, result⟩ := exists_of_bind_eq_ok encoded
          cases result
          obtain ⟨le, placed⟩ := ih encodedRest validRest
          exact ⟨le, List.forall_mem_cons.mpr
            ⟨(placedUpTo_shift (Statement.of_expect validFirst).1 offsets).mono le, placed⟩⟩
      | assign target value =>
          obtain ⟨equation, built, composed⟩ := exists_of_bind_eq_ok encoded
          obtain ⟨_, encodedRest, result⟩ := exists_of_bind_eq_ok composed
          obtain ⟨_, -, equated⟩ := exists_of_bind_eq_ok built
          cases result
          cases equated
          obtain ⟨le, placed⟩ := ih encodedRest validRest
          exact ⟨grown target le, List.forall_mem_cons.mpr
            ⟨(placedUpTo_assignment (Statement.of_expect validFirst).1 offsets).mono le, placed⟩⟩
      | havoc target =>
          obtain ⟨le, placed⟩ := ih encoded validRest
          exact ⟨grown target le, placed⟩
      | clockGuard _ => exact ih encoded validRest
      | clockReset _ _ => exact ih encoded validRest

/-- An edge that is made of validated statements. -/
structure ControlEdge.Validated (edge : ControlEdge) : Prop where
  made : ∃ locations,
    ofStatements locations edge.source edge.target edge.statements = .ok edge
  valid : ∀ statement ∈ edge.statements, statement.validate = .ok ()

theorem ControlEdge.Validated.timely {edge : ControlEdge} (validated : edge.Validated) :
    Timely edge := by
  obtain ⟨locations, made⟩ := validated.made
  obtain ⟨⟨conjuncts, next⟩, encoded, composed⟩ := exists_of_bind_eq_ok made
  obtain ⟨formula, joined, composed⟩ := exists_of_bind_eq_ok composed
  obtain ⟨-, placed⟩ := placedUpTo_encodeStatements encoded validated.valid
  have sameFormula : formula = edge.formula := congrArg ControlEdge.formula (Except.ok.inj composed)
  have sameNext : next = edge.next := congrArg ControlEdge.next (Except.ok.inj composed)
  subst sameFormula sameNext
  have isConjunction := Expr.isConjunction_of_mkAnd joined
  constructor
  · rw [Expr.isIndexed, List.any_eq_false]
    intro symbol occurs
    obtain ⟨conjunct, member, inside⟩ := isConjunction.mem_symbols.mp occurs
    rw [(placed conjunct member).unindexed symbol inside]
    exact Bool.false_ne_true
  · exact (isConjunction.unfold _).upTo (List.forall_mem_map.mpr fun conjunct member =>
      (placed conjunct member).upTo)

/-- A transition relation over current values and the values after one step. -/
structure TransitionAction.OneStep (action : TransitionAction) : Prop where
  unindexed : action.transition.isIndexed = false
  early : ∀ symbol ∈ (action.transition.unfold (.constant 0)).symbols,
    ∃ step, symbol.index = some step ∧ step ≤ 1

theorem TransitionAction.OneStep.timely {action : TransitionAction} (oneStep : action.OneStep) :
    Timely action :=
  ⟨oneStep.unindexed, oneStep.early⟩

namespace TraceChecker

variable {σ α : Type} [ExprState σ] [ExprAction α] {config ranges : SolverConfig}
  {initial target : Expr} {trace : Trace σ α} {path : PathFormula} {conditions : List Expr}

/-- Each condition is the strongest interpolant of the formulas up to its state and the
later ones, which have no solution together. -/
structure Interpolated (ranges : SolverConfig) (target : Expr) (trace : Trace σ α)
    (path : PathFormula) (conditions : List Expr) : Prop where
  length_eq : conditions.length = trace.length + 1
  strongest {position : Nat} {condition : Expr} : conditions[position]? = some condition →
    condition.ProperCondition ∧ ∃ later, PathFormula.Cut target trace path position later ∧
      ∀ store, ranges.InRange store → (condition.Holds store ↔
        StrongestInterpolant ranges (path.steps.take (position + 1))
          (path.steps.drop (position + 1)) later.get store)
  refuted {values : Symbol → Value} :
    (∀ symbol, ranges.Admits symbol.decl (values symbol)) → ¬ Fulfills values path.steps

namespace Interpolated

variable (interpolated : Interpolated ranges target trace path conditions)
include interpolated

/-- The first condition holds of the stores of the first state. -/
theorem holds_start (written : PathFormula.ofTrace initial target trace = .ok path)
    (encodable : ∀ formula ∈ path.steps, formula.Encodable) (currentInitial : initial.IsCurrent)
    (currentFirst : (ExprState.toExpr trace.first).IsCurrent) {condition : Expr} {store : Store}
    (isCondition : conditions[0]? = some condition) (inRange : ranges.InRange store)
    (starts : initial.Holds store) (holds : (ExprState.toExpr trace.first).Holds store) :
    condition.Holds store := by
  obtain ⟨-, later, cut, iff⟩ := interpolated.strongest isCondition
  obtain ⟨first, following, isConjunction, writtenRest, rfl⟩ :=
    PathFormula.exists_of_ofTrace written
  obtain rfl : Indexing.constant 0 = later := Option.some_injective _
    ((PathFormula.head?_indexings writtenRest).symm.trans cut.indexing_eq)
  let values (symbol : Symbol) : Value := store symbol.decl
  have satisfies : Satisfies values [first.unfold (.constant 0)] := by
    refine List.forall_mem_singleton.mpr (((isConjunction.unfold _).evalBool_iff _).mpr ?_)
    exact List.forall_mem_cons.mpr ⟨(currentInitial.evalBool_unfold _ values).mpr starts,
      List.forall_mem_singleton.mpr ((currentFirst.evalBool_unfold _ values).mpr holds)⟩
  have fulfills : Fulfills values [first.unfold (.constant 0)] :=
    satisfies.fulfills (List.forall_mem_singleton.mpr (encodable _ List.mem_cons_self))
      fun _ _ symbol _ => inRange symbol.decl
  exact (iff store inRange).mpr
    (strongestInterpolant_of_fulfills (fun symbol => inRange symbol.decl) fulfills _ _)

/-- An action leads from stores of a condition to stores of the next one. -/
theorem holds_next (timely : TimelySteps trace.steps)
    (encodable : ∀ formula ∈ path.steps, formula.Encodable) {position : Nat} {action : α}
    {state : σ} {before after : Expr} {store next : Store}
    (isStep : trace.steps[position]? = some (action, state))
    (isBefore : conditions[position]? = some before)
    (isAfter : conditions[position + 1]? = some after) (holds : before.Holds store)
    (relates : Relates ranges action store next) (inState : (ExprState.toExpr state).Holds next) :
    after.Holds next := by
  obtain ⟨-, here, cut, iff⟩ := interpolated.strongest isBefore
  obtain ⟨-, later, cut', iff'⟩ := interpolated.strongest isAfter
  obtain ⟨values, admitted, rfl, rfl, acts⟩ := relates
  obtain ⟨timelyAction, current⟩ := timely _ (List.mem_of_getElem? isStep)
  obtain ⟨step, isFormula, isConjunction, dropped, taken, isNext⟩ := cut.exists_step isStep
  obtain rfl := Option.some_injective _ (isNext.symm.trans cut'.indexing_eq)
  have admittedPlaced := admits_placed admitted here
  have satisfies : Satisfies (placed here values) [step] := by
    refine List.forall_mem_singleton.mpr ((isConjunction.evalBool_iff _).mpr
      (List.forall_mem_cons.mpr ⟨(timelyAction.evalBool_unfold here values).trans acts,
        List.forall_mem_singleton.mpr ((current.evalBool_unfold _ _).mpr ?_)⟩))
    rw [storeAt_placed_add]
    exact inState
  have fulfills : Fulfills (placed here values) [step] := satisfies.fulfills
    (List.forall_mem_singleton.mpr (encodable step isFormula)) fun _ _ symbol _ =>
      admittedPlaced symbol
  have inRange (versions : VarDecl → Nat) : ranges.InRange (storeAt values versions) :=
    fun decl => admitted ⟨decl, some (versions decl)⟩
  have interpolant := (iff _ (inRange _)).mp holds
  rw [← storeAt_placed here values, dropped] at interpolant
  refine (iff' _ (inRange _)).mpr ?_
  rw [← storeAt_placed_add here _ values, taken]
  exact interpolant.advance admittedPlaced cut.upTo (List.forall_mem_singleton.mpr
    (PathFormula.from_and_upTo_step timelyAction current isConjunction).1) (le_get_add here _)
    fulfills

/-- The last condition excludes the target condition. -/
theorem not_holds_target (currentTarget : target.IsCurrent)
    (encodable : ∀ formula ∈ path.steps, formula.Encodable) {condition : Expr} {store : Store}
    (isCondition : conditions[trace.length]? = some condition) (inRange : ranges.InRange store)
    (holds : condition.Holds store) : ¬ target.Holds store := by
  intro hits
  obtain ⟨-, later, cut, iff⟩ := interpolated.strongest isCondition
  have written := cut.written
  rw [Trace.length, List.drop_length] at written
  obtain ⟨atEnd, -⟩ := PathFormula.mk.inj (Except.ok.inj written)
  let values (symbol : Symbol) : Value := store symbol.decl
  have satisfies : Satisfies values [target.unfold later] :=
    List.forall_mem_singleton.mpr ((currentTarget.evalBool_unfold later values).mpr hits)
  rw [atEnd] at satisfies
  have fulfills : Fulfills values (path.steps.drop (trace.length + 1)) := satisfies.fulfills
    (fun formula member => encodable formula (List.mem_of_mem_drop member))
    fun _ _ symbol _ => inRange symbol.decl
  refine ((iff store inRange).mp holds).elim (fun symbol => inRange symbol.decl) cut.upTo cut.from_
    fulfills fun values admitted => ?_
  rw [List.take_append_drop]
  exact interpolated.refuted admitted

/-- The conditions are inductive along the trace. -/
theorem inductiveAlong (written : PathFormula.ofTrace initial target trace = .ok path)
    (encodable : ∀ formula ∈ path.steps, formula.Encodable) (currentInitial : initial.IsCurrent)
    (currentFirst : (ExprState.toExpr trace.first).IsCurrent) (currentTarget : target.IsCurrent)
    (timely : TimelySteps trace.steps) : InductiveAlong ranges initial target trace conditions where
  length_eq := interpolated.length_eq
  current condition member := by
    obtain ⟨position, isCondition⟩ := List.mem_iff_getElem?.mp member
    exact (interpolated.strongest isCondition).1.current
  reached {position condition store} isCondition reached := by
    induction reached generalizing condition with
    | start inRange starts holds =>
        exact interpolated.holds_start written encodable currentInitial currentFirst isCondition
          inRange starts holds
    | @step position action state store next _ isStep relates holds ih =>
        obtain ⟨before, isBefore⟩ : ∃ before, conditions[position]? = some before := by
          obtain ⟨bound, -⟩ := List.getElem?_eq_some_iff.mp isCondition
          exact ⟨_, List.getElem?_eq_getElem (Nat.lt_of_succ_lt bound)⟩
        exact interpolated.holds_next timely encodable isStep isBefore isCondition (ih isBefore)
          relates holds
  advances := interpolated.holds_next timely encodable
  excludes {condition store} isLast inRange holds := by
    rw [List.getLast?_eq_getElem?, interpolated.length_eq, Nat.add_sub_cancel] at isLast
    exact interpolated.not_holds_target currentTarget encodable isLast inRange holds

end Interpolated

/-- All interpolants of a trace are computed over the same ranges, and at most `32767`
nodes are allocated for each of them. -/
structure SharesRanges (config ranges : SolverConfig) (path : PathFormula) : Prop where
  ranges_eq : ∀ position < path.indexings.length,
    (refutedSession config path.steps position).interpolationRanges (leading path position) = ranges
  few : ∀ position < path.indexings.length,
    (refutedSession config path.steps position).encoder.manager.size ≤ 32767
  fewInterpolating : ∀ position < path.indexings.length,
    ((refutedSession config path.steps position).interpolation
      (leading path position)).2.manager.size ≤ 32767
  fewLevels : ∀ position < path.indexings.length,
    ((refutedSession config path.steps position).interpolation
      (leading path position)).2.nextLevel ≤ 2147483648
  fewConfirming : Session.confirmationSize config path.steps ≤ 32767

/-- The checker refutes the trace by interpolants.  The trace is one of conditions on current
values, and no limit makes the ranges of the interpolants differ. -/
structure Refutes (config ranges : SolverConfig) (initial target : Expr) (trace : Trace σ α)
    (path : PathFormula) (refutation : InterpolantRefutation) : Prop where
  currentInitial : initial.IsCurrent
  currentTarget : target.IsCurrent
  currentStates : ∀ state ∈ trace.states, (ExprState.toExpr state).IsCurrent
  written : PathFormula.ofTrace initial target trace = .ok path
  shares : SharesRanges config ranges path
  refuted : ∃ statistics after,
    sequenceInterpolation.check config initial target trace statistics =
      (.ok (.infeasible (.interpolants refutation)), after)

namespace Refutes

variable {refutation : InterpolantRefutation}
  (refutes : Refutes config ranges initial target trace path refutation)
include refutes

theorem currentFirst : (ExprState.toExpr trace.first).IsCurrent :=
  refutes.currentStates _ List.mem_cons_self

theorem timelySteps (timely : ∀ action ∈ trace.actions, Timely action) :
    TimelySteps trace.steps := fun _ member =>
  ⟨timely _ (List.mem_map_of_mem member),
    refutes.currentStates _ (List.mem_cons_of_mem _ (List.mem_map_of_mem member))⟩

/-- What the checker gives are strongest interpolants. -/
theorem interpolated (lawful : config.Lawful) (trusted : 0 ≤ config.margin)
    (countable : (config.maxAtomAssignments : Int) < maxInt64)
    (encodable : ∀ formula ∈ path.steps, formula.Encodable)
    (timely : ∀ action ∈ trace.actions, Timely action) :
    Interpolated ranges target trace path refutation.interpolants := by
  have shares := refutes.shares
  obtain ⟨statistics, after, refuted⟩ := refutes.refuted
  have given := (ensures_check_run refutes.written statistics).of_run refuted refutation rfl
  have exact_ : (config.capped 32768).Exact :=
    ⟨lawful, countable, DiagramManager.distinctKeys_of_le (Nat.min_le_right _ _)⟩
  have length_eq := PathFormula.length_indexings_ofTrace refutes.written
  have few (position : Nat) (bound : position < path.indexings.length) :
      (refutedSession config path.steps position).encoder.manager.nodes.size ≤ 32768 ∧
        ((refutedSession config path.steps position).interpolation
          (leading path position)).2.manager.nodes.size ≤ 32768 := by
    have small := shares.few position bound
    have small' := shares.fewInterpolating position bound
    unfold DiagramManager.size at small small'
    omega
  have plain : ∀ formula ∈ path.steps, formula.choosesTruth = false :=
    fun formula member => (encodable formula member).plain
  refine ⟨given.length_eq.trans length_eq, fun {position condition} isCondition => ?_,
    fun {values} admitted => ?_⟩
  · obtain ⟨bound, -⟩ := List.getElem?_eq_some_iff.mp isCondition
    rw [given.length_eq] at bound
    obtain ⟨later, cut⟩ := PathFormula.exists_cut refutes.written refutes.currentInitial
      refutes.currentFirst refutes.currentTarget (refutes.timelySteps timely)
      (Nat.le_of_lt_succ (bound.trans_eq length_eq))
    obtain ⟨interpolant, returned, same⟩ := given.given cut.indexing_eq
    obtain rfl := Option.some_injective _ (same.symm.trans isCondition)
    obtain ⟨unsat, computed⟩ := Session.interpolant_eq_ok returned
    have within : (refutedSession config path.steps position).SoundWithin 32768 config _ :=
      Session.soundWithin_of_unsat lawful .forInterpolation _ unsat
    obtain ⟨inside, outside⟩ := Session.divided_of_labels (given.labels position) (position + 1)
    have strongest := within.strongestConsequence exact_ trusted
      (fun formula member => plain formula (List.mem_of_mem_take (inside ▸ member)))
      (few position bound).2 (shares.fewLevels position bound) computed
    simp only [Session.not_mem_localSymbols_iff] at strongest
    rw [shares.ranges_eq position bound, leading, inside, outside] at strongest
    exact ⟨Expr.properCondition_fold (strongest.index_eq cut.upTo cut.from_) strongest.unprimed
      strongest.encodable strongest.boolean, later, cut,
      fun store => strongest.holds_fold_iff_strongestInterpolant cut.upTo cut.from_⟩
  · have bound : 0 < path.indexings.length := by
      rw [length_eq]
      exact Nat.succ_pos _
    obtain ⟨interpolant, returned, -⟩ := given.given (List.getElem?_eq_getElem bound)
    obtain ⟨unsat, -⟩ := Session.interpolant_eq_ok returned
    have within : (refutedSession config path.steps 0).SoundWithin 32768 config _ :=
      Session.soundWithin_of_unsat lawful .forInterpolation _ unsat
    have formulas := Session.formulas_of_labels (given.labels 0)
    have admits : ((refutedSession config path.steps 0).interpolationRanges
        (leading path 0)).AdmitsAll values (refutedSession config path.steps 0).formulas := by
      rw [shares.ranges_eq 0 bound]
      exact fun _ _ symbol _ => admitted symbol
    have considers := Session.considers_of_interpolationRanges within.config_eq trusted admits
    rw [formulas] at considers
    have excludes := within.refutes (few 0 bound).1 unsat
    rw [formulas] at excludes
    exact excludes (Nat.lt_succ_of_le shares.fewConfirming) exact_ plain values considers

/-- The interpolants are computed over values that include the configured ones. -/
theorem admits_ranges (lawful : config.Lawful) (trusted : 0 ≤ config.margin) {decl : VarDecl}
    {value : Value} (admits : config.Admits decl value) : ranges.Admits decl value := by
  obtain ⟨statistics, after, refuted⟩ := refutes.refuted
  have given := (ensures_check_run refutes.written statistics).of_run refuted refutation rfl
  have bound : 0 < path.indexings.length := by
    rw [PathFormula.length_indexings_ofTrace refutes.written]
    exact Nat.succ_pos _
  obtain ⟨interpolant, returned, -⟩ := given.given (List.getElem?_eq_getElem bound)
  obtain ⟨unsat, -⟩ := Session.interpolant_eq_ok returned
  have within : (refutedSession config path.steps 0).SoundWithin 32768 config _ :=
    Session.soundWithin_of_unsat lawful .forInterpolation _ unsat
  rw [← refutes.shares.ranges_eq 0 bound]
  unfold Session.interpolationRanges
  rw [within.config_eq]
  split
  · exact SolverConfig.Admits.widened lawful trusted _ admits
  · exact admits

theorem inductiveAlong (lawful : config.Lawful) (trusted : 0 ≤ config.margin)
    (countable : (config.maxAtomAssignments : Int) < maxInt64)
    (encodable : ∀ formula ∈ path.steps, formula.Encodable)
    (timely : ∀ action ∈ trace.actions, Timely action) :
    InductiveAlong ranges initial target trace refutation.interpolants :=
  (refutes.interpolated lawful trusted countable encodable timely).inductiveAlong refutes.written
    encodable refutes.currentInitial refutes.currentFirst refutes.currentTarget
    (refutes.timelySteps timely)

end Refutes

/-- Along traces of edges, and along traces of a transition relation over current values and
the values after one step, the interpolants of a refutation are inductive unless a formula
chooses between truth values. -/
theorem sequence_interpolants_inductive (lawful : config.Lawful) (trusted : 0 ≤ config.margin)
    (countable : (config.maxAtomAssignments : Int) < maxInt64)
    (encodable : ∀ formula ∈ path.steps, formula.Encodable) (refutation : InterpolantRefutation) :
    (∀ trace : Trace σ ControlEdge, (∀ edge ∈ trace.actions, edge.Validated) →
      Refutes config ranges initial target trace path refutation →
        InductiveAlong ranges initial target trace refutation.interpolants) ∧
    ∀ trace : Trace σ TransitionAction, (∀ action ∈ trace.actions, action.OneStep) →
      Refutes config ranges initial target trace path refutation →
        InductiveAlong ranges initial target trace refutation.interpolants := by
  refine ⟨fun trace validated refutes => ?_, fun trace oneStep refutes => ?_⟩
  · exact refutes.inductiveAlong lawful trusted countable encodable fun edge member =>
      (validated edge member).timely
  · exact refutes.inductiveAlong lawful trusted countable encodable fun action member =>
      (oneStep action member).timely

def interpolantRefutation? : Feasibility → Option InterpolantRefutation
  | .infeasible (.interpolants refutation) => some refutation
  | _ => none

theorem exists_refuted {checker : TraceChecker} {refutation : InterpolantRefutation}
    (given : ((checker.check config initial target trace {}).1.toOption.bind
      interpolantRefutation?) = some refutation) :
    ∃ statistics after, checker.check config initial target trace statistics =
      (.ok (.infeasible (.interpolants refutation)), after) := by
  obtain ⟨outcome, returned, same⟩ := Option.bind_eq_some_iff.mp given
  obtain ⟨after, run⟩ := exists_run_of_toOption_eq_some returned
  unfold interpolantRefutation? at same
  split at same
  · exact ⟨{}, after, Option.some_injective _ same ▸ run⟩
  · cases same

def countIs (number : Int) : Expr :=
  .binary .eq countVar.toExpr (.ofInt number) .bool

def incrementAction : TransitionAction :=
  ⟨incrementEdge.formula⟩

def transitionTrace : Trace ExplicitState TransitionAction :=
  ⟨incrementTrace.first, [(incrementAction, .top)]⟩

def incrementSteps : List Expr :=
  [.nary .and [.top, (countIs 0).unfold (.constant 0)] .bool,
    .nary .and [incrementEdge.formula.unfold (.constant 0), .top] .bool,
    (countIs 3).unfold (.constant 1)]

def incrementRefutation : InterpolantRefutation :=
  ⟨[countIs 0, countIs 1], 1⟩

theorem encodable_incrementSteps : ∀ formula ∈ incrementSteps, formula.Encodable := by
  have encodableTop : Expr.top.Encodable :=
    (Expr.regularCondition_ofBool true smallConfig).encodable
  have encodableCount {number : Int} (fits : FitsInt64 number) (indexing : Indexing) :
      ((countIs number).unfold indexing).Encodable := by
    have encodable : (countIs number).Encodable := ⟨⟨⟨rfl, rfl⟩, trivial, fits⟩, rfl⟩
    rw [Expr.unfold_eq_atVersions rfl]
    exact encodable.atVersions _
  have spellsOut := (incrementEdge_regular.spellsOut (.constant 0)).1
  have encodableEdge := List.forall_mem_singleton.mp spellsOut.encodable
  refine List.forall_mem_cons.mpr ⟨?_, List.forall_mem_cons.mpr ⟨?_, ?_⟩⟩
  · exact ((Expr.IsConjunction.many _).encodable (List.forall_mem_cons.mpr ⟨encodableTop,
      List.forall_mem_singleton.mpr (encodableCount (by decide) _)⟩) (by decide)).1
  · exact ((Expr.IsConjunction.many _).encodable (List.forall_mem_cons.mpr ⟨encodableEdge,
      List.forall_mem_singleton.mpr encodableTop⟩) (by decide)).1
  · exact List.forall_mem_singleton.mpr (encodableCount (by decide) _)

theorem incrementSteps_sharesRanges (after : Indexing) :
    SharesRanges smallConfig (smallConfig.widened (some (0, 3)))
      ⟨incrementSteps, [.constant 0, after]⟩ := by
  have small : ∀ position < 2,
      (refutedSession smallConfig incrementSteps position).interpolationRanges
          ((List.range 3).take (position + 1)) = smallConfig.widened (some (0, 3)) ∧
        (refutedSession smallConfig incrementSteps position).encoder.manager.size ≤ 32767 ∧
        ((refutedSession smallConfig incrementSteps position).interpolation
          ((List.range 3).take (position + 1))).2.manager.size ≤ 32767 ∧
        ((refutedSession smallConfig incrementSteps position).interpolation
          ((List.range 3).take (position + 1))).2.nextLevel ≤ 2147483648 := by
    decide +kernel
  have fewConfirming : Session.confirmationSize smallConfig incrementSteps ≤ 32767 := by
    decide +kernel
  exact ⟨fun position bound => (small position bound).1,
    fun position bound => (small position bound).2.1,
    fun position bound => (small position bound).2.2.1,
    fun position bound => (small position bound).2.2.2, fewConfirming⟩

/-- Both traces are refuted by the same interpolants, which are inductive. -/
theorem incrementTrace_interpolated :
    InductiveAlong (smallConfig.widened (some (0, 3))) .top (countIs 3) incrementTrace
      incrementRefutation.interpolants ∧
    InductiveAlong (smallConfig.widened (some (0, 3))) .top (countIs 3) transitionTrace
      incrementRefutation.interpolants := by
  have trusted : 0 ≤ smallConfig.margin := by decide
  have currentStates : ∀ state ∈ incrementTrace.states, (ExprState.toExpr state).IsCurrent :=
    List.forall_mem_cons.mpr ⟨⟨rfl, rfl⟩, List.forall_mem_singleton.mpr ⟨rfl, rfl⟩⟩
  have refuted : Refutes smallConfig (smallConfig.widened (some (0, 3))) .top (countIs 3)
      incrementTrace ⟨incrementSteps, [.constant 0, (Indexing.constant 0).increment countVar]⟩
      incrementRefutation :=
    ⟨⟨rfl, rfl⟩, ⟨rfl, rfl⟩, currentStates, rfl, incrementSteps_sharesRanges _,
      exists_refuted (by decide +kernel)⟩
  have refuted' : Refutes smallConfig (smallConfig.widened (some (0, 3))) .top (countIs 3)
      transitionTrace ⟨incrementSteps, [.constant 0, .constant 1]⟩ incrementRefutation :=
    ⟨⟨rfl, rfl⟩, ⟨rfl, rfl⟩, currentStates, rfl, incrementSteps_sharesRanges _,
      exists_refuted (by decide +kernel)⟩
  constructor
  · refine (sequence_interpolants_inductive smallConfig_workable.lawful trusted
      smallConfig_workable.countable encodable_incrementSteps incrementRefutation).1 incrementTrace
      ?_ refuted
    exact List.forall_mem_singleton.mpr
      ⟨⟨[], rfl⟩, List.forall_mem_singleton.mpr rfl⟩
  · refine (sequence_interpolants_inductive smallConfig_workable.lawful trusted
      smallConfig_workable.countable encodable_incrementSteps incrementRefutation).2 transitionTrace
      ?_ refuted'
    refine List.forall_mem_singleton.mpr ⟨rfl, fun symbol occurs => ?_⟩
    have early : ∀ symbol ∈ (incrementAction.transition.unfold (.constant 0)).symbols,
        symbol.index = some 0 ∨ symbol.index = some 1 := by
      decide
    rcases early symbol occurs with isIndex | isIndex
    · exact ⟨0, isIndex, Nat.zero_le _⟩
    · exact ⟨1, isIndex, Nat.le_refl _⟩

def enabled : Expr :=
  .sym ⟨⟨"enabled", .bool⟩, none⟩

def choiceEdge : ControlEdge where
  source := 0
  target := 1
  statements := [.assume (.nary .and [Session.negatedChoice, enabled] .bool)]
  formula := .nary .and [Session.negatedChoice, enabled] .bool
  next := .constant 0
  clockOperations := []

def choiceTrace : Trace ExplicitState ControlEdge :=
  ⟨.top, [(choiceEdge, .top)]⟩

def disabled : Expr :=
  .nary .and [.unary .not enabled .bool,
    .nary .or [Session.flag, .unary .not Session.flag .bool] .bool] .bool

def choiceSteps : List Expr :=
  [.nary .and [.top, .top] .bool,
    .nary .and [choiceEdge.formula.unfold (.constant 0), .top] .bool,
    disabled.unfold (.constant 0)]

def choiceRefutation : InterpolantRefutation :=
  ⟨[.top, .nary .and [enabled, .unary .not Session.flag .bool] .bool], 1⟩

theorem choiceTrace_refuted : Refutes Session.narrowConfig Session.narrowConfig .top disabled
    choiceTrace ⟨choiceSteps, [.constant 0, .constant 0]⟩ choiceRefutation where
  currentInitial := ⟨rfl, rfl⟩
  currentTarget := ⟨rfl, rfl⟩
  currentStates := List.forall_mem_cons.mpr ⟨⟨rfl, rfl⟩, List.forall_mem_singleton.mpr ⟨rfl, rfl⟩⟩
  written := rfl
  shares := ⟨by decide +kernel, by decide +kernel, by decide +kernel, by decide +kernel,
    by decide +kernel⟩
  refuted := exists_refuted (by decide +kernel)

/-- A store at which both variables hold is reached, but not described by the interpolant. -/
theorem choiceTrace_not_inductive : ¬ ∀ (config ranges : SolverConfig) (initial target : Expr)
    (trace : Trace ExplicitState ControlEdge) (path : PathFormula)
    (refutation : InterpolantRefutation), config.Lawful → 0 ≤ config.margin →
      (config.maxAtomAssignments : Int) < maxInt64 → (∀ edge ∈ trace.actions, edge.Validated) →
      Refutes config ranges initial target trace path refutation →
        InductiveAlong ranges initial target trace refutation.interpolants := by
  intro claimed
  have validated : ∀ edge ∈ choiceTrace.actions, edge.Validated :=
    List.forall_mem_singleton.mpr ⟨⟨[], rfl⟩, List.forall_mem_singleton.mpr rfl⟩
  have along := claimed _ _ _ _ _ _ _ Session.narrowConfig_lawful (by decide) (by decide) validated
    choiceTrace_refuted
  choose sample admitted using Session.narrowConfig_lawful.exists_admits
  let store : Store := fun decl => if decl.ty = .bool then .bool true else sample decl
  have inRange : Session.narrowConfig.InRange store := by
    intro decl
    by_cases boolean : decl.ty = .bool
    · rw [show store decl = .bool true from if_pos boolean]
      exact SolverConfig.admits_bool boolean true
    · rw [show store decl = sample decl from if_neg boolean]
      exact admitted decl
  have relates : Relates Session.narrowConfig choiceEdge store store := by
    refine ⟨fun symbol => store symbol.decl, fun symbol => inRange symbol.decl, rfl, rfl, ?_⟩
    have boolean : ∀ symbol ∈ (choiceEdge.formula.unfold (.constant 0)).symbols,
        symbol.decl.ty = .bool := by
      decide
    have holds : (choiceEdge.formula.unfold (.constant 0)).evalBool (fun _ => some (.bool true)) =
        some true := by
      decide
    rw [← holds]
    exact Expr.evalBool_congr fun symbol occurs => congrArg some (if_pos (boolean symbol occurs))
  have reached : choiceTrace.Reaches Session.narrowConfig .top 1 store :=
    .step (.start inRange rfl rfl) rfl relates rfl
  have described : (Expr.nary .and [enabled, .unary .not Session.flag .bool] .bool).Holds store :=
    along.reached rfl reached
  have current : ∀ symbol ∈ (Expr.nary .and [enabled, .unary .not Session.flag .bool]
      .bool).symbols, symbol.index = none ∧ symbol.decl.ty = .bool := by
    decide
  have same : (Expr.nary .and [enabled, .unary .not Session.flag .bool] .bool).evalBool store.read =
      (Expr.nary .and [enabled, .unary .not Session.flag .bool] .bool).evalBool
        fun _ => some (.bool true) := by
    refine Expr.evalBool_congr fun symbol occurs => ?_
    obtain ⟨unindexed, boolean⟩ := current symbol occurs
    rw [Store.read, if_pos unindexed]
    exact congrArg some (if_pos boolean)
  rw [Expr.Holds, same] at described
  exact absurd described (by decide)

end TraceChecker

end AbstractionRefinement
