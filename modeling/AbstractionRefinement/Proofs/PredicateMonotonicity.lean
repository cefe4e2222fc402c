import AbstractionRefinement.PredicateCubes
import AbstractionRefinement.Proofs.ConstructedFormulas
import AbstractionRefinement.Proofs.FormulaOrder
import AbstractionRefinement.Proofs.ModelProjections

/-!
# Monotonicity of predicate states

The cubes of a formula are read off the projections of its solutions onto one variable for
each predicate.  These variables occur in every query, so a solution of the formulas of a
cube with more literals gives the same cube as it gives for one with fewer literals.
-/

namespace AbstractionRefinement

open AbstractionRefinement.Computation

theorem Expr.boolean_of_mkAnd {operands : List Expr} {formula : Expr}
    (built : mkAnd operands = .ok formula) : ∀ operand ∈ operands, operand.ty = .bool := by
  obtain ⟨_, typed, -⟩ := exists_of_bind_eq_ok built
  exact ty_eq_of_expectTypeAll typed

theorem OrderedSet.mem_of_contains {element : Expr} {elements : List Expr}
    (contained : contains element elements = true) : element ∈ elements := by
  induction elements with
  | nil => cases contained
  | cons head tail ih =>
      unfold contains at contained
      split at contained
      · cases contained
      · exact List.mem_cons.mpr (.inl (Std.compare_eq_iff_eq.mp ‹_›))
      · exact List.mem_cons_of_mem _ (ih contained)

namespace PredicateState

open Query

variable {config : SolverConfig} {literals literals' : List Expr} {indexing : Indexing}

theorem toExpr_of_mkAnd {formula : Expr} (built : Expr.mkAnd literals = .ok formula) :
    ExprState.toExpr (cube literals) = formula := by
  show (Expr.mkAnd literals).toOption.getD .bottom = formula
  rw [built]
  rfl

/-- The formula of a cube is the conjunction of its literals, if they are Boolean. -/
theorem toExpr_cases (literals : List Expr) :
    ExprState.toExpr (cube literals) = .bottom ∨
      Expr.IsConjunction literals (ExprState.toExpr (cube literals)) ∧
        ∀ literal ∈ literals, literal.ty = .bool := by
  cases built : Expr.mkAnd literals with
  | error error =>
      refine .inl ?_
      show (Expr.mkAnd literals).toOption.getD .bottom = .bottom
      rw [built]
      rfl
  | ok formula =>
      rw [toExpr_of_mkAnd built]
      exact .inr ⟨Expr.isConjunction_of_mkAnd built, Expr.boolean_of_mkAnd built⟩

/-- A cube is true where a cube with more literals is. -/
theorem truth_unfold_mono (subset : ∀ literal ∈ literals', literal ∈ literals)
    {assignment : Symbol → Option Value}
    (holds : ((ExprState.toExpr (cube literals)).unfold indexing).truth assignment = true) :
    ((ExprState.toExpr (cube literals')).unfold indexing).truth assignment = true := by
  rcases toExpr_cases literals with isBottom | ⟨isConjunction, boolean⟩
  · rw [isBottom] at holds
    cases holds
  · obtain ⟨formula, built⟩ :=
      Expr.exists_mkAnd fun literal member => boolean literal (subset literal member)
    have isConjunction' := Expr.isConjunction_of_mkAnd built
    rw [toExpr_of_mkAnd built, (isConjunction'.unfold indexing).truth_iff, List.forall_mem_map]
    rw [(isConjunction.unfold indexing).truth_iff, List.forall_mem_map] at holds
    exact fun literal member => holds literal (subset literal member)

theorem plain_unfold (plain : ∀ literal ∈ literals,
      (literal.unfold indexing).choosesTruth = false) :
    ((ExprState.toExpr (cube literals)).unfold indexing).choosesTruth = false := by
  rcases toExpr_cases literals with isBottom | ⟨isConjunction, -⟩
  · rw [isBottom]
    rfl
  · exact (isConjunction.unfold indexing).plain (List.forall_mem_map.mpr plain)

/-- The predicates with their numbers. -/
def numbered (precision : PredicatePrecision) : List (Expr × Nat) :=
  precision.predicates.zipIdx

/-- The variable of a predicate has the value of the predicate at its time step. -/
def equivalence (next : Indexing) (item : Expr × Nat) : Expr :=
  .binary .iff (activation item.2).toExpr (item.1.unfold next) .bool

/-- The variables of the predicates. -/
def activations (precision : PredicatePrecision) : List Symbol :=
  (numbered precision).map fun item => ⟨activation item.2, none⟩

/-- The assertions of the query. -/
def assertions (precision : PredicatePrecision) (next : Indexing) (formula : Expr) : List Expr :=
  formula :: (numbered precision).map (equivalence next)

def assertEquivalence (next : Indexing) (item : Expr × Nat) : Query Unit := do
  Query.add (← Computation.ofFormula
    (Expr.mkIff (activation item.2).toExpr (item.1.unfold next)))

/-- The cube that a model selects. -/
def selectCube (precision : PredicatePrecision) (model : Valuation) : Query PredicateState := do
  return cube (← Computation.ofFormula (selectLiterals model (numbered precision)))

/-- The query for the states of a formula. -/
def statesQuery (precision : PredicatePrecision) (next : Indexing) (formula : Expr) :
    Query (List PredicateState) := do
  Query.add formula
  (numbered precision).forM (assertEquivalence next)
  match ← Query.allModels (activations precision) none with
  | none => return [top]
  | some models => models.mapM (selectCube precision)

variable {precision : PredicatePrecision} {next : Indexing} {base base' : List Expr}
  {states states' : List PredicateState}

/-- The cubes are selected by projections that account for all solutions. -/
def Reads (config : SolverConfig) (precision : PredicatePrecision) (base : List Expr)
    (states : List PredicateState) : Prop :=
  ∃ projections, Lists config (activations precision) base projections ∧
    List.Forall₂ (fun projection state => ∃ literals,
      selectLiterals projection (numbered precision) = .ok literals ∧ state = cube literals)
      projections states

theorem sorted_selectLiterals {model : Valuation} {items : List (Expr × Nat)}
    (selected : selectLiterals model items = .ok literals) : OrderedSet.Sorted literals := by
  induction items generalizing literals with
  | nil =>
      cases selected
      exact List.Pairwise.nil
  | cons item items ih =>
      unfold selectLiterals at selected
      split at selected
      · obtain ⟨rest, selectedRest, made⟩ := exists_of_bind_eq_ok selected
        cases made
        exact (ih selectedRest).insert _
      · obtain ⟨_, -, made⟩ := exists_of_bind_eq_ok selected
        obtain ⟨rest, selectedRest, made⟩ := exists_of_bind_eq_ok made
        cases made
        exact (ih selectedRest).insert _
      · exact ih selected

/-- The cubes of formulas with fewer solutions are among those with more solutions. -/
theorem Reads.mono (lawful : config.Lawful)
    (narrower : ∀ values, config.Solution base values → config.Solution base' values)
    (occurs : ∀ symbol ∈ activations precision, Occurs symbol base ∧ Occurs symbol base')
    (reads : Reads config precision base states) (reads' : Reads config precision base' states') :
    ∀ next ∈ states, ∃ next' ∈ states', next.leq next' = true := by
  intro next member
  obtain ⟨projections, lists, selects⟩ := reads
  obtain ⟨projections', lists', selects'⟩ := reads'
  obtain ⟨projection, isProjection, literals, selected, rfl⟩ := exists_of_forall₂ selects member
  have projects := lists.projects projection isProjection
  obtain ⟨values, solution, isMatch⟩ := projects.exists_solution lawful
  obtain ⟨projection', isProjection', isMatch'⟩ := lists'.complete (narrower values solution)
  have projects' := lists'.projects projection' isProjection'
  -- All variables of predicates occur on both sides, so the projections are equal.
  obtain rfl : projection = projection' := by
    refine Valuation.ext_of_sorted projects.sorted projects'.sorted fun entry => ?_
    rw [projects.mem_entries isMatch, projects'.mem_entries isMatch']
    refine and_congr_left fun _ => and_congr_right fun listed => ?_
    exact iff_of_true (occurs entry.1 listed).1 (occurs entry.1 listed).2
  obtain ⟨next', isNext', literals', selected', rfl⟩ :=
    exists_of_forall₂ selects'.flip isProjection'
  rw [selected] at selected'
  cases selected'
  refine ⟨_, isNext', ?_⟩
  unfold leq OrderedSet.isSubset
  rw [List.all_eq_true]
  exact fun literal member => (sorted_selectLiterals selected).contains_iff.mpr member

variable {alphabet : List Symbol} {formulas : List Expr} {state : OpenSession}

theorem keeps_assertEquivalences {items : List (Expr × Nat)}
    (listed : ∀ item ∈ items, ∀ symbol ∈ (equivalence next item).symbols, symbol ∈ alphabet)
    (serves : state.Few → state.Serves config alphabet formulas) :
    (items.forM (assertEquivalence next) : Query PUnit).Keeps state fun _ after =>
      after.Serves config alphabet (formulas ++ items.map (equivalence next)) := by
  induction items generalizing formulas state with
  | nil =>
      apply keeps_pure
      rwa [List.map_nil, List.append_nil]
  | cons item items ih =>
      obtain ⟨here, later⟩ := List.forall_mem_cons.mp listed
      have asserted : (assertEquivalence next item).Keeps state fun _ after =>
          after.Serves config alphabet (formulas ++ [equivalence next item]) := by
        refine keeps_bind_ofFormula fun formula built => ?_
        obtain rfl : formula = equivalence next item := by
          obtain ⟨_, -, built⟩ := exists_of_bind_eq_ok built
          obtain ⟨_, -, built⟩ := exists_of_bind_eq_ok built
          cases built
          rfl
        apply (keeps_add serves fun _ => here).mono
        exact fun _ _ _ _ served => served.1
      have appended : formulas ++ (item :: items).map (equivalence next) =
          formulas ++ [equivalence next item] ++ items.map (equivalence next) := by
        rw [List.map_cons, List.append_assoc, List.singleton_append]
      rw [appended]
      apply keeps_bind asserted
      intro _ after _ served
      exact ih later served

theorem keeps_selectCubes (models : List Valuation) :
    (models.mapM (selectCube precision) : Query (List PredicateState)).Keeps state
      fun states _ => List.Forall₂ (fun model state => ∃ literals,
        selectLiterals model (numbered precision) = .ok literals ∧ state = cube literals)
        models states := by
  induction models generalizing state with
  | nil => exact keeps_pure fun _ => .nil
  | cons model models ih =>
      rw [List.mapM_cons]
      have selects : (selectCube precision model).Keeps state fun cubed _ =>
          ∃ literals, selectLiterals model (numbered precision) = .ok literals ∧
            cubed = cube literals :=
        keeps_bind_ofFormula fun literals selected =>
          keeps_pure fun _ => ⟨literals, selected, rfl⟩
      apply keeps_bind selects
      intro cubed _ _ selected
      apply keeps_bind ih
      intro states _ evolves rest
      exact keeps_pure fun few => .cons (selected (few.of_evolves evolves)) (rest few)

/-- The symbols of the query. -/
def symbolsOf (precision : PredicatePrecision) (next : Indexing) (formula : Expr) : List Symbol :=
  Expr.collectSymbolsAll (assertions precision next formula) []

/-- What the query gives. -/
theorem keeps_statesQuery {formula : Expr} (workable : config.Workable)
    (fewLevels : Encoding.levelTotal config (symbolsOf precision next formula) < 2147483648)
    (plain : ∀ assertion ∈ assertions precision next formula, assertion.choosesTruth = false)
    (serves : state.Serves config (symbolsOf precision next formula) []) :
    (statesQuery precision next formula).Keeps state fun states _ =>
      Reads config precision (assertions precision next formula) states := by
  have listed : ∀ assertion ∈ assertions precision next formula, ∀ symbol ∈ assertion.symbols,
      symbol ∈ symbolsOf precision next formula := fun assertion member symbol occurs =>
    (Expr.mem_collectSymbolsAll _ _).mpr (.inr ⟨assertion, member, occurs⟩)
  obtain ⟨here, later⟩ := List.forall_mem_cons.mp listed
  unfold statesQuery
  apply keeps_bind (keeps_add (fun _ => serves) fun _ => here)
  intro _ asserted _ served
  apply keeps_bind (keeps_assertEquivalences (List.forall_mem_map.mp later) fun few =>
    (served few).1)
  intro _ prepared _ served'
  apply keeps_bind (keeps_allModels workable fewLevels plain listed served')
  intro models enumerated _ listing
  cases models with
  | none =>
      apply keeps_pure
      intro few
      obtain ⟨_, exceeds⟩ := (listing few).1.1
      obtain ⟨bound, isLimit, -⟩ := exceeds.exceeds
      cases isLimit
  | some projections =>
      apply (keeps_selectCubes projections).mono
      intro states after evolves few selected
      exact ⟨projections, (listing (few.of_evolves evolves)).1.1.1, selected⟩

/-- The run of the query for the states of a formula. -/
def statesRun (config : SolverConfig) (precision : PredicatePrecision) (next : Indexing)
    (formula : Expr) (world : SolverStatistics) : OpenSession :=
  (statesQuery precision next formula (opened config .forIncrementalUse world)).2

theorem ensures_assertEquivalences_of_undecided {items : List (Expr × Nat)}
    (undecided : state.session.Undecided config) :
    (items.forM (assertEquivalence next) : Query PUnit).Ensures state fun _ after =>
      after.session.Undecided config := by
  induction items generalizing state with
  | nil => exact (ensures_pure _).mpr undecided
  | cons item items ih =>
      have asserted : (assertEquivalence next item).Ensures state fun _ after =>
          after.session.Undecided config := by
        unfold assertEquivalence
        rw [ensures_bind, ensures_ofFormula]
        exact fun formula _ => ensures_add_of_undecided undecided formula
      show Computation.Ensures
        (assertEquivalence next item >>= fun _ => items.forM (assertEquivalence next)) state _
      rw [ensures_bind]
      exact asserted.mono fun _ _ undecided' => ih undecided'

/-- States are found only if no deadline passes. -/
theorem punctual_of_statesOf {formula : Expr} {world after : SolverStatistics}
    (run : statesOf config precision next formula world = (.ok states, after)) :
    config.timeoutPasses = false := by
  rw [Bool.eq_false_iff]
  intro late
  have undecided : (Session.start config .forIncrementalUse).Undecided config :=
    ⟨rfl, late, by rintro _ ⟨⟩⟩
  have never : (statesQuery precision next formula).Ensures
      (opened config .forIncrementalUse world) fun _ _ => False := by
    unfold statesQuery
    rw [ensures_bind]
    apply (ensures_add_of_undecided undecided formula).mono
    intro _ asserted undecided'
    rw [ensures_bind]
    apply (ensures_assertEquivalences_of_undecided undecided').mono
    intro _ prepared prepared'
    rw [ensures_bind]
    exact (ensures_allModels_of_undecided prepared').mono fun _ _ never => never.elim
  exact Query.of_inSession never run

theorem reads_of_statesOf {formula : Expr} {world after : SolverStatistics}
    (workable : config.Workable)
    (fewLevels : Encoding.levelTotal config (symbolsOf precision next formula) < 2147483648)
    (plain : ∀ assertion ∈ assertions precision next formula, assertion.choosesTruth = false)
    (few : (statesRun config precision next formula world).Few)
    (run : statesOf config precision next formula world = (.ok states, after)) :
    Reads config precision (assertions precision next formula) states :=
  have serves := opened_serves workable.lawful (punctual_of_statesOf run) .forIncrementalUse world
    (symbolsOf precision next formula)
  (keeps_statesQuery workable fewLevels plain serves).of_inSession few run

section Successors

variable {α : Type} [ExprAction α] {action : α} {initial : Expr}
  {world world' after after' : SolverStatistics}

/-- The query for the successors of a cube meets no limit, over formulas that do not choose
between truth values. -/
structure Answerable (config : SolverConfig) (precision : PredicatePrecision)
    (literals : List Expr) (action : α) (world : SolverStatistics) : Prop where
  plainLiterals : ∀ literal ∈ literals, (literal.unfold (.constant 0)).choosesTruth = false
  plainPredicates : ∀ predicate ∈ precision.predicates,
    (predicate.unfold (ExprAction.nextIndexing action)).choosesTruth = false
  plainAction : ((ExprAction.toExpr action).unfold (.constant 0)).choosesTruth = false
  fewLevels {formula : Expr} :
    Expr.mkAnd [ExprState.toExpr (cube literals), ExprAction.toExpr action] = .ok formula →
      Encoding.levelTotal config (symbolsOf precision (ExprAction.nextIndexing action)
        (formula.unfold (.constant 0))) < 2147483648
  unlimited {formula : Expr} :
    Expr.mkAnd [ExprState.toExpr (cube literals), ExprAction.toExpr action] = .ok formula →
      MeetsNoLimit config .forIncrementalUse (statesQuery precision
        (ExprAction.nextIndexing action) (formula.unfold (.constant 0))) world

/-- A state that is not bottom has an answerable query. -/
def Regular (config : SolverConfig) (precision : PredicatePrecision) (state : PredicateState)
    (action : α) (world : SolverStatistics) : Prop :=
  ∀ literals, state = cube literals → Answerable config precision literals action world

/-- The successors are the states of the formula of the state and the action. -/
theorem exists_statesOf_of_successors
    (run : (analysis config initial).successors precision (cube literals) action world =
      (.ok states, after)) :
    ∃ formula, Expr.mkAnd [ExprState.toExpr (cube literals), ExprAction.toExpr action] =
        .ok formula ∧
      statesOf config precision (ExprAction.nextIndexing action)
        (formula.unfold (.constant 0)) world = (.ok states, after) := by
  have ensures : ((analysis config initial).successors precision (cube literals)
      action).Ensures world fun states' after' => (states' = states ∧ after' = after) →
        ∃ formula, Expr.mkAnd [ExprState.toExpr (cube literals), ExprAction.toExpr action] =
            .ok formula ∧
          statesOf config precision (ExprAction.nextIndexing action)
            (formula.unfold (.constant 0)) world = (.ok states, after) := by
    unfold analysis
    dsimp only
    rw [if_neg (by rintro ⟨⟩), ensures_bind, ensures_ofFormula]
    intro formula built
    apply ensures_of_run
    rintro states' after' returned ⟨rfl, rfl⟩
    exact ⟨formula, built, returned⟩
  exact ensures.of_run run ⟨rfl, rfl⟩

theorem Answerable.reads (answerable : Answerable config precision literals action world)
    (trusted : config.Trusted)
    (run : (analysis config initial).successors precision (cube literals) action world =
      (.ok states, after)) :
    ∃ formula, Expr.IsConjunction
        [ExprState.toExpr (cube literals), ExprAction.toExpr action] formula ∧
      Reads config precision (assertions precision (ExprAction.nextIndexing action)
        (formula.unfold (.constant 0))) states := by
  obtain ⟨formula, built, run⟩ := exists_statesOf_of_successors run
  have isConjunction := Expr.isConjunction_of_mkAnd built
  have plain : ∀ assertion ∈ assertions precision (ExprAction.nextIndexing action)
      (formula.unfold (.constant 0)), assertion.choosesTruth = false := by
    refine List.forall_mem_cons.mpr ⟨(isConjunction.unfold (.constant 0)).plain ?_, ?_⟩
    · simp only [List.map_cons, List.map_nil, List.forall_mem_cons]
      exact ⟨plain_unfold answerable.plainLiterals, answerable.plainAction,
        List.forall_mem_nil _⟩
    · rw [List.forall_mem_map]
      intro item member
      exact answerable.plainPredicates item.1 (List.fst_mem_of_mem_zipIdx member)
  exact ⟨formula, isConjunction, reads_of_statesOf trusted.workable (answerable.fewLevels built)
    plain (answerable.unlimited built).calm.few run⟩

theorem occurs_activations {formula : Expr} {symbol : Symbol}
    (member : symbol ∈ activations precision) :
    Occurs symbol (assertions precision next formula) := by
  obtain ⟨item, isItem, rfl⟩ := List.mem_map.mp member
  refine ⟨equivalence next item, List.mem_cons_of_mem _ (List.mem_map_of_mem isItem), ?_⟩
  exact Expr.mem_symbols_binary.mpr (.inl (Expr.mem_symbols_sym.mpr rfl))

/-- The successors of a state are subsumed by those of a state that subsumes it. -/
theorem successors_mono {state other : PredicateState} (trusted : config.Trusted)
    (leq : state.leq other = true) (regular : state.Regular config precision action world)
    (regular' : other.Regular config precision action world')
    (run : (analysis config initial).successors precision state action world =
      (.ok states, after))
    (run' : (analysis config initial).successors precision other action world' =
      (.ok states', after')) :
    ∀ next ∈ states, ∃ next' ∈ states', next.leq next' = true := by
  cases state with
  | bottom =>
      cases run
      exact List.forall_mem_nil _
  | cube literals =>
      cases other with
      | bottom => cases leq
      | cube literals' =>
          have subset : ∀ literal ∈ literals', literal ∈ literals := by
            intro literal member
            unfold PredicateState.leq OrderedSet.isSubset at leq
            exact OrderedSet.mem_of_contains (List.all_eq_true.mp leq literal member)
          obtain ⟨formula, isConjunction, reads⟩ := (regular literals rfl).reads trusted run
          obtain ⟨formula', isConjunction', reads'⟩ := (regular' literals' rfl).reads trusted run'
          refine reads.mono trusted.lawful (fun values solution => ⟨solution.admits, ?_⟩)
            (fun symbol member => ⟨occurs_activations member, occurs_activations member⟩) reads'
          obtain ⟨holds, equivalences⟩ := List.forall_mem_cons.mp solution.fulfills
          refine List.forall_mem_cons.mpr ⟨?_, equivalences⟩
          rw [(isConjunction.unfold (.constant 0)).truth_iff] at holds
          rw [(isConjunction'.unfold (.constant 0)).truth_iff]
          simp only [List.map_cons, List.map_nil, List.forall_mem_cons] at holds ⊢
          exact ⟨truth_unfold_mono subset holds.1, holds.2⟩

end Successors

end PredicateState

end AbstractionRefinement
