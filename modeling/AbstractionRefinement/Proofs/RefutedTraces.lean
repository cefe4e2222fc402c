import AbstractionRefinement.Proofs.AtomicDecisions
import AbstractionRefinement.Proofs.ExactJoins
import AbstractionRefinement.Proofs.ExplicitAbstractions
import AbstractionRefinement.Proofs.InterpolantSymbols
import AbstractionRefinement.Proofs.RecordedCalls
import AbstractionRefinement.Proofs.SequenceInterpolants
import AbstractionRefinement.Proofs.TransferMonotonicity

/-!
# Refuted traces

An explorer replays a trace if it lists states below those of the trace, one after the other
along the same edges, up to a target.  Interpolants that refute a trace rule this out once the
precision tracks what they speak about.  A listed state then contains a store that is really
reached from the state before, and its other stores look the same to the interpolants.  So by
induction along the trace every store of the listed states satisfies the interpolant at its
position, which the last interpolant excludes.
-/

namespace AbstractionRefinement

open AbstractionRefinement.Computation

namespace Expr

variable {condition : Expr} {store other : Store}

theorem IsCurrent.holds_congr (current : condition.IsCurrent)
    (agree : ∀ decl ∈ condition.vars, store decl = other decl) :
    condition.Holds store ↔ condition.Holds other := by
  unfold Holds
  rw [evalBool_congr fun symbol occurs => ?_]
  obtain ⟨decl, index⟩ := symbol
  obtain rfl : index = none := current.index_eq_none _ occurs
  exact congrArg some (agree decl (mem_vars.mpr ⟨_, occurs, rfl⟩))

theorem optionHasType_read (inRange : ∀ decl, (store decl).HasType decl.ty) (symbol : Symbol) :
    OptionHasType (store.read symbol) symbol.ty := by
  intro value known
  unfold Store.read at known
  split at known
  case isTrue =>
    cases known
    exact inRange symbol.decl
  case isFalse => cases known

theorem WellTyped.holds_congr (wellTyped : condition.WellTyped) (boolean : condition.ty = .bool)
    (typed : ∀ decl, (store decl).HasType decl.ty) (typed' : ∀ decl, (other decl).HasType decl.ty)
    (same : ∀ atom ∈ condition.atoms, atom.evalBool store.read = atom.evalBool other.read) :
    condition.Holds store ↔ condition.Holds other := by
  have skeleton := wellTyped.skeleton boolean
  unfold Holds evalBool
  rw [skeleton.eval_congr fun atom member => ?_]
  have isAtom := skeleton.isAtom member
  rw [isAtom.eval_eq (optionHasType_read typed), isAtom.eval_eq (optionHasType_read typed'),
    same atom member]

end Expr

/-- The state contains one of the stores, and to the conditions each of its stores looks like one
of them. -/
structure Attested {σ : Type} [ExprState σ] (config : SolverConfig) (stores : Store → Prop)
    (conditions : List Expr) (state : σ) : Prop where
  attained : ∃ store, stores store ∧ (ExprState.toExpr state).Holds store
  mirrors {store : Store} : config.InRange store → (ExprState.toExpr state).Holds store →
    ∃ other, stores other ∧ (ExprState.toExpr state).Holds other ∧
      ∀ condition ∈ conditions, condition.Holds other → condition.Holds store

section Replays

variable {ω σ α π : Type} (explorer : Explorer ω σ α π) (precision : π)

/-- From the state on, states below those of the steps are listed under the same actions, up to a
target. -/
inductive Explorer.ReplaysFrom : σ → List (α × σ) → Prop
  | done {state : σ} (hits : explorer.Hits state) : ReplaysFrom state []
  | step {state next bound : σ} {action : α} {steps : List (α × σ)}
      (lists : explorer.Steps precision state action next)
      (below : explorer.analysis.leq precision next bound = true)
      (rest : ReplaysFrom next steps) : ReplaysFrom state ((action, bound) :: steps)

/-- States below those of the trace are listed under its actions, up to a target. -/
def Explorer.Replays (trace : Trace σ α) : Prop :=
  ∃ state, explorer.Starts precision state ∧
    explorer.analysis.leq precision state trace.first = true ∧
      explorer.ReplaysFrom precision state trace.steps

end Replays

theorem Relates.mono {α : Type} [ExprAction α] {config ranges : SolverConfig} {action : α}
    {store next : Store} (relates : Relates config action store next)
    (wider : ∀ decl value, config.Admits decl value → ranges.Admits decl value) :
    Relates ranges action store next :=
  have ⟨values, admitted, rest⟩ := relates
  ⟨values, fun symbol => wider _ _ (admitted symbol), rest⟩

/-- A store to which the edge leads is related to one with the condition. -/
theorem SolverConfig.Reached.exists_relates {config : SolverConfig} {edge : ControlEdge}
    {condition : Expr} {final : Store} (reached : config.Reached condition edge.statements final)
    (regular : edge.Regular config) :
    ∃ store, condition.Holds store ∧ config.InRange store ∧ Relates config edge store final := by
  obtain ⟨store, holds, executes⟩ := reached
  obtain ⟨values, admitted, begins, ends, describes⟩ :=
    executes.exists_describes (Indexing.constant 0).get
  obtain ⟨spellsOut, after⟩ := regular.toProper.spellsOut (.constant 0)
  have sameVersions : versionsAfter (Indexing.constant 0).get edge.statements = edge.next.get := by
    rw [← after]
    funext decl
    rw [Indexing.get_add, Indexing.get_constant, Nat.zero_add]
  rw [sameVersions] at ends
  exact ⟨store, holds, executes.inside_first, values, admitted, begins, ends,
    (spellsOut.holds values).mpr describes _ (List.mem_singleton_self _)⟩

section Attesting

variable {ω σ π : Type} [ExprState σ]

/-- Under the precision only attested states are listed. -/
structure Explorer.Attests (explorer : Explorer ω σ ControlEdge π) (config : SolverConfig)
    (initial : Expr) (precision : π) (conditions : List Expr) (admissible : σ → Prop) : Prop where
  starts {state : σ} : explorer.Starts precision state → admissible state ∧
    Attested config (fun store => initial.Holds store ∧ config.InRange store) conditions state
  steps {state next : σ} {edge : ControlEdge} : admissible state → edge.Regular config →
    explorer.Steps precision state edge next → admissible next ∧
      Attested config (config.Reached (ExprState.toExpr state) edge.statements) conditions next
  below {state bound : σ} {store : Store} : admissible state →
    explorer.analysis.leq precision state bound = true → (ExprState.toExpr state).Holds store →
      (ExprState.toExpr bound).Holds store

namespace Explorer.Attests

variable {explorer : Explorer ω σ ControlEdge π} {config ranges : SolverConfig} {initial : Expr}
  {precision : π} {conditions : List Expr} {admissible : σ → Prop} {trace : Trace σ ControlEdge}
  (attests : explorer.Attests config initial precision conditions admissible)
  (wider : ∀ decl value, config.Admits decl value → ranges.Admits decl value)
  (along : InductiveAlong ranges initial .top trace conditions)
  (regular : ∀ edge ∈ trace.actions, edge.Regular config)
include attests wider along regular

/-- If every store of a listed state satisfies the condition at its position, the rest of the
trace is not replayed from there. -/
theorem not_replaysFrom {position : Nat} {state : σ} {steps : List (ControlEdge × σ)}
    (remaining : trace.steps.drop position = steps) (inside : position ≤ trace.length)
    (isAdmissible : admissible state)
    (inhabited : ∃ store, config.InRange store ∧ (ExprState.toExpr state).Holds store)
    (satisfies : ∀ condition, conditions[position]? = some condition → ∀ store,
      config.InRange store → (ExprState.toExpr state).Holds store → condition.Holds store) :
    ¬ explorer.ReplaysFrom precision state steps := by
  intro replays
  have exists_condition {index : Nat} (le : index ≤ trace.length) :
      ∃ condition, conditions[index]? = some condition :=
    ⟨_, List.getElem?_eq_getElem (by rw [along.length_eq]; exact Nat.lt_succ_of_le le)⟩
  induction replays generalizing position with
  | done hits =>
      obtain rfl : position = trace.length :=
        Nat.le_antisymm inside (List.drop_eq_nil_iff.mp remaining)
      obtain ⟨condition, isLast⟩ := exists_condition inside
      obtain ⟨store, inRange, holds⟩ := inhabited
      refine along.excludes ?_ (fun decl => wider _ _ (inRange decl))
        (satisfies condition isLast store inRange holds) rfl
      rw [List.getLast?_eq_getElem?, along.length_eq, Nat.add_sub_cancel, isLast]
  | @step state next bound edge steps lists below _ ih =>
      have isStep : trace.steps[position]? = some (edge, bound) := by
        rw [← List.head?_drop, remaining, List.head?_cons]
      have rest : trace.steps.drop (position + 1) = steps := by
        rw [← List.tail_drop, remaining, List.tail_cons]
      obtain ⟨bound', -⟩ := List.getElem?_eq_some_iff.mp isStep
      have member : edge ∈ trace.actions := List.mem_map_of_mem (List.mem_of_getElem? isStep)
      obtain ⟨nextAdmissible, attested⟩ := attests.steps isAdmissible (regular edge member) lists
      obtain ⟨condition, isBefore⟩ := exists_condition inside
      refine ih rest bound' nextAdmissible ?_ fun after isAfter store inRange holds => ?_
      · obtain ⟨store, ⟨_, -, executes⟩, holds⟩ := attested.attained
        exact ⟨store, executes.inside_last, holds⟩
      · obtain ⟨other, reached, holdsOther, mirrors⟩ := attested.mirrors inRange holds
        obtain ⟨before, holdsBefore, inRangeBefore, relates⟩ :=
          reached.exists_relates (regular edge member)
        exact mirrors after (List.mem_of_getElem? isAfter)
          (along.advances isStep isBefore isAfter
            (satisfies condition isBefore before inRangeBefore holdsBefore)
            (relates.mono wider) (attests.below nextAdmissible below holdsOther))

theorem not_replays : ¬ explorer.Replays precision trace := by
  rintro ⟨state, starts, below, replays⟩
  obtain ⟨isAdmissible, attested⟩ := attests.starts starts
  refine attests.not_replaysFrom wider along regular (List.drop_zero ..) (Nat.zero_le _)
    isAdmissible ?_ (fun condition isFirst store inRange holds => ?_) replays
  · obtain ⟨store, ⟨-, inRange⟩, holds⟩ := attested.attained
    exact ⟨store, inRange, holds⟩
  · obtain ⟨other, ⟨isInitial, inRangeOther⟩, holdsOther, mirrors⟩ :=
      attested.mirrors inRange holds
    exact mirrors condition (List.mem_of_getElem? isFirst) (along.reached isFirst
      (.start (fun decl => wider _ _ (inRangeOther decl)) isInitial
        (attests.below isAdmissible below holdsOther)))

end Explorer.Attests

end Attesting

namespace Located

variable {ω σ π : Type} {automaton : ControlFlowAutomaton} {inner : Analysis ω σ ControlEdge π}
  {strategy : SearchStrategy} {stop : StopCriterion} {coverage : CoverageMode}
  {admits : VerifierCall ω (Located σ) ControlEdge π → Prop} [DecidablePred admits] {precision : π}

theorem attested [ExprState σ] {config : SolverConfig} {stores : Store → Prop}
    {conditions : List Expr} {located : Located σ}
    (attested : Attested config stores conditions located.state) :
    Attested config stores conditions located :=
  ⟨attested.attained, attested.mirrors⟩

theorem exists_initialStates {located : Located σ}
    (starts : ((explorer automaton inner strategy stop coverage).restricted admits).Starts precision
      located) :
    ∃ world states after, admits (.initialStates precision world) ∧
      inner.initialStates precision world = (.ok states, after) ∧ located.state ∈ states := by
  obtain ⟨world, states, after, run, member⟩ := starts
  obtain ⟨admitted, run⟩ := Analysis.initialStates_of_restricted run
  obtain ⟨inners, runInner, rfl⟩ := initialStates_run run
  obtain ⟨state, isInner, rfl⟩ := List.mem_map.mp member
  exact ⟨world, inners, after, admitted, runInner, isInner⟩

theorem exists_successors {located next : Located σ} {edge : ControlEdge}
    (steps : ((explorer automaton inner strategy stop coverage).restricted admits).Steps precision
      located edge next) :
    ∃ world states after, admits (.successors precision located edge world) ∧
      inner.successors precision located.state edge world = (.ok states, after) ∧
        next.state ∈ states := by
  obtain ⟨-, world, states, after, run, member⟩ := steps
  obtain ⟨admitted, run⟩ := Analysis.successors_of_restricted run
  rcases successors_run run with ⟨-, rfl⟩ | ⟨-, inners, runInner, rfl⟩
  · cases member
  · obtain ⟨state, isInner, rfl⟩ := List.mem_map.mp member
    exact ⟨world, inners, after, admitted, runInner, isInner⟩

end Located

/-- Symbols that do not occur can take the values of another store. -/
theorem Expr.Denotes.exists_mirrored {config : SolverConfig} {formula : Expr}
    {versions : VarDecl → Nat} {stores : Store → Prop}
    (denotes : formula.Denotes config versions stores) {other store : Store}
    (reached : stores other) (inRange : config.InRange store) :
    ∃ final, stores final ∧ ∀ decl,
      (⟨decl, some (versions decl)⟩ ∈ formula.symbols → final decl = other decl) ∧
        (⟨decl, some (versions decl)⟩ ∉ formula.symbols → final decl = store decl) := by
  classical
  obtain ⟨values, ⟨admits, fulfills⟩, rfl⟩ := denotes.stands.mp reached
  let mixed (symbol : Symbol) : Value :=
    if symbol ∈ formula.symbols then values symbol else store symbol.decl
  have solution : config.Solution [formula] mixed := by
    refine ⟨fun symbol => ?_, List.forall_mem_singleton.mpr ?_⟩
    · dsimp only [mixed]
      split
      · exact admits symbol
      · exact inRange symbol.decl
    · rw [← fulfills formula (List.mem_singleton_self _)]
      exact Expr.truth_congr fun symbol occurs => congrArg some (if_pos occurs)
  exact ⟨_, denotes.of_solution solution, fun decl =>
    ⟨fun occurs => if_pos occurs, fun absent => if_neg absent⟩⟩

namespace ExplicitState

variable {config : SolverConfig} {precision : ExplicitPrecision} {next : Indexing}
  {formula initial : Expr} {stores : Store → Prop} {conditions : List Expr}
  {world after : SolverStatistics} {state bound : ExplicitState} {states : List ExplicitState}

/-- The state assigns one value of its type to each of some variables. -/
def Assigns (state : ExplicitState) : Prop :=
  ∃ valuation, state = values valuation ∧ valuation.Typed ∧ OrderedMap.Sorted valuation.entries

theorem Assigns.leq_refl (assigns : state.Assigns) : state.leq state = true := by
  obtain ⟨valuation, rfl, -, sorted⟩ := assigns
  exact leq_values.mpr fun entry member => sorted.find?_eq_some_iff.mpr member

theorem Assigns.regularCondition (assigns : state.Assigns) (config : SolverConfig) :
    (ExprState.toExpr state).RegularCondition config := by
  obtain ⟨valuation, rfl, typed, -⟩ := assigns
  exact typed.regularCondition config

theorem Assigns.holds_of_leq (assigns : state.Assigns) (below : state.leq bound = true)
    {store : Store} (holds : (ExprState.toExpr state).Holds store) :
    (ExprState.toExpr bound).Holds store := by
  obtain ⟨valuation, rfl, typed, -⟩ := assigns
  cases bound with
  | bottom => cases below
  | values other =>
      have inside : other.entries ⊆ valuation.entries := fun entry member =>
        OrderedMap.mem_of_find? (leq_values.mp below entry member)
      have typedOther : other.Typed := fun entry member => typed entry (inside member)
      refine typedOther.holds_toExpr.mpr fun entry member => ?_
      exact typed.holds_toExpr.mp holds entry (inside member)

/-- The states of a formula are attested where the variables of the conditions are tracked. -/
theorem attested_of_statesOf (workable : config.Workable)
    (denotes : formula.Denotes config next.get stores)
    (affordable : Affordable config none precision next formula world)
    (run : statesOf config none precision next formula world = (.ok states, after))
    (tracked : ∀ condition ∈ conditions, condition.IsCurrent ∧
      ∀ decl ∈ condition.vars, decl ∈ precision.vars) (member : state ∈ states) :
    state.Assigns ∧ Attested config stores conditions state := by
  have best := bestWithin_of_statesOf workable denotes affordable run
  have tight := best.tight (by rintro ⟨-, _, ⟨⟩, -⟩)
  obtain ⟨valuation, rfl, typed, sorted⟩ :=
    typed_of_statesOf workable denotes affordable run state member
  obtain ⟨other, reached, holds⟩ := tight.attained _ member
  refine ⟨⟨valuation, rfl, typed, sorted⟩, ⟨other, reached, holds⟩,
    fun {store} inRange holdsStore => ?_⟩
  obtain ⟨final, reachedFinal, mixed⟩ := denotes.exists_mirrored reached inRange
  have assigned := typed.holds_toExpr.mp holds
  have assignedStore := typed.holds_toExpr.mp holdsStore
  refine ⟨final, reachedFinal, typed.holds_toExpr.mpr fun entry isEntry => ?_,
    fun condition isCondition => ?_⟩
  · by_cases occurs : ⟨entry.1.decl, some (next.get entry.1.decl)⟩ ∈ formula.symbols
    · exact ((mixed _).1 occurs).trans (assigned entry isEntry)
    · exact ((mixed _).2 occurs).trans (assignedStore entry isEntry)
  · obtain ⟨current, inPrecision⟩ := tracked condition isCondition
    refine (current.holds_congr fun decl isVar => ?_).mp
    by_cases occurs : ⟨decl, some (next.get decl)⟩ ∈ formula.symbols
    · obtain ⟨_, value, same, known⟩ :=
        tight.complete _ member decl (inPrecision decl isVar) occurs
      cases same
      have isEntry := OrderedMap.mem_of_find? known
      exact ((mixed decl).1 occurs).trans
        ((assigned _ isEntry).trans (assignedStore _ isEntry).symm)
    · exact (mixed decl).2 occurs

/-- The session that the analysis of explicit states takes for a call allocates few nodes, and its
Boolean variables can be numbered. -/
def AffordableCall (config : SolverConfig) (initial : Expr) :
    VerifierCall SolverStatistics (Located ExplicitState) ControlEdge ExplicitPrecision → Prop
  | .initialStates precision world =>
      Affordable config none precision (.constant 0) (initial.unfold (.constant 0)) world
  | .successors precision located edge world =>
      Affordable config none precision edge.next (edge.query located.state) world
  | .refinement .. => True

variable {automaton : ControlFlowAutomaton} {strategy : SearchStrategy} {stop : StopCriterion}
  {coverage : CoverageMode} {admits : VerifierCall SolverStatistics (Located ExplicitState)
    ControlEdge ExplicitPrecision → Prop} [DecidablePred admits]

theorem attests (workable : config.Workable) (regularInitial : initial.RegularCondition config)
    (affordable : ∀ call, admits call → AffordableCall config initial call)
    (tracked : ∀ condition ∈ conditions, condition.IsCurrent ∧
      ∀ decl ∈ condition.vars, decl ∈ precision.vars) :
    ((Located.explorer automaton (analysis config initial none) strategy stop coverage).restricted
      admits).Attests config initial precision conditions fun located => located.state.Assigns where
  starts listed := by
    obtain ⟨world, states, after, admitted, run, member⟩ := Located.exists_initialStates listed
    exact (attested_of_statesOf workable (Expr.denotes_initial regularInitial)
      (affordable _ admitted) run tracked member).imp_right Located.attested
  steps {located next edge} assigns regularEdge listed := by
    obtain ⟨world, states, after, admitted, run, member⟩ := Located.exists_successors listed
    obtain ⟨valuation, isState, typed, -⟩ := assigns
    have transfers := affordable _ admitted
    simp only [AffordableCall, isState] at transfers run
    obtain ⟨formula, built, run⟩ := exists_statesOf_of_successors run
    rw [show formula.unfold (.constant 0) = edge.query (values valuation) from
      ControlEdge.query_of_mkAnd built] at run
    have attested := attested_of_statesOf workable
      (regularEdge.denotes (typed.regularCondition config)) transfers run tracked member
    rw [show ExprState.toExpr located = valuation.toExpr from congrArg ExprState.toExpr isState]
    exact attested.imp_right Located.attested
  below assigns below := assigns.holds_of_leq (Bool.and_eq_true_iff.mp below).2

end ExplicitState

namespace PredicateState

variable {config : SolverConfig} {precision : PredicatePrecision} {next : Indexing}
  {formula initial : Expr} {stores : Store → Prop} {conditions : List Expr}
  {world after : SolverStatistics} {state bound : PredicateState} {states : List PredicateState}

theorem holds_of_leq {literals : List Expr} (below : (cube literals).leq bound = true)
    {store : Store} (holds : (ExprState.toExpr (cube literals)).Holds store) :
    (ExprState.toExpr bound).Holds store := by
  rcases toExpr_cases literals with isBottom | ⟨isConjunction, boolean⟩
  · rw [isBottom] at holds
    cases holds
  cases bound with
  | bottom => cases below
  | cube others =>
      have inside : others ⊆ literals := fun literal member =>
        OrderedSet.mem_of_contains (List.all_eq_true.mp below literal member)
      refine (holds_cube fun literal member => boolean literal (inside member)).mpr ?_
      exact fun literal member => (holds_cube boolean).mp holds literal (inside member)

/-- Stores of a state that decides the atoms of a condition look the same to it. -/
theorem DecidesAll.holds_congr (decides : DecidesAll precision state) {condition : Expr}
    (proper : condition.ProperCondition)
    (tracked : ∀ atom ∈ condition.atoms, atom ∈ precision.predicates) {store other : Store}
    (typed : ∀ decl, (store decl).HasType decl.ty) (typed' : ∀ decl, (other decl).HasType decl.ty)
    (holds : (ExprState.toExpr state).Holds store)
    (holds' : (ExprState.toExpr state).Holds other) :
    condition.Holds store ↔ condition.Holds other := by
  obtain ⟨literals, rfl, each⟩ := decides
  refine proper.encodable.wellTyped.holds_congr proper.boolean typed typed' fun atom member => ?_
  obtain ⟨truth, isLiteral⟩ := each atom (tracked atom member)
  rw [evalBool_of_signed isLiteral holds, evalBool_of_signed isLiteral holds']

/-- A state is a cube of literals, and its formula is regular. -/
structure Admissible (config : SolverConfig) (state : PredicateState) : Prop where
  notBottom : state ≠ bottom
  regular : (ExprState.toExpr state).RegularCondition config

/-- States that abstract stores are attested where the atoms of the conditions are tracked. -/
theorem attested_of_abstracts
    (abstracts : Abstracts config stores False (DecidesAll precision) states)
    (inside : ∀ store, stores store → config.InRange store)
    (tracked : ∀ condition ∈ conditions, condition.ProperCondition ∧
      ∀ atom ∈ condition.atoms, atom ∈ precision.predicates) (member : state ∈ states) :
    state.Admissible config ∧ Attested config stores conditions state := by
  have tight := abstracts.tight not_false
  have decides := tight.complete state member
  obtain ⟨other, reached, holds⟩ := tight.attained state member
  refine ⟨⟨?_, abstracts.regular state member⟩, ⟨other, reached, holds⟩,
    fun {store} inRange holdsStore => ⟨other, reached, holds, fun condition isCondition => ?_⟩⟩
  · obtain ⟨literals, rfl, -⟩ := decides
    rintro ⟨⟩
  · obtain ⟨proper, atoms⟩ := tracked condition isCondition
    exact (decides.holds_congr proper atoms (fun decl => (inside other reached decl).1)
      (fun decl => (inRange decl).1) holds holdsStore).mp

/-- The session that the analysis of predicates takes for a call allocates few nodes, and its
Boolean variables can be numbered. -/
def AffordableCall (config : SolverConfig) (initial : Expr) :
    VerifierCall SolverStatistics (Located PredicateState) ControlEdge PredicatePrecision → Prop
  | .initialStates precision world =>
      Affordable config precision (.constant 0) (initial.unfold (.constant 0)) world
  | .successors precision located edge world =>
      Affordable config precision edge.next (edge.query located.state) world
  | .refinement .. => True

variable {automaton : ControlFlowAutomaton} {strategy : SearchStrategy} {stop : StopCriterion}
  {coverage : CoverageMode} {admits : VerifierCall SolverStatistics (Located PredicateState)
    ControlEdge PredicatePrecision → Prop} [DecidablePred admits]

theorem attests (workable : config.Workable) (wellFormed : precision.WellFormed)
    (regular : ∀ predicate ∈ precision.predicates, predicate.RegularCondition config)
    (regularInitial : initial.RegularCondition config)
    (affordable : ∀ call, admits call → AffordableCall config initial call)
    (tracked : ∀ condition ∈ conditions, condition.ProperCondition ∧
      ∀ atom ∈ condition.atoms, atom ∈ precision.predicates) :
    ((Located.explorer automaton (analysis config initial) strategy stop coverage).restricted
      admits).Attests config initial precision conditions
        fun located => located.state.Admissible config where
  starts listed := by
    obtain ⟨world, states, after, admitted, run, member⟩ := Located.exists_initialStates listed
    exact (attested_of_abstracts (initialStates_abstract workable wellFormed regular
      regularInitial (affordable _ admitted) run) (fun store starts => starts.2) tracked
      member).imp_right Located.attested
  steps admissible regularEdge listed := by
    obtain ⟨world, states, after, admitted, run, member⟩ := Located.exists_successors listed
    refine (attested_of_abstracts (successors_abstract workable wellFormed regular
      admissible.notBottom admissible.regular regularEdge (affordable _ admitted) run)
      (fun store reached => ?_) tracked member).imp_right Located.attested
    obtain ⟨_, -, executes⟩ := reached
    exact executes.inside_last
  below {located bound store} admissible below holds := by
    obtain ⟨location, state⟩ := located
    cases state with
    | bottom => exact absurd rfl admissible.notBottom
    | cube literals => exact holds_of_leq (Bool.and_eq_true_iff.mp below).2 holds

end PredicateState

namespace Trace

variable {σ : Type} [ExprState σ] {config : SolverConfig} {initial target : Expr}
  {trace : Trace σ ControlEdge} (regular : trace.Regular config initial target)
  {edge : ControlEdge} (member : edge ∈ trace.actions)
include regular member

theorem Regular.regularEdge : edge.Regular config := by
  obtain ⟨step, isStep, rfl⟩ := List.mem_map.mp member
  exact (regular.regularSteps step isStep).1

theorem Regular.timely : Timely edge := by
  have regularEdge := regular.regularEdge member
  exact ControlEdge.Validated.timely
    ⟨regularEdge.made, fun _ inside => (regularEdge.proper inside).valid⟩

end Trace

namespace TraceChecker.Refutes

variable {config ranges : SolverConfig} {initial : Expr} {path : PathFormula}
  {refutation : InterpolantRefutation} {automaton : ControlFlowAutomaton}
  {strategy : SearchStrategy} {stop : StopCriterion} {coverage : CoverageMode}

section Interpolated

variable {σ : Type} [ExprState σ] {trace : Trace σ ControlEdge} (workable : config.Workable)
  (trusted : 0 ≤ config.margin) (regular : trace.Regular config initial .top)
  (refutes : Refutes config ranges initial .top trace path refutation)
include workable trusted regular refutes

theorem interpolated_of_regular :
    Interpolated ranges .top trace path refutation.interpolants :=
  refutes.interpolated workable.lawful trusted workable.countable
    (fun formula member => ((regular.spellsOut refutes.written).2 formula member).encodable)
    fun _ => regular.timely

theorem inductiveAlong_of_regular :
    InductiveAlong ranges initial .top trace refutation.interpolants :=
  refutes.inductiveAlong workable.lawful trusted workable.countable
    (fun formula member => ((regular.spellsOut refutes.written).2 formula member).encodable)
    fun _ => regular.timely

end Interpolated

/-- Explicit states that track the variables of the interpolants do not replay the trace. -/
theorem not_replays_explicit (workable : config.Workable) (trusted : 0 ≤ config.margin)
    {trace : Trace (Located ExplicitState) ControlEdge}
    (regular : trace.Regular config initial .top)
    (refutes : Refutes config ranges initial .top trace path refutation)
    {admits : VerifierCall SolverStatistics (Located ExplicitState) ControlEdge
      ExplicitPrecision → Prop} [DecidablePred admits]
    (affordable : ∀ call, admits call → ExplicitState.AffordableCall config initial call)
    {precision : ExplicitPrecision} (tracked : ∀ decl ∈ refutation.vars, decl ∈ precision.vars) :
    ¬ ((Located.explorer automaton (ExplicitState.analysis config initial none) strategy stop
      coverage).restricted admits).Replays precision trace := by
  have interpolated := refutes.interpolated_of_regular workable trusted regular
  refine (ExplicitState.attests workable regular.regularInitial affordable ?_).not_replays
    (fun _ _ => refutes.admits_ranges workable.lawful trusted)
    (refutes.inductiveAlong_of_regular workable trusted regular) fun _ => regular.regularEdge
  intro condition member
  obtain ⟨position, isCondition⟩ := List.mem_iff_getElem?.mp member
  exact ⟨(interpolated.strongest isCondition).1.current, fun decl isVar =>
    tracked decl (InterpolantRefutation.mem_vars.mpr ⟨condition, member, isVar⟩)⟩

/-- Predicate states that track the atoms of the interpolants do not replay the trace. -/
theorem not_replays_predicates (workable : config.Workable) (trusted : 0 ≤ config.margin)
    {trace : Trace (Located PredicateState) ControlEdge}
    (regular : trace.Regular config initial .top)
    (refutes : Refutes config ranges initial .top trace path refutation)
    {admits : VerifierCall SolverStatistics (Located PredicateState) ControlEdge
      PredicatePrecision → Prop} [DecidablePred admits]
    (affordable : ∀ call, admits call → PredicateState.AffordableCall config initial call)
    {precision : PredicatePrecision} (wellFormed : precision.WellFormed)
    (regularPredicates : ∀ predicate ∈ precision.predicates, predicate.RegularCondition config)
    (tracked : ∀ atom ∈ refutation.atoms, atom ∈ precision.predicates) :
    ¬ ((Located.explorer automaton (PredicateState.analysis config initial) strategy stop
      coverage).restricted admits).Replays precision trace := by
  have interpolated := refutes.interpolated_of_regular workable trusted regular
  refine (PredicateState.attests workable wellFormed regularPredicates regular.regularInitial
    affordable ?_).not_replays (fun _ _ => refutes.admits_ranges workable.lawful trusted)
    (refutes.inductiveAlong_of_regular workable trusted regular) fun _ => regular.regularEdge
  intro condition member
  obtain ⟨position, isCondition⟩ := List.mem_iff_getElem?.mp member
  exact ⟨(interpolated.strongest isCondition).1, fun atom isAtom => tracked atom
    ((Expr.mem_collectAtomsAll _ _).mpr (.inr ⟨condition, member, isAtom⟩))⟩

end TraceChecker.Refutes

namespace Analysis

/-- The choice comes before the variable that it depends on. -/
def leadingChoice : Expr :=
  .nary .and [.unary .not (.ternary .ite Session.flag chooser
    (.nary .or [chooser, Session.flag] .bool) .bool) .bool, Session.flag,
    .unary .not chooser .bool] .bool

def leadingEdge : ControlEdge :=
  { choosingEdge with statements := [.assume leadingChoice], formula := leadingChoice }

def leadingAutomaton : ControlFlowAutomaton where
  locations := [⟨"start", [], false⟩, ⟨"error", [], false⟩]
  edges := [leadingEdge]
  error := some 1

def eitherValue : Expr :=
  .nary .or [chooser, .unary .not chooser .bool] .bool

def leadingTrace : Trace (Located PredicateState) ControlEdge :=
  ⟨⟨0, .top⟩, [(leadingEdge, ⟨1, .top⟩)]⟩

/-- With formulas that choose between truth values, the diagram depends on the variable that a
session meets first: the trace is refuted, and replayed under the refined precision. -/
theorem leadingTrace_refuted_and_replayed : ∃ refutation world after,
    TraceChecker.sequenceInterpolation.check trustedConfig eitherValue .top leadingTrace world =
      (.ok (.infeasible refutation), after) ∧
    (Located.explorer leadingAutomaton (PredicateState.analysis trustedConfig eitherValue)
      .breadthFirst .firstTarget .single).Replays (PredicatePrecision.refine ⟨[]⟩ refutation)
        leadingTrace := by
  obtain ⟨world, after, refuted⟩ : ∃ world after,
      TraceChecker.sequenceInterpolation.check trustedConfig eitherValue .top leadingTrace world =
        (.ok (.infeasible (.interpolants ⟨[.top, .bottom], 1⟩)), after) :=
    TraceChecker.exists_refuted (by decide +kernel)
  have unrefined : PredicatePrecision.refine ⟨[]⟩ (.interpolants ⟨[.top, .bottom], 1⟩) = ⟨[]⟩ := by
    decide
  let inner := Located.analysis
    (PredicateState.analysis trustedConfig eitherValue : Analysis _ _ ControlEdge _)
  obtain ⟨_, runFirst⟩ : ∃ last, inner.initialStates ⟨[]⟩ {} = (.ok [⟨0, .top⟩], last) :=
    exists_run_of_toOption_eq_some (by decide +kernel)
  obtain ⟨_, runNext⟩ : ∃ last, inner.successors ⟨[]⟩ ⟨0, .top⟩ leadingEdge {} =
      (.ok [⟨1, .top⟩], last) :=
    exists_run_of_toOption_eq_some (by decide +kernel)
  refine ⟨_, world, after, refuted, ?_⟩
  rw [unrefined]
  exact ⟨⟨0, .top⟩, ⟨_, _, _, runFirst, List.mem_singleton_self _⟩, rfl,
    .step ⟨List.mem_singleton_self _, _, _, _, runNext, List.mem_singleton_self _⟩ rfl
      (.done ⟨{}, {}, rfl⟩)⟩

end Analysis

end AbstractionRefinement
