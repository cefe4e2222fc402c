import AbstractionRefinement.VerificationTasks
import AbstractionRefinement.Proofs.ExplicitTransfers
import AbstractionRefinement.Proofs.LocatedStates
import AbstractionRefinement.Proofs.RecordedCalls
import AbstractionRefinement.Proofs.RefinementSoundness

/-!
# Executions behind a safe verdict

An automaton is executed from its initial location along its edges.  The explicit analysis
asks the solver for the initial states and for the successors under each edge, and an
unsatisfiable answer is trusted in the intervals that are stretched over the literals of
the query and widened by the margin.  So a safe verdict excludes the error location from
every execution whose values stay in the intervals of the queries it passes.  Executions
that jump further are not excluded.
-/

namespace AbstractionRefinement

open AbstractionRefinement.Computation

/-- The values lie in the intervals in which answers about the formula are trusted. -/
def SolverConfig.Trusts (config : SolverConfig) (formula : Expr) : Store → Prop :=
  (config.widened (formula.literalBounds none)).InRange

theorem SolverConfig.Reaches.of_conjunct {config : SolverConfig} {operands : List Expr}
    {formula operand : Expr} (isConjunction : Expr.IsConjunction operands formula)
    (member : operand ∈ operands) (indexing : Indexing) {values : Symbol → Value}
    (admitted : ∀ symbol,
      (config.widened (operand.literalBounds none)).Admits symbol.decl (values symbol)) :
    config.Reaches (formula.unfold indexing) values := by
  intro symbol
  rw [Expr.unfold, Expr.literalBounds_unfoldUnder]
  exact (admitted symbol).of_withinBounds (isConjunction.within_literalBounds member)

namespace ControlFlowAutomaton

variable (automaton : ControlFlowAutomaton) (initial : Expr)

/-- The executions from the initial location.  The initial values lie in the region of the
initial condition, and the values along an edge in the region of the edge's formula. -/
def executions (region : Expr → Store → Prop) : ConcreteSystem (Located Store) ControlEdge where
  initial start :=
    start.location = ControlFlowAutomaton.initial ∧ initial.Holds start.state ∧
      region initial start.state
  step current edge next :=
    edge ∈ automaton.outgoing current.location ∧ next.location = edge.target ∧
      Executes (region edge.formula) edge.statements current.state next.state

/-- The formulas about which the analysis asks. -/
def queries : List Expr :=
  initial :: automaton.edges.map ControlEdge.formula

def vocabulary : List VarDecl :=
  (automaton.queries initial).flatMap fun formula => formula.symbols.map Symbol.decl

/-- The symbols that occur when the formula is asked about in some state. -/
def alphabet (formula : Expr) : List Symbol :=
  (automaton.vocabulary initial).map (fun decl => ⟨decl, some 0⟩) ++
    (formula.unfold (.constant 0)).symbols

/-- The initial condition and the edges are encoded exactly, over less Boolean variables
than literals can be numbered. -/
structure Supported (config : SolverConfig) : Prop where
  properInitial : initial.ProperCondition
  properEdge {edge : ControlEdge} : edge ∈ automaton.edges → edge.Proper
  fewLevels {formula : Expr} : formula ∈ automaton.queries initial →
    ∃ alphabet, automaton.alphabet initial formula ⊆ alphabet ∧
      Encoding.levelTotal config alphabet < 2147483648

variable {automaton initial}

theorem mem_vocabulary {formula : Expr} (member : formula ∈ automaton.queries initial)
    {symbol : Symbol} (occurs : symbol ∈ formula.symbols) :
    symbol.decl ∈ automaton.vocabulary initial :=
  List.mem_flatMap.mpr ⟨formula, member, List.mem_map_of_mem occurs⟩

theorem mem_alphabet_of_current {condition : Expr} (current : condition.IsCurrent)
    (listed : ∀ symbol ∈ condition.symbols, symbol.decl ∈ automaton.vocabulary initial)
    {symbol : Symbol} (occurs : symbol ∈ (condition.unfold (.constant 0)).symbols)
    (formula : Expr) :
    symbol ∈ automaton.alphabet initial formula ∧ symbol.decl ∈ automaton.vocabulary initial := by
  rw [Expr.unfold_eq_atVersions current.unprimed] at occurs
  obtain ⟨other, member, same, indexed⟩ := Expr.exists_of_mem_symbols_atVersions _ occurs
  have inVocabulary : symbol.decl ∈ automaton.vocabulary initial := same ▸ listed other member
  have atStart := indexed (current.index_eq_none other member)
  refine ⟨List.mem_append_left _ (List.mem_map.mpr ⟨symbol.decl, inVocabulary, ?_⟩), inVocabulary⟩
  obtain ⟨decl, index⟩ := symbol
  exact congrArg (Symbol.mk decl) atStart.symm

theorem mem_alphabet_of_query {formula : Expr} (member : formula ∈ automaton.queries initial)
    {symbol : Symbol} (occurs : symbol ∈ (formula.unfold (.constant 0)).symbols) :
    symbol ∈ automaton.alphabet initial formula ∧ symbol.decl ∈ automaton.vocabulary initial := by
  obtain ⟨other, isOther, same, -⟩ := Expr.exists_of_mem_symbols_unfoldUnder occurs
  exact ⟨List.mem_append_right _ occurs, same ▸ mem_vocabulary member isOther⟩

end ControlFlowAutomaton

namespace ExplicitState

/-- The symbols of a query about an edge in a state. -/
theorem mem_alphabet_of_step {automaton : ControlFlowAutomaton} {initial formula query : Expr}
    {valuation : Valuation} (typed : valuation.Typed)
    (listed : ∀ entry ∈ valuation.entries, entry.1.decl ∈ automaton.vocabulary initial)
    (isQuery : formula ∈ automaton.queries initial)
    (isConjunction : Expr.IsConjunction
      [valuation.toExpr.unfold (.constant 0), formula.unfold (.constant 0)] query) :
    ∀ symbol ∈ query.symbols, symbol ∈ automaton.alphabet initial formula ∧
      symbol.decl ∈ automaton.vocabulary initial := by
  intro symbol occurs
  obtain ⟨operand, isOperand, occurs⟩ := isConjunction.mem_symbols.mp occurs
  rw [List.mem_pair] at isOperand
  rcases isOperand with rfl | rfl
  · refine ControlFlowAutomaton.mem_alphabet_of_current typed.properCondition.current ?_ occurs _
    intro other occurs
    obtain ⟨entry, member, rfl⟩ := List.mem_map.mp (typed.wellTyped.mem_symbols_toExpr occurs)
    exact listed entry member
  · exact ControlFlowAutomaton.mem_alphabet_of_query isQuery occurs

variable {config : SolverConfig} {automaton : ControlFlowAutomaton} {initial : Expr}
  (workable : config.Workable) (positive : 0 < config.margin)
  (supported : automaton.Supported initial config)
include workable positive supported

/-- The initial states stand for the trusted initial stores. -/
theorem cover_initialStates {α : Type} [ExprAction α] {precision : ExplicitPrecision}
    {world after : SolverStatistics} {states : List ExplicitState}
    (small : StaysSmall config precision (.constant 0) (initial.unfold (.constant 0)) world)
    (run : (analysis (α := α) config initial none).initialStates precision world =
      (.ok states, after)) :
    (∀ state ∈ states, state.WellFormed (automaton.vocabulary initial)) ∧
      ∀ store, initial.Holds store → config.Trusts initial store →
        ∃ state ∈ states, state.Represents store := by
  have isQuery : initial ∈ automaton.queries initial := List.mem_cons_self
  have proper := supported.properInitial
  have encodable : (initial.unfold (.constant 0)).Encodable := by
    rw [Expr.unfold_eq_atVersions proper.current.unprimed]
    exact proper.encodable.atVersions _
  obtain ⟨alphabet, enough, few⟩ := supported.fewLevels isQuery
  have listed (symbol : Symbol) (occurs : symbol ∈ (initial.unfold (.constant 0)).symbols) :=
    (ControlFlowAutomaton.mem_alphabet_of_query isQuery occurs).imp_left fun member =>
      enough member
  have cover := cover_of_statesOf workable positive few encodable listed small run
  refine ⟨cover.wellFormed, fun store holds trusted => ?_⟩
  -- All versions of a variable have its initial value.
  refine cover.covers (?_ : config.Reaches _ fun symbol => store symbol.decl) ?_
  · exact SolverConfig.Reaches.of_conjunct (.singleton initial) (List.mem_singleton_self _)
      (.constant 0) fun symbol => trusted symbol.decl
  · rw [Expr.unfold_eq_atVersions proper.current.unprimed,
      proper.current.evalBool_atVersions]
    exact holds

/-- The successors under an edge stand for the stores at the end of trusted executions. -/
theorem cover_successors {state : ExplicitState} {edge : ControlEdge}
    (member : edge ∈ automaton.edges)
    (wellFormed : state.WellFormed (automaton.vocabulary initial))
    {precision : ExplicitPrecision} {world after : SolverStatistics} {states : List ExplicitState}
    (small : ∀ query, Expr.mkAnd [ExprState.toExpr state, edge.formula] = .ok query →
      StaysSmall config precision edge.next (query.unfold (.constant 0)) world)
    (run : (analysis config initial none).successors precision state edge world =
      (.ok states, after)) :
    (∀ state ∈ states, state.WellFormed (automaton.vocabulary initial)) ∧
      ∀ store next, state.Represents store →
        Executes (config.Trusts edge.formula) edge.statements store next →
          ∃ state ∈ states, state.Represents next := by
  cases state with
  | bottom =>
      cases run
      exact ⟨by simp, fun store next represents => represents.elim⟩
  | values valuation =>
      obtain ⟨typed, -, listed⟩ := wellFormed
      have isQuery : edge.formula ∈ automaton.queries initial :=
        List.mem_cons_of_mem _ (List.mem_map_of_mem member)
      obtain ⟨query, built, run⟩ := exists_statesOf_of_successors run
      have isConjunction : Expr.IsConjunction [valuation.toExpr, edge.formula] query :=
        Expr.isConjunction_of_mkAnd built
      have unfolded : Expr.IsConjunction
          [valuation.toExpr.unfold (.constant 0), edge.formula.unfold (.constant 0)]
          (query.unfold (.constant 0)) :=
        isConjunction.unfold (.constant 0)
      obtain ⟨spelledEdge, settled⟩ := (supported.properEdge member).spellsOut (.constant 0)
      have spelled := ((spellsOut_unfold typed.properCondition (.constant 0)).append
        spelledEdge).conjunction unfolded
      obtain ⟨alphabet, enough, few⟩ := supported.fewLevels isQuery
      have cover := cover_of_statesOf workable positive few
        (spelled.encodable _ (List.mem_singleton_self _))
        (fun symbol occurs => (mem_alphabet_of_step typed listed isQuery unfolded symbol
          occurs).imp_left fun member => enough member) (small query built) run
      refine ⟨cover.wellFormed, fun store next represents executes => ?_⟩
      obtain ⟨values, admitted, rfl, rfl, describes⟩ :=
        executes.exists_describes (Indexing.constant 0).get
      have sameVersions : versionsAfter (Indexing.constant 0).get edge.statements =
          edge.next.get := by
        rw [← settled]
        funext decl
        rw [Indexing.get_add, Indexing.get_constant, Nat.zero_add]
      rw [sameVersions]
      apply cover.covers
      · have second : edge.formula ∈ [valuation.toExpr, edge.formula] := by simp
        exact SolverConfig.Reaches.of_conjunct isConjunction second _ admitted
      · have described := (spelled.holds values).mpr
          ⟨typed.holds_toExpr.mpr represents, describes⟩
        exact described _ (List.mem_singleton_self _)

end ExplicitState

namespace Located

variable {config : SolverConfig} {automaton : ControlFlowAutomaton} {initial : Expr}

/-- A located state stands for the stores of its state at its location. -/
def Represents (located : Located ExplicitState) (current : Located Store) : Prop :=
  located.location = current.location ∧ located.state.Represents current.state ∧
    ∀ decl, (current.state decl).HasType decl.ty

theorem Represents.of_trusts {located : Located ExplicitState} {current : Located Store}
    {formula : Expr} (sameLocation : located.location = current.location)
    (represents : located.state.Represents current.state)
    (trusted : config.Trusts formula current.state) : located.Represents current :=
  ⟨sameLocation, represents, fun decl => (trusted decl).1⟩

theorem join_eq_some {inner : Domain ExplicitState ExplicitPrecision}
    {precision : ExplicitPrecision} {first second union : Located ExplicitState}
    (joined : (domain inner).join precision first second = some union) :
    first.location = second.location ∧ union.location = first.location ∧
      inner.join precision first.state second.state = some union.state := by
  unfold domain at joined
  dsimp only at joined
  split at joined
  case isFalse => cases joined
  case isTrue same =>
    obtain ⟨state, joinedState, rfl⟩ := Option.map_eq_some_iff.mp joined
    exact ⟨same, rfl, joinedState⟩

/-- The session that the analysis takes for a call allocates few nodes. -/
def SmallTransfer (config : SolverConfig) (initial : Expr) :
    VerifierCall SolverStatistics (Located ExplicitState) ControlEdge ExplicitPrecision → Prop
  | .initialStates precision world =>
      ExplicitState.StaysSmall config precision (.constant 0) (initial.unfold (.constant 0)) world
  | .successors precision located edge world =>
      ∀ query ∈ (Expr.mkAnd [ExprState.toExpr located.state, edge.formula]).toOption,
        ExplicitState.StaysSmall config precision edge.next (query.unfold (.constant 0)) world
  | .refinement .. => True

instance : DecidablePred (SmallTransfer config initial) := fun call => by
  unfold SmallTransfer
  split <;> infer_instance

section Explicit

variable (workable : config.Workable) (positive : 0 < config.margin)
  (supported : automaton.Supported initial config)
include workable positive supported

theorem cover_initialStates {precision : ExplicitPrecision} {world after : SolverStatistics}
    {states : List (Located ExplicitState)}
    (small : SmallTransfer config initial (.initialStates precision world))
    (run : (analysis (ExplicitState.analysis config initial none)).initialStates precision world =
      (.ok states, after)) :
    (∀ located ∈ states, located.state.WellFormed (automaton.vocabulary initial)) ∧
      ∀ current, (automaton.executions initial config.Trusts).initial current →
        ∃ located ∈ states, located.Represents current := by
  obtain ⟨inners, runInner, rfl⟩ := initialStates_run run
  obtain ⟨wellFormed, covers⟩ :=
    ExplicitState.cover_initialStates workable positive supported small runInner
  refine ⟨List.forall_mem_map.mpr wellFormed, ?_⟩
  rintro current ⟨atInitial, holds, trusted⟩
  obtain ⟨state, member, represents⟩ := covers current.state holds trusted
  exact ⟨_, List.mem_map_of_mem member, .of_trusts atInitial.symm represents trusted⟩

theorem cover_successors {located : Located ExplicitState} {edge : ControlEdge}
    (member : edge ∈ automaton.edges)
    (wellFormed : located.state.WellFormed (automaton.vocabulary initial))
    {precision : ExplicitPrecision} {world after : SolverStatistics}
    {states : List (Located ExplicitState)}
    (small : SmallTransfer config initial (.successors precision located edge world))
    (run : (analysis (ExplicitState.analysis config initial none)).successors precision located
      edge world = (.ok states, after)) :
    (∀ located ∈ states, located.state.WellFormed (automaton.vocabulary initial)) ∧
      ∀ current next, located.Represents current →
        (automaton.executions initial config.Trusts).step current edge next →
          ∃ located ∈ states, located.Represents next := by
  rcases successors_run run with ⟨apart, rfl⟩ | ⟨-, inners, runInner, rfl⟩
  · refine ⟨List.forall_mem_nil _, ?_⟩
    rintro current next ⟨sameLocation, -⟩ ⟨outgoing, -⟩
    have leaves := (List.mem_filter.mp outgoing).2
    rw [decide_eq_true_iff] at leaves
    exact absurd (leaves.trans sameLocation.symm) apart
  · obtain ⟨wellFormed', covers⟩ := ExplicitState.cover_successors workable positive supported
      member wellFormed (fun query built => small query (by rw [built]; rfl)) runInner
    refine ⟨List.forall_mem_map.mpr wellFormed', ?_⟩
    rintro current next ⟨-, represents, -⟩ ⟨-, arrives, executes⟩
    obtain ⟨state, member', represents'⟩ := covers current.state next.state represents executes
    exact ⟨_, List.mem_map_of_mem member',
      .of_trusts arrives.symm represents' executes.inside_last⟩

/-- The explicit analysis of an automaton is sound for its trusted executions as far as its
sessions allocate few nodes. -/
theorem soundFor_explicit
    {admits : VerifierCall SolverStatistics (Located ExplicitState) ControlEdge
      ExplicitPrecision → Prop} [DecidablePred admits]
    (small : ∀ call, admits call → SmallTransfer config initial call) (strategy : SearchStrategy)
    (stop : StopCriterion) (coverage : CoverageMode) :
    ((explorer automaton (ExplicitState.analysis config initial none) strategy stop
        coverage).restricted admits).SoundFor (automaton.executions initial config.Trusts)
      Represents (fun located => located.state.WellFormed (automaton.vocabulary initial))
      (fun current => some current.location = automaton.error) where
  initial_covers {_ _ _ _ current} run starts := by
    obtain ⟨admitted, run⟩ := Analysis.initialStates_of_restricted run
    exact (cover_initialStates workable positive supported (small _ admitted) run).2 current starts
  initial_admissible run := by
    obtain ⟨admitted, run⟩ := Analysis.initialStates_of_restricted run
    exact (cover_initialStates workable positive supported (small _ admitted) run).1
  enabled_covers _ represents steps := by
    show _ ∈ automaton.outgoing _
    rw [represents.1]
    exact steps.1
  successors_cover {_ _ _ _ _ _ current next} wellFormed run represents steps := by
    obtain ⟨admitted, run⟩ := Analysis.successors_of_restricted run
    have member := (List.mem_filter.mp steps.1).1
    exact (cover_successors workable positive supported member wellFormed (small _ admitted) run).2
      current next represents steps
  successors_admissible wellFormed enabled run := by
    obtain ⟨admitted, run⟩ := Analysis.successors_of_restricted run
    have member := (List.mem_filter.mp enabled).1
    exact (cover_successors workable positive supported member wellFormed (small _ admitted) run).1
  bottom_empty {located current} isBottom represents := by
    have isBottom : located.state = .bottom := of_decide_eq_true isBottom
    have represents := represents.2.1
    rw [isBottom] at represents
    exact represents
  leq_subsumes _ _ below represents := by
    obtain ⟨sameLocation, below⟩ := (Bool.and_eq_true _ _).mp below
    rw [decide_eq_true_iff] at sameLocation
    exact ⟨sameLocation.symm.trans represents.1, represents.2.1.of_leq below, represents.2.2⟩
  join_admissible wellFormed wellFormed' joined :=
    wellFormed.of_join wellFormed' (join_eq_some joined).2.2
  join_exact wellFormed wellFormed' joined represents := by
    obtain ⟨together, sameLocation, joined⟩ := join_eq_some joined
    have atFirst := sameLocation.symm.trans represents.1
    rcases represents.2.1.of_join wellFormed wellFormed' joined represents.2.2 with first | second
    · exact .inl ⟨atFirst, first, represents.2.2⟩
    · exact .inr ⟨together.symm.trans atFirst, second, represents.2.2⟩
  target_marks {_ _ _ _ current} run represents bad := by
    cases run
    rw [represents.1]
    exact decide_eq_true bad

end Explicit

end Located

/-- A safe verdict also excludes bad states if the explorer is sound as far as it makes the
calls of the run. -/
theorem Verifier.not_bad_of_admitted {ω σ α π κ : Type} [Precision π] [DecidableEq π]
    {verifier : Verifier ω σ α π} {admits : VerifierCall ω σ α π → Prop} {_ : DecidablePred admits}
    {system : ConcreteSystem κ α} {concretizes : σ → κ → Prop} {admissible : σ → Prop}
    {bad : κ → Prop}
    (soundFor : (verifier.explorer.restricted admits).SoundFor system concretizes admissible bad)
    {limits : ResourceLimits} {checks : ω → Nat} {fuel : Nat} {precision : π}
    {start : ω × ExplorationStatus}
    (admitted : ∀ call ∈ verifier.calls limits checks fuel precision start, admits call)
    (safe : (verifier.verify limits checks fuel precision start).1.outcome.verdict = .safe)
    {state : κ} (reachable : system.Reachable state) : ¬ bad state := by
  rw [← verifier.verify_restricted admits admitted] at safe
  have soundFor : (verifier.restricted admits).explorer.SoundFor system concretizes admissible
    bad := soundFor
  exact not_bad_of_safe soundFor limits checks fuel precision start safe reachable

/-- If the verdict is safe, the error location is reached by no execution whose values are
trusted in the queries it passes, whatever the settings, the limits and the precision are, as
long as every session for states allocates at most `32767` nodes.  Both the initial condition
and the edges are encoded exactly. -/
theorem VerificationSettings.error_unreached_of_safe {config : SolverConfig}
    {automaton : ControlFlowAutomaton} {initial : Expr} (workable : config.Workable)
    (positive : 0 < config.margin) (supported : automaton.Supported initial config)
    (settings : VerificationSettings) (refine : PrecisionRefiner ExplicitPrecision)
    (limits : ResourceLimits) (checks : SolverStatistics → Nat) (fuel : Nat)
    (precision : ExplicitPrecision) (start : SolverStatistics × ExplorationStatus)
    (small : ∀ call ∈ (settings.automatonVerifier Abstraction.explicitValues config initial none
      refine automaton).calls limits checks fuel precision start,
        Located.SmallTransfer config initial call)
    (safe : ((settings.automatonVerifier Abstraction.explicitValues config initial none refine
      automaton).verify limits checks fuel precision start).1.outcome.verdict = .safe)
    {current : Located Store}
    (reached : (automaton.executions initial config.Trusts).Reachable current) :
    some current.location ≠ automaton.error := by
  have soundFor := Located.soundFor_explicit workable positive supported (fun _ => id)
    settings.search settings.stop settings.coverage
  have never := Verifier.not_bad_of_admitted soundFor small safe reached
  exact never

section Gauge

def gauge : VarDecl :=
  ⟨"x", .int⟩

def gaugeIs (number : Int) : Expr :=
  .binary .eq gauge.toExpr (.lit (.int number)) .bool

def narrowConfig : SolverConfig where
  cacheBits := 4
  defaultRange := (1, 2)
  margin := 1

def gaugeWrite (source target : Nat) (value : Expr) : ControlEdge where
  source := source
  target := target
  statements := [.assign gauge value]
  formula := .binary .eq (.primedVariable gauge 1) value .bool
  next := (Indexing.constant 0).increment gauge
  clockOperations := [.delay]

/-- The edge that requires the gauge to have a value. -/
def gaugeGuard (source target : Nat) (number : Int) : ControlEdge where
  source := source
  target := target
  statements := [.assume (gaugeIs number)]
  formula := gaugeIs number
  next := .constant 0
  clockOperations := [.delay]

def usualSettings : VerificationSettings where
  search := .breadthFirst
  stop := .firstTarget
  coverage := .single
  prune := .lazy
  checker := .sequenceInterpolation
  limits := {}
  runs := 1
  counted := false

/-- The verdict on an automaton that starts from a value of the gauge. -/
def gaugeVerdict (automaton : ControlFlowAutomaton) (number : Int) : Verdict :=
  ((usualSettings.automatonVerifier Abstraction.explicitValues narrowConfig (gaugeIs number) none
    ExplicitPrecision.refine automaton).verify {} SolverStatistics.checks 9 ⟨[]⟩
    ({}, .idle)).1.outcome.verdict

def gaugeCalls (automaton : ControlFlowAutomaton) (number : Int) :
    List (VerifierCall SolverStatistics (Located ExplicitState) ControlEdge ExplicitPrecision) :=
  (usualSettings.automatonVerifier Abstraction.explicitValues narrowConfig (gaugeIs number) none
    ExplicitPrecision.refine automaton).calls {} SolverStatistics.checks 9 ⟨[]⟩ ({}, .idle)

def levelStore (number : Int) : Store :=
  fun decl => decl.ty.sample number

theorem typed_write {store : Store} (typed : ∀ decl, (store decl).HasType decl.ty) {number : Int}
    (fits : FitsInt64 number) : ∀ decl, (store.write gauge (.int number) decl).HasType decl.ty := by
  intro decl
  by_cases same : decl = gauge
  · subst same
    rw [Store.write_self]
    exact fits
  · rw [Store.write_of_ne _ same]
    exact typed decl

theorem typed_levelStore {number : Int} (fits : FitsInt64 number) (decl : VarDecl) :
    (levelStore number decl).HasType decl.ty :=
  Ty.hasType_sample fits decl.ty

def cubing : ControlFlowAutomaton where
  locations := [⟨"start", [], false⟩, ⟨"error", [], false⟩]
  edges := [gaugeWrite 0 1 (.nary .mul [gauge.toExpr, gauge.toExpr, gauge.toExpr] .int)]
  error := some 1

/-- Two cubed is beyond the widened interval, so the error location is reached although the
verdict is safe. -/
theorem cubing_safe_and_reached : 0 < narrowConfig.margin ∧ gaugeVerdict cubing 2 = .safe ∧
    (cubing.executions (gaugeIs 2) fun _ store =>
      ∀ decl, (store decl).HasType decl.ty).Reachable
        ⟨1, (levelStore 2).write gauge (.int 8)⟩ ∧ cubing.error = some 1 := by
  have typed := typed_levelStore (show FitsInt64 2 by decide)
  have typed' := typed_write typed (show FitsInt64 8 by decide)
  have starts : (cubing.executions (gaugeIs 2) fun _ store =>
      ∀ decl, (store decl).HasType decl.ty).initial ⟨0, levelStore 2⟩ := ⟨rfl, rfl, typed⟩
  have steps : (cubing.executions (gaugeIs 2) fun _ store =>
      ∀ decl, (store decl).HasType decl.ty).step ⟨0, levelStore 2⟩
        (gaugeWrite 0 1 (.nary .mul [gauge.toExpr, gauge.toExpr, gauge.toExpr] .int))
        ⟨1, (levelStore 2).write gauge (.int 8)⟩ :=
    ⟨List.mem_singleton_self _, rfl, .cons typed (.assign rfl) (.nil typed')⟩
  exact ⟨by decide, by decide +kernel, .step (.initial starts) steps, rfl⟩

def raising : ControlFlowAutomaton where
  locations := [⟨"start", [], false⟩, ⟨"raised", [], false⟩, ⟨"error", [], false⟩]
  edges := [gaugeWrite 0 1 (.nary .add [gauge.toExpr, .ofInt 1] .int), gaugeGuard 1 2 1]
  error := some 2

theorem narrowConfig_workable : narrowConfig.Workable where
  lawful _ := by
    show FitsInt64 1 ∧ FitsInt64 2 ∧ (1 : Int) ≤ 2
    decide
  countable := by decide

theorem gaugeIs_proper {number : Int} (fits : FitsInt64 number) :
    (gaugeIs number).ProperCondition where
  current := ⟨rfl, rfl⟩
  encodable := ⟨⟨⟨rfl, rfl⟩, trivial, fits⟩, rfl⟩
  boolean := rfl

theorem raising_supported : raising.Supported (gaugeIs 1) narrowConfig where
  properInitial := gaugeIs_proper (by decide)
  properEdge {edge} member := by
    have one : FitsInt64 1 := by decide
    rcases List.mem_pair.mp member with rfl | rfl
    · refine ⟨⟨raising.locations, rfl⟩, fun member => ?_⟩
      rw [List.mem_singleton.mp member]
      refine ⟨rfl, fun member => ?_⟩
      rw [List.mem_singleton.mp member]
      exact ⟨⟨⟨rfl, by decide⟩, trivial, one, trivial⟩, rfl⟩
    · refine ⟨⟨raising.locations, rfl⟩, fun member => ?_⟩
      rw [List.mem_singleton.mp member]
      refine ⟨rfl, fun member => ?_⟩
      rw [List.mem_singleton.mp member]
      exact (gaugeIs_proper one).encodable
  fewLevels {formula} member := by
    have few : ∀ formula ∈ raising.queries (gaugeIs 1),
        Encoding.levelTotal narrowConfig (raising.alphabet (gaugeIs 1) formula) < 2147483648 := by
      decide +kernel
    exact ⟨_, List.Subset.refl _, few formula member⟩

theorem narrowConfig_trusts {store : Store} (typed : ∀ decl, (store decl).HasType decl.ty)
    (small : ∀ decl number, store decl = .int number → 0 ≤ number ∧ number ≤ 3)
    (formula : Expr) : narrowConfig.Trusts formula store := by
  intro decl
  have nothing : WithinBounds none (formula.literalBounds none) := trivial
  exact SolverConfig.Admits.of_withinBounds nothing
    ((SolverConfig.admits_iff_of_maxBitVecWidth_lt (by decide)).mpr ⟨typed decl, small decl⟩)

/-- The location of the raised gauge is not the error location. -/
theorem raising_error_unreached : narrowConfig.Workable ∧
    raising.Supported (gaugeIs 1) narrowConfig ∧
    (∀ call ∈ gaugeCalls raising 1, Located.SmallTransfer narrowConfig (gaugeIs 1) call) ∧
    gaugeVerdict raising 1 = .safe ∧
    (raising.executions (gaugeIs 1) narrowConfig.Trusts).Reachable
      ⟨1, (levelStore 1).write gauge (.int 2)⟩ ∧ some 1 ≠ raising.error := by
  have typed := typed_levelStore (show FitsInt64 1 by decide)
  have typed' := typed_write typed (show FitsInt64 2 by decide)
  have trusted := narrowConfig_trusts typed fun _ number same => by
    rw [Ty.eq_of_sample same]
    decide
  have trusted' := narrowConfig_trusts typed' fun decl number same => by
    by_cases isGauge : decl = gauge
    · rw [isGauge, Store.write_self] at same
      cases same
      decide
    · rw [Store.write_of_ne _ isGauge] at same
      rw [Ty.eq_of_sample same]
      decide
  have starts : (raising.executions (gaugeIs 1) narrowConfig.Trusts).initial ⟨0, levelStore 1⟩ :=
    ⟨rfl, rfl, trusted _⟩
  have steps : (raising.executions (gaugeIs 1) narrowConfig.Trusts).step ⟨0, levelStore 1⟩
      (gaugeWrite 0 1 (.nary .add [gauge.toExpr, .ofInt 1] .int))
      ⟨1, (levelStore 1).write gauge (.int 2)⟩ :=
    ⟨List.mem_singleton_self _, rfl, .cons (trusted _) (.assign rfl) (.nil (trusted' _))⟩
  have reached := ConcreteSystem.Reachable.step (.initial starts) steps
  have safe : gaugeVerdict raising 1 = .safe := by decide +kernel
  have small : ∀ call ∈ gaugeCalls raising 1,
      Located.SmallTransfer narrowConfig (gaugeIs 1) call := by
    decide +kernel
  exact ⟨narrowConfig_workable, raising_supported, small, safe, reached,
    VerificationSettings.error_unreached_of_safe narrowConfig_workable (by decide)
      raising_supported usualSettings ExplicitPrecision.refine {} SolverStatistics.checks 9 ⟨[]⟩
      ({}, .idle) small safe reached⟩

end Gauge

end AbstractionRefinement
