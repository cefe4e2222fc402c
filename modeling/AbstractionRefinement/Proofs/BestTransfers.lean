import AbstractionRefinement.Proofs.ExplicitAbstractions
import AbstractionRefinement.Proofs.PredicateAbstractions
import AbstractionRefinement.Proofs.TransferMonotonicity

/-!
# Best transfer functions

The successors of a state under an edge are compared with the stores to which the edge leads
from the state, and the initial states with the stores of the initial condition.  For explicit
states and for cubes the transfer functions are the best ones, over the configured intervals
and for formulas that have values there.  This fails for formulas that choose between truth
values.
-/

namespace AbstractionRefinement

namespace Analysis

/-- The states that are found cover the stores, explicit states under every limit.  Unless the
limit is exceeded, each state contains one of the stores and is listed once; explicit states
then assign the tracked variables that occur at their next versions, and cubes contain every
predicate or its negation. -/
theorem transfers_best {config : SolverConfig} (workable : config.Workable) :
    (∀ {limit : Option Nat} {precision : ExplicitPrecision} {initial : Expr}
        {state : ExplicitState} {edge : ControlEdge} {world after : SolverStatistics}
        {states : List ExplicitState}, state ≠ .bottom →
      (ExprState.toExpr state).RegularCondition config → edge.Regular config →
      ExplicitState.Affordable config limit precision edge.next (edge.query state) world →
      (ExplicitState.analysis config initial limit).successors precision state edge world =
        (.ok states, after) →
      ExplicitState.BestWithin config limit precision edge.next (edge.query state)
        (config.Reached (ExprState.toExpr state) edge.statements) states) ∧
    (∀ {limit : Option Nat} {precision : ExplicitPrecision} {initial : Expr}
        {world after : SolverStatistics} {states : List ExplicitState},
      initial.RegularCondition config →
      ExplicitState.Affordable config limit precision (.constant 0)
        (initial.unfold (.constant 0)) world →
      (ExplicitState.analysis (α := ControlEdge) config initial limit).initialStates precision
        world = (.ok states, after) →
      ExplicitState.BestWithin config limit precision (.constant 0)
        (initial.unfold (.constant 0)) (fun store => initial.Holds store ∧ config.InRange store)
        states) ∧
    ∀ {precision : PredicatePrecision}, precision.WellFormed →
      (∀ predicate ∈ precision.predicates, predicate.RegularCondition config) →
      (∀ {initial : Expr} {state : PredicateState} {edge : ControlEdge}
          {world after : SolverStatistics} {states : List PredicateState}, state ≠ .bottom →
        (ExprState.toExpr state).RegularCondition config → edge.Regular config →
        PredicateState.Affordable config precision edge.next (edge.query state) world →
        (PredicateState.analysis config initial).successors precision state edge world =
          (.ok states, after) →
        Abstracts config (config.Reached (ExprState.toExpr state) edge.statements) False
          (PredicateState.DecidesAll precision) states) ∧
      (∀ {initial : Expr} {world after : SolverStatistics} {states : List PredicateState},
        initial.RegularCondition config →
        PredicateState.Affordable config precision (.constant 0) (initial.unfold (.constant 0))
          world →
        (PredicateState.analysis (α := ControlEdge) config initial).initialStates precision
          world = (.ok states, after) →
        Abstracts config (fun store => initial.Holds store ∧ config.InRange store) False
          (PredicateState.DecidesAll precision) states) :=
  ⟨fun notBottom regularState regular affordable run =>
      ExplicitState.successors_bestWithin workable notBottom regularState regular affordable run,
    fun regular affordable run =>
      ExplicitState.initialStates_bestWithin workable regular affordable run,
    fun wellFormed regular =>
      ⟨fun notBottom regularState regularEdge affordable run =>
          PredicateState.successors_abstract workable wellFormed regular notBottom regularState
            regularEdge affordable run,
        fun regularInitial affordable run =>
          PredicateState.initialStates_abstract workable wellFormed regular regularInitial
            affordable run⟩⟩

section Deposits

def approved : VarDecl :=
  ⟨"flag", .bool⟩

def deposit : ControlEdge where
  source := 0
  target := 1
  statements := [.assign Session.amount.decl (.nary .add [.sym Session.amount, .ofInt 1] .int),
    .havoc approved]
  formula := .binary .eq (.primedVariable Session.amount.decl 1)
    (.nary .add [.sym Session.amount, .ofInt 1] .int) .bool
  next := ((Indexing.constant 0).increment Session.amount.decl).increment approved
  clockOperations := []

theorem deposit_regular : deposit.Regular trustedConfig where
  made := ⟨[], rfl⟩
  proper member := by
    rcases List.mem_pair.mp member with rfl | rfl
    · refine ⟨rfl, fun member => ?_⟩
      rw [List.mem_singleton.mp member]
      exact ⟨⟨⟨rfl, by decide⟩, trivial, show FitsInt64 1 by decide, trivial⟩, rfl⟩
    · exact ⟨rfl, by rintro _ ⟨⟩⟩
  defined := by
    refine List.forall_mem_cons.mpr ⟨List.forall_mem_singleton.mpr fun store inside => ?_,
      List.forall_mem_singleton.mpr (List.forall_mem_nil _)⟩
    obtain ⟨typed, inRange, -⟩ := inside Session.amount.decl
    obtain ⟨number, isNumber, -⟩ := typed.exists_int
    have bounds : 0 ≤ number ∧ number ≤ 3 := inRange number isNumber
    have fits : FitsInt64 (number + 1) := by
      unfold FitsInt64 minInt64 maxInt64
      omega
    show (NaryOperator.add.evaluate [some (store Session.amount.decl), some (.int 1)]).isSome
    rw [isNumber]
    show ((checkedInt64 (number + 1)).map Value.int).isSome
    rw [checkedInt64_eq_some_iff.mpr ⟨fits, rfl⟩]
    rfl

theorem regularCondition_amountIs {number : Int} (fits : FitsInt64 number)
    (config : SolverConfig) : (Session.amountIs number).RegularCondition config where
  current := ⟨rfl, rfl⟩
  encodable := Session.encodable_amountIs fits
  boolean := rfl
  defined _ _ := rfl

theorem regularCondition_flag (config : SolverConfig) : Session.flag.RegularCondition config where
  current := ⟨rfl, rfl⟩
  encodable := ⟨trivial, rfl⟩
  boolean := rfl
  defined _ _ := rfl

def trackedVariables : ExplicitPrecision :=
  .ofList [Session.amount.decl, approved]

def trackedPredicates : PredicatePrecision :=
  .ofList [Session.amountIs 2, Session.flag]

theorem trackedPredicates_regular :
    ∀ predicate ∈ trackedPredicates.predicates, predicate.RegularCondition trustedConfig := by
  have predicates_eq : trackedPredicates.predicates = [Session.flag, Session.amountIs 2] := by
    decide +kernel
  rw [predicates_eq]
  refine List.forall_mem_cons.mpr ⟨regularCondition_flag _, List.forall_mem_singleton.mpr ?_⟩
  exact regularCondition_amountIs (by decide) _

theorem exists_run {ω σ : Type} {computation : Computation ω (List σ)} {world : ω} {count : Nat}
    (counted : (computation world).1.toOption.map List.length = some count) :
    ∃ states after, computation world = (.ok states, after) ∧ states.length = count := by
  rcases run : computation world with ⟨_ | states, after⟩
  · rw [run] at counted
    cases counted
  · rw [run] at counted
    exact ⟨states, after, rfl, Option.some.inj counted⟩

/-- After a deposit there are three amounts, and the flag is not mentioned.  Four cubes are found,
and initially two. -/
theorem deposits_abstracted : trustedConfig.Workable ∧ deposit.Regular trustedConfig ∧
    trackedPredicates.WellFormed ∧
    (∃ states after, (ExplicitState.analysis trustedConfig (Session.amountIs 0)
        none).successors trackedVariables .top deposit {} = (.ok states, after) ∧
      states.length = 3 ∧
      ExplicitState.BestWithin trustedConfig none trackedVariables deposit.next
        (deposit.query ExplicitState.top)
        (trustedConfig.Reached (ExprState.toExpr ExplicitState.top) deposit.statements)
        states) ∧
    (∃ states after, (ExplicitState.analysis (α := ControlEdge) trustedConfig
        (Session.amountIs 0) (some 1)).initialStates trackedVariables {} = (.ok states, after) ∧
      states.length = 1 ∧
      ExplicitState.BestWithin trustedConfig (some 1) trackedVariables (.constant 0)
        ((Session.amountIs 0).unfold (.constant 0))
        (fun store => (Session.amountIs 0).Holds store ∧ trustedConfig.InRange store)
        states) ∧
    (∃ states after, (PredicateState.analysis trustedConfig (Session.amountIs 0)).successors
        trackedPredicates .top deposit {} = (.ok states, after) ∧ states.length = 4 ∧
      Abstracts trustedConfig
        (trustedConfig.Reached (ExprState.toExpr PredicateState.top) deposit.statements) False
        (PredicateState.DecidesAll trackedPredicates) states) ∧
    ∃ states after, (PredicateState.analysis (α := ControlEdge) trustedConfig
        (Session.amountIs 0)).initialStates trackedPredicates {} = (.ok states, after) ∧
      states.length = 2 ∧
      Abstracts trustedConfig
        (fun store => (Session.amountIs 0).Holds store ∧ trustedConfig.InRange store) False
        (PredicateState.DecidesAll trackedPredicates) states := by
  have workable := trustedConfig_trusted.workable
  have wellFormed := PredicatePrecision.wellFormed_ofList [Session.amountIs 2, Session.flag]
  have regularTop : (ExprState.toExpr ExplicitState.top).RegularCondition trustedConfig :=
    Valuation.Typed.regularCondition (List.forall_mem_nil _) trustedConfig
  have regularTop' : (ExprState.toExpr PredicateState.top).RegularCondition trustedConfig :=
    PredicateState.regularCondition_cube (List.forall_mem_nil _)
  have regularInitial := regularCondition_amountIs (show FitsInt64 0 by decide) trustedConfig
  obtain ⟨successorsBest, initialBest, predicatesBest⟩ := transfers_best workable
  obtain ⟨cubesBest, initialCubesBest⟩ := predicatesBest wellFormed trackedPredicates_regular
  refine ⟨workable, deposit_regular, wellFormed, ?_, ?_, ?_, ?_⟩
  · obtain ⟨states, after, run, three⟩ := exists_run (show ((ExplicitState.analysis trustedConfig
      (Session.amountIs 0) none).successors trackedVariables .top deposit
        {}).1.toOption.map List.length = some 3 by decide +kernel)
    exact ⟨states, after, run, three, successorsBest (by rintro ⟨⟩) regularTop deposit_regular
      ⟨by decide +kernel, by decide +kernel⟩ run⟩
  · obtain ⟨states, after, run, one⟩ := exists_run (show ((ExplicitState.analysis (α := ControlEdge)
      trustedConfig (Session.amountIs 0) (some 1)).initialStates trackedVariables
        {}).1.toOption.map List.length = some 1 by decide +kernel)
    exact ⟨states, after, run, one, initialBest regularInitial
      ⟨by decide +kernel, by decide +kernel⟩ run⟩
  · obtain ⟨states, after, run, four⟩ := exists_run (show ((PredicateState.analysis trustedConfig
      (Session.amountIs 0)).successors trackedPredicates .top deposit
        {}).1.toOption.map List.length = some 4 by decide +kernel)
    exact ⟨states, after, run, four, cubesBest (by rintro ⟨⟩) regularTop' deposit_regular
      ⟨by decide +kernel, by decide +kernel⟩ run⟩
  · obtain ⟨states, after, run, two⟩ := exists_run (show ((PredicateState.analysis
      (α := ControlEdge) trustedConfig (Session.amountIs 0)).initialStates trackedPredicates
        {}).1.toOption.map List.length = some 2 by decide +kernel)
    exact ⟨states, after, run, two, initialCubesBest regularInitial
      ⟨by decide +kernel, by decide +kernel⟩ run⟩

end Deposits

section Choice

/-- The condition is that a choice is not taken, which is always so, and that the flag is true. -/
def choiceCondition : Expr :=
  .nary .and [Session.negatedChoice, Session.flag] .bool

def choiceEdge : ControlEdge where
  source := 0
  target := 1
  statements := [.assume choiceCondition]
  formula := choiceCondition
  next := .constant 0
  clockOperations := []

theorem wellTyped_choiceCondition : choiceCondition.WellTyped :=
  ⟨⟨rfl, by decide⟩, ⟨⟨rfl, rfl⟩, ⟨rfl, rfl, rfl⟩, trivial, Value.hasType_bool false, trivial⟩,
    trivial, trivial⟩

theorem evalBool_choiceCondition {store : Store} {truth : Bool}
    (isTruth : store approved = .bool truth) :
    choiceCondition.evalBool store.read = some truth := by
  show truthOf (NaryOperator.and.evaluate
    [UnaryOperator.not.evaluate (TernaryOperator.ite.evaluate (some (store approved))
      (some (.bool false)) (some (store approved))), some (store approved)]) = some truth
  rw [isTruth]
  cases truth <;> rfl

/-- Of formulas that choose between truth values, the diagram can lack solutions: the edge leads
to stores in which the flag is true, and no successor is found. -/
theorem choiceEdge_not_covered : ¬ ∀ (config : SolverConfig) (limit : Option Nat)
    (precision : ExplicitPrecision) (initial : Expr) (state : ExplicitState) (edge : ControlEdge)
    (world after : SolverStatistics) (states : List ExplicitState), config.Workable →
      state ≠ .bottom → (ExprState.toExpr state).RegularCondition config →
      (∃ locations, ControlEdge.ofStatements locations edge.source edge.target edge.statements =
        .ok edge) →
      (∀ statement ∈ edge.statements, statement.validate = .ok () ∧ statement.Defined config ∧
        ∀ formula ∈ statement.formulas, formula.WellTyped) →
      ExplicitState.Affordable config limit precision edge.next (edge.query state) world →
      (ExplicitState.analysis config initial limit).successors precision state edge world =
        (.ok states, after) →
      Covers (config.Reached (ExprState.toExpr state) edge.statements) states := by
  intro claimed
  obtain ⟨states, after, run, nothing⟩ := exists_run (show ((ExplicitState.analysis trustedConfig
    .top none).successors ⟨[approved]⟩ .top choiceEdge {}).1.toOption.map List.length = some 0
      by decide +kernel)
  have regularTop : (ExprState.toExpr ExplicitState.top).RegularCondition trustedConfig :=
    Valuation.Typed.regularCondition (List.forall_mem_nil _) trustedConfig
  have defined : choiceCondition.Defined trustedConfig := by
    intro store inside
    obtain ⟨truth, isTruth⟩ := Value.HasType.exists_bool (inside approved).1
    apply Expr.isSome_eval_of_evalBool
    rw [evalBool_choiceCondition isTruth]
    rfl
  have sound : ∀ statement ∈ choiceEdge.statements, statement.validate = .ok () ∧
      statement.Defined trustedConfig ∧ ∀ formula ∈ statement.formulas, formula.WellTyped :=
    List.forall_mem_singleton.mpr ⟨rfl, List.forall_mem_singleton.mpr defined,
      List.forall_mem_singleton.mpr wellTyped_choiceCondition⟩
  have covers := claimed trustedConfig none ⟨[approved]⟩ .top .top choiceEdge {} after states
    trustedConfig_trusted.workable (by rintro ⟨⟩) regularTop ⟨[], rfl⟩ sound
    ⟨by decide +kernel, by decide +kernel⟩ run
  have admits : trustedConfig.Admits approved (.bool true) :=
    SolverConfig.admits_bool rfl true
  obtain ⟨store, inside, isTrue⟩ := trustedConfig_trusted.lawful.exists_inRange admits
  have reached : trustedConfig.Reached (ExprState.toExpr ExplicitState.top)
      choiceEdge.statements store :=
    ⟨store, rfl, .cons inside (.assume (evalBool_choiceCondition isTrue)) (.nil inside)⟩
  obtain ⟨state, member, -⟩ := covers store reached
  rw [List.length_eq_zero_iff.mp nothing] at member
  cases member

end Choice

end Analysis

end AbstractionRefinement
