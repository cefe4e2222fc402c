import AbstractionRefinement.ControlFlowAutomata
import AbstractionRefinement.ProductAnalyses
import AbstractionRefinement.Proofs.ExplicitMonotonicity
import AbstractionRefinement.Proofs.LocatedStates
import AbstractionRefinement.Proofs.PredicateMonotonicity
import AbstractionRefinement.Proofs.ZoneMonotonicity

/-!
# Monotonicity of transfer functions

If one state is subsumed by another one under a precision, each of its successors under an
action is subsumed by a successor of the other one.  This holds of explicit states under
every limit, of predicate states and of zones, and it is kept by products and by the
lifting to states at locations.
-/

namespace AbstractionRefinement

open AbstractionRefinement.Computation

namespace Analysis

variable {ω σ τ α π ρ : Type}

/-- Successors are monotone in calls of which the condition holds, and states that are known
to be unsatisfiable have none. -/
structure Monotone (analysis : Analysis ω σ α π) (regular : π → σ → α → ω → Prop) : Prop where
  bottom {precision : π} {state : σ} {action : α} {world after : ω} {states : List σ} :
    analysis.isBottom state = true →
      analysis.successors precision state action world = (.ok states, after) → states = []
  mono {precision : π} {state other : σ} {action : α} {world world' after after' : ω}
    {states states' : List σ} : analysis.leq precision state other = true →
      regular precision state action world → regular precision other action world' →
      analysis.successors precision state action world = (.ok states, after) →
      analysis.successors precision other action world' = (.ok states', after') →
        ∀ next ∈ states, ∃ next' ∈ states', analysis.leq precision next next' = true

/-- The condition on calls of a product: the second component is asked after the first one
has found a state. -/
def productRegular (first : Analysis ω σ α π) (regular : π → σ → α → ω → Prop)
    (regular' : ρ → τ → α → ω → Prop) (precision : π × ρ) (state : σ × τ) (action : α)
    (world : ω) : Prop :=
  regular precision.1 state.1 action world ∧ ∀ firsts between,
    first.successors precision.1 state.1 action world = (.ok firsts, between) →
      firsts ≠ [] → regular' precision.2 state.2 action between

theorem mem_allPairs {firsts : List σ} {seconds : List τ} {pair : σ × τ} :
    pair ∈ allPairs firsts seconds ↔ pair.1 ∈ firsts ∧ pair.2 ∈ seconds := by
  obtain ⟨first, second⟩ := pair
  simp [allPairs]

variable {first : Analysis ω σ α π} {second : Analysis ω τ α ρ}
  {regular : π → σ → α → ω → Prop} {regular' : ρ → τ → α → ω → Prop}

/-- The successors of a pair are the pairs of successors. -/
theorem product_run {precision : π × ρ} {state : σ × τ} {action : α} {world after : ω}
    {states : List (σ × τ)}
    (run : (first.product second).successors precision state action world =
      (.ok states, after)) :
    ∃ firsts between,
      first.successors precision.1 state.1 action world = (.ok firsts, between) ∧
        (firsts = [] ∧ states = [] ∨ firsts ≠ [] ∧ ∃ seconds,
          second.successors precision.2 state.2 action between = (.ok seconds, after) ∧
            states = allPairs firsts seconds) := by
  have ensures : ((first.product second).successors precision state action).Ensures world
      fun states after => ∃ firsts between,
        first.successors precision.1 state.1 action world = (.ok firsts, between) ∧
          (firsts = [] ∧ states = [] ∨ firsts ≠ [] ∧ ∃ seconds,
            second.successors precision.2 state.2 action between = (.ok seconds, after) ∧
              states = allPairs firsts seconds) := by
    unfold product
    dsimp only
    rw [ensures_bind]
    apply ensures_of_run
    intro firsts between runFirst
    split
    case isTrue isEmpty => exact ⟨firsts, between, runFirst, .inl ⟨by simpa using isEmpty, rfl⟩⟩
    case isFalse nonempty =>
      rw [ensures_bind]
      apply ensures_of_run
      intro seconds after runSecond
      exact ⟨firsts, between, runFirst, .inr ⟨by simpa using nonempty, seconds, runSecond, rfl⟩⟩
  exact ensures.of_run run

theorem Monotone.product_bottom (monotone : first.Monotone regular)
    (monotone' : second.Monotone regular') {precision : π × ρ} {state : σ × τ} {action : α}
    {world after : ω} {states : List (σ × τ)}
    (isBottom : (first.isBottom state.1 || second.isBottom state.2) = true)
    (run : (first.product second).successors precision state action world =
      (.ok states, after)) : states = [] := by
  obtain ⟨firsts, between, runFirst, ⟨-, rfl⟩ | ⟨nonempty, seconds, runSecond, rfl⟩⟩ :=
    product_run run
  · rfl
  · rcases (Bool.or_eq_true _ _).mp isBottom with bottomFirst | bottomSecond
    · exact absurd (monotone.bottom bottomFirst runFirst) nonempty
    · rw [monotone'.bottom bottomSecond runSecond]
      simp [allPairs]

/-- Products of monotone analyses are monotone. -/
theorem Monotone.product (monotone : first.Monotone regular)
    (monotone' : second.Monotone regular') :
    (first.product second).Monotone (productRegular first regular regular') where
  bottom isBottom run := monotone.product_bottom monotone' isBottom run
  mono {precision state other action world world' after after' states states'} leq regular
      regular' run run' := by
    have cases : (first.isBottom state.1 || second.isBottom state.2) = true ∨
        first.leq precision.1 state.1 other.1 = true ∧
          second.leq precision.2 state.2 other.2 = true := by
      rw [← Bool.and_eq_true, ← Bool.or_eq_true]
      exact leq
    rcases cases with isBottom | ⟨leqFirst, leqSecond⟩
    · rw [monotone.product_bottom monotone' isBottom run]
      exact List.forall_mem_nil _
    · obtain ⟨regularFirst, regularSecond⟩ := regular
      obtain ⟨regularFirst', regularSecond'⟩ := regular'
      intro next member
      obtain ⟨firsts, between, runFirst, ⟨-, rfl⟩ | ⟨nonempty, seconds, runSecond, rfl⟩⟩ :=
        product_run run
      · cases member
      · obtain ⟨isFirst, isSecond⟩ := mem_allPairs.mp member
        obtain ⟨firsts', between', runFirst', found'⟩ := product_run run'
        obtain ⟨nextFirst, isFirst', leqFirst'⟩ := monotone.mono leqFirst regularFirst
          regularFirst' runFirst runFirst' next.1 isFirst
        obtain ⟨isEmpty, -⟩ | ⟨nonempty', seconds', runSecond', rfl⟩ := found'
        · rw [isEmpty] at isFirst'
          cases isFirst'
        · obtain ⟨nextSecond, isSecond', leqSecond'⟩ := monotone'.mono leqSecond
            (regularSecond firsts between runFirst nonempty)
            (regularSecond' firsts' between' runFirst' nonempty') runSecond runSecond' next.2
            isSecond
          refine ⟨(nextFirst, nextSecond), mem_allPairs.mpr ⟨isFirst', isSecond'⟩, ?_⟩
          show (_ || (_ && _)) = true
          rw [leqFirst', leqSecond', Bool.and_self, Bool.or_true]

/-- The condition on calls at a location: the inner analysis is asked along the edges that
leave it. -/
def locatedRegular (regular : π → σ → ControlEdge → ω → Prop) (precision : π)
    (located : Located σ) (edge : ControlEdge) (world : ω) : Prop :=
  edge.source = located.location → regular precision located.state edge world

/-- The lifting of a monotone analysis to locations is monotone. -/
theorem Monotone.located {inner : Analysis ω σ ControlEdge π}
    {regular : π → σ → ControlEdge → ω → Prop} (monotone : inner.Monotone regular) :
    (Located.analysis inner).Monotone (locatedRegular regular) where
  bottom isBottom run := by
    obtain ⟨-, rfl⟩ | ⟨-, inners, runInner, rfl⟩ := Located.successors_run run
    · rfl
    · rw [monotone.bottom isBottom runInner, List.map_nil]
  mono {precision located other edge world world' after after' states states'} leq regular
      regular' run run' := by
    have both : located.location = other.location ∧
        inner.leq precision located.state other.state = true := by
      rw [← decide_eq_true_iff (p := located.location = other.location), ← Bool.and_eq_true]
      exact leq
    obtain ⟨sameLocation, leqInner⟩ := both
    intro next member
    obtain ⟨-, rfl⟩ | ⟨leaves, inners, runInner, rfl⟩ := Located.successors_run run
    · cases member
    · obtain ⟨innerNext, isInner, rfl⟩ := List.mem_map.mp member
      obtain ⟨elsewhere, -⟩ | ⟨leaves', inners', runInner', rfl⟩ := Located.successors_run run'
      · exact absurd (leaves.trans sameLocation) elsewhere
      · obtain ⟨innerNext', isInner', leqInner'⟩ := monotone.mono leqInner (regular leaves)
          (regular' leaves') runInner runInner' innerNext isInner
        refine ⟨⟨edge.target, innerNext'⟩, List.mem_map_of_mem isInner', ?_⟩
        show (_ && _) = true
        rw [leqInner', Bool.and_true]
        exact decide_eq_true rfl

theorem explicit_monotone [ExprAction α] {config : SolverConfig} (trusted : config.Trusted)
    (initial : Expr) (limit : Option Nat) :
    (ExplicitState.analysis config initial limit : Analysis SolverStatistics ExplicitState α
      ExplicitPrecision).Monotone fun precision state action world =>
        state.Regular config limit precision action world where
  bottom {precision state action world after states} isBottom run := by
    obtain rfl : state = .bottom := of_decide_eq_true isBottom
    cases run
    rfl
  mono leq regular regular' run run' :=
    ExplicitState.successors_mono trusted leq regular regular' run run'

theorem predicate_monotone [ExprAction α] {config : SolverConfig} (trusted : config.Trusted)
    (initial : Expr) :
    (PredicateState.analysis config initial : Analysis SolverStatistics PredicateState α
      PredicatePrecision).Monotone fun precision state action world =>
        state.Regular config precision action world where
  bottom {precision state action world after states} isBottom run := by
    obtain rfl : state = .bottom := of_decide_eq_true isBottom
    cases run
    rfl
  mono leq regular regular' run run' :=
    PredicateState.successors_mono trusted leq regular regular' run run'

/-- Zones are monotone for all constants of the extrapolation. -/
theorem zone_monotone [ClockAction α] (invariants : List ClockConstraint)
    (constants : Zone.ClockConstants) :
    (ZoneState.analysis invariants constants : Analysis ω ZoneState α
      ZonePrecision).Monotone fun _ state action _ =>
        state.Regular constants (ClockAction.clockOperations action) where
  bottom {precision state action world after states} isBottom run := by
    obtain rfl : state = .bottom := of_decide_eq_true isBottom
    cases run
    rfl
  mono {precision state other action world world' after after' states states'} leq regular
      regular' run run' := by
    rw [ZoneState.successors_run] at run run'
    cases run
    cases run'
    exact ZoneState.following_mono leq regular regular'

/-- The analyses of explicit states, predicate states and zones, their products and their
liftings to locations, each with the condition on its calls. -/
inductive Standard : {σ α π : Type} → Analysis SolverStatistics σ α π →
    (π → σ → α → SolverStatistics → Prop) → Prop
  | explicit {α : Type} [ExprAction α] {config : SolverConfig} (trusted : config.Trusted)
      (initial : Expr) (limit : Option Nat) :
      Standard (ExplicitState.analysis config initial limit : Analysis _ _ α _)
        fun precision state action world => state.Regular config limit precision action world
  | predicate {α : Type} [ExprAction α] {config : SolverConfig} (trusted : config.Trusted)
      (initial : Expr) :
      Standard (PredicateState.analysis config initial : Analysis _ _ α _)
        fun precision state action world => state.Regular config precision action world
  | zone {α : Type} [ClockAction α] (invariants : List ClockConstraint)
      (constants : Zone.ClockConstants) :
      Standard (ZoneState.analysis invariants constants : Analysis _ _ α _)
        fun _ state action _ => state.Regular constants (ClockAction.clockOperations action)
  | product {σ τ α π ρ : Type} {first : Analysis SolverStatistics σ α π}
      {second : Analysis SolverStatistics τ α ρ} {regular : π → σ → α → SolverStatistics → Prop}
      {regular' : ρ → τ → α → SolverStatistics → Prop} (standard : Standard first regular)
      (standard' : Standard second regular') :
      Standard (first.product second) (productRegular first regular regular')
  | located {σ π : Type} {inner : Analysis SolverStatistics σ ControlEdge π}
      {regular : π → σ → ControlEdge → SolverStatistics → Prop}
      (standard : Standard inner regular) :
      Standard (Located.analysis inner) (locatedRegular regular)

theorem Standard.monotone {σ α π : Type} {analysis : Analysis SolverStatistics σ α π}
    {regular : π → σ → α → SolverStatistics → Prop} (standard : analysis.Standard regular) :
    analysis.Monotone regular := by
  induction standard with
  | explicit trusted initial limit => exact explicit_monotone trusted initial limit
  | predicate trusted initial => exact predicate_monotone trusted initial
  | zone invariants constants => exact zone_monotone invariants constants
  | product _ _ monotone monotone' => exact monotone.product monotone'
  | located _ monotone => exact monotone.located

/-- Each successor of a state is subsumed by a successor of every state that subsumes it. -/
theorem successors_subsumed {σ α π : Type} {analysis : Analysis SolverStatistics σ α π}
    {regular : π → σ → α → SolverStatistics → Prop} (standard : analysis.Standard regular)
    {precision : π} {state other : σ} {action : α} {world world' after after' : SolverStatistics}
    {states states' : List σ} (leq : analysis.leq precision state other = true)
    (regularState : regular precision state action world)
    (regularOther : regular precision other action world')
    (run : analysis.successors precision state action world = (.ok states, after))
    (run' : analysis.successors precision other action world' = (.ok states', after')) :
    ∀ next ∈ states, ∃ next' ∈ states', analysis.leq precision next next' = true :=
  standard.monotone.mono leq regularState regularOther run run'

def trustedConfig : SolverConfig :=
  { Session.narrowConfig with margin := 0 }

theorem trustedConfig_trusted : trustedConfig.Trusted where
  lawful := Session.narrowConfig_lawful
  countable := by decide
  margin_eq := rfl

def stopwatch : VarDecl :=
  ⟨"watch", .int⟩

/-- The edge increments the amount when the clock has reached one, and resets the clock. -/
def countingEdge : ControlEdge where
  source := 0
  target := 1
  statements := [.clockGuard (.atLeast stopwatch 1), .clockReset stopwatch 0,
    .assign Session.amount.decl (.nary .add [.sym Session.amount, .ofInt 1] .int)]
  formula := .binary .eq (.primedVariable Session.amount.decl 1)
    (.nary .add [.sym Session.amount, .ofInt 1] .int) .bool
  next := (Indexing.constant 0).increment Session.amount.decl
  clockOperations := [.guard (.atLeast stopwatch 1), .reset stopwatch 0, .delay]

def timedCounts : Analysis SolverStatistics (Located (ZoneState × ExplicitState)) ControlEdge
    (ZonePrecision × ExplicitPrecision) :=
  Located.analysis ((ZoneState.analysis [] [(stopwatch, 1)]).product
    (ExplicitState.analysis trustedConfig .top (some 1)))

def timedPrecision : ZonePrecision × ExplicitPrecision :=
  (⟨[stopwatch]⟩, ⟨[Session.amount.decl]⟩)

/-- The clock has any value, and the amounts are those that are given. -/
def timedState (amounts : List (Symbol × Value)) : Located (ZoneState × ExplicitState) :=
  ⟨0, .zone (.top [stopwatch]), .values ⟨amounts⟩⟩

theorem answerable_counts {amounts : List (Symbol × Value)}
    (given : amounts = [] ∨ amounts = [(Session.amount, .int 0)]) :
    ExplicitState.Answerable trustedConfig (some 1) timedPrecision.2 ⟨amounts⟩ countingEdge
      {} := by
  rcases given with rfl | rfl
  · refine ⟨fun _ => (by rintro ⟨⟩), by decide +kernel, ?_, ?_⟩
    · rintro formula ⟨⟩
      decide +kernel
    · rintro formula ⟨⟩
      exact ⟨rfl, by decide +kernel, by decide +kernel⟩
  · refine ⟨List.forall_mem_singleton.mpr (show FitsInt64 0 by decide), by decide +kernel, ?_, ?_⟩
    · rintro formula ⟨⟩
      decide +kernel
    · rintro formula ⟨⟩
      exact ⟨rfl, by decide +kernel, by decide +kernel⟩

theorem regular_counts {amounts : List (Symbol × Value)}
    (given : amounts = [] ∨ amounts = [(Session.amount, .int 0)]) :
    locatedRegular (productRegular (ZoneState.analysis [] [(stopwatch, 1)])
      (fun _ state action _ => state.Regular [(stopwatch, 1)] (ClockAction.clockOperations action))
      fun precision state action world =>
        state.Regular trustedConfig (some 1) precision action world)
      timedPrecision (timedState amounts) countingEdge {} := by
  have regularZone : ZoneState.Regular [(stopwatch, 1)] countingEdge.clockOperations
      (.zone (.top [stopwatch])) := by
    decide +kernel
  refine fun _ => ⟨regularZone, fun firsts between run _ valuation same => ?_⟩
  rw [ZoneState.successors_run] at run
  cases run
  cases same
  exact answerable_counts given

/-- From one amount there is one successor.  From unknown amounts there are several, so that
the only state is that nothing is known, which subsumes it. -/
theorem counts_subsumed : trustedConfig.Trusted ∧
    timedCounts.leq timedPrecision (timedState [(Session.amount, .int 0)]) (timedState []) = true ∧
    ∃ states states' after after',
      timedCounts.successors timedPrecision (timedState [(Session.amount, .int 0)]) countingEdge
        {} = (.ok states, after) ∧
      timedCounts.successors timedPrecision (timedState []) countingEdge {} =
        (.ok states', after') ∧
      states ≠ [] ∧
      ∀ next ∈ states, ∃ next' ∈ states', timedCounts.leq timedPrecision next next' = true := by
  have leq : timedCounts.leq timedPrecision (timedState [(Session.amount, .int 0)])
      (timedState []) = true := by
    decide +kernel
  have found : (timedCounts.successors timedPrecision (timedState [(Session.amount, .int 0)])
      countingEdge {}).1.toOption.any (fun states => !states.isEmpty) = true := by
    decide +kernel
  have found' : (timedCounts.successors timedPrecision (timedState []) countingEdge
      {}).1.toOption.isSome = true := by
    decide +kernel
  cases run : timedCounts.successors timedPrecision (timedState [(Session.amount, .int 0)])
      countingEdge {} with
  | mk result after =>
  cases run' : timedCounts.successors timedPrecision (timedState []) countingEdge {} with
  | mk result' after' =>
  rw [run] at found
  rw [run'] at found'
  cases result with
  | error _ => cases found
  | ok states =>
  cases result' with
  | error _ => cases found'
  | ok states' =>
  have nonempty : states ≠ [] := by
    rintro rfl
    cases found
  have standard := Standard.located (.product (.zone [] [(stopwatch, 1)])
    (.explicit trustedConfig_trusted .top (some 1)))
  exact ⟨trustedConfig_trusted, leq, states, states', after, after', rfl, rfl, nonempty,
    successors_subsumed standard leq (regular_counts (.inr rfl)) (regular_counts (.inl rfl)) run
      run'⟩

def chooser : Expr :=
  .sym ⟨⟨"chooser", .bool⟩, none⟩

/-- The first variable is false and the second one true.  The choice by the second variable is
one of the first variable, so it adds nothing. -/
def negatedChooser : Expr :=
  .nary .and [.unary .not chooser .bool,
    .unary .not (.ternary .ite Session.flag chooser (.nary .or [chooser, Session.flag] .bool)
      .bool) .bool, Session.flag] .bool

def choosingEdge : ControlEdge where
  source := 0
  target := 1
  statements := [.assume negatedChooser]
  formula := negatedChooser
  next := .constant 0
  clockOperations := []

/-- Of formulas that choose between truth values, the wrong diagram of a choice can be a part of
the more general query only: a state in which the second variable is known has a successor, and
the state in which nothing is known has none. -/
theorem choice_not_subsumed : ¬ ∀ (config : SolverConfig) (initial : Expr) (limit : Option Nat)
    (precision : ExplicitPrecision) (valuation valuation' : Valuation) (edge : ControlEdge)
    (after after' : SolverStatistics) (states states' : List ExplicitState), config.Trusted →
      ExplicitState.leq (.values valuation) (.values valuation') = true →
      (∀ source ∈ [valuation, valuation'], ∀ formula,
        Expr.mkAnd [source.toExpr, ExprAction.toExpr edge] = .ok formula →
          Query.MeetsNoLimit config .forIncrementalUse (ExplicitState.statesQuery
            (ExplicitState.symbolsAt precision edge.next) limit
            (formula.unfold (.constant 0))) {}) →
      (ExplicitState.analysis config initial limit).successors precision (.values valuation)
        edge {} = (.ok states, after) →
      (ExplicitState.analysis config initial limit).successors precision (.values valuation')
        edge {} = (.ok states', after') →
      ∀ next ∈ states, ∃ next' ∈ states', next.leq next' = true := by
  intro claimed
  let start (valuation : Valuation) :=
    (ExplicitState.analysis trustedConfig .top none : Analysis _ _ ControlEdge _).successors ⟨[]⟩
      (.values valuation) choosingEdge {}
  let known : Valuation := ⟨[(⟨⟨"flag", .bool⟩, none⟩, .bool true)]⟩
  have found : (start known).1.toOption = some [.values ⟨[]⟩] := by
    decide +kernel
  have missing : (start ⟨[]⟩).1.toOption = some [] := by
    decide +kernel
  have isRun (valuation : Valuation) (states : List ExplicitState)
      (given : (start valuation).1.toOption = some states) :
      start valuation = (.ok states, (start valuation).2) :=
    Prod.ext (eq_ok_of_toOption_eq_some given) rfl
  have unlimited : ∀ source ∈ [known, ⟨[]⟩], ∀ formula,
      Expr.mkAnd [Valuation.toExpr source, ExprAction.toExpr choosingEdge] = .ok formula →
        Query.MeetsNoLimit trustedConfig .forIncrementalUse (ExplicitState.statesQuery
          (ExplicitState.symbolsAt ⟨[]⟩ choosingEdge.next) none
          (formula.unfold (.constant 0))) {} := by
    intro source member
    rcases List.mem_pair.mp member with rfl | rfl <;>
    · rintro formula ⟨⟩
      exact ⟨rfl, by decide +kernel, by decide +kernel⟩
  obtain ⟨next, member, -⟩ := claimed trustedConfig .top none ⟨[]⟩ known ⟨[]⟩ choosingEdge _ _ _ _
    trustedConfig_trusted rfl unlimited (isRun _ _ found) (isRun _ _ missing) _
    (List.mem_singleton_self _)
  cases member

end Analysis

end AbstractionRefinement
