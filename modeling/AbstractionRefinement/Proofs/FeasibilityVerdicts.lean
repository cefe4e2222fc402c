import AbstractionRefinement.Proofs.StateFormulas
import AbstractionRefinement.Proofs.TraceVerdicts

/-!
# Verdicts on the feasibility of traces

A trace of edges between states is feasible when a concrete execution of the edges'
statements meets the states' formulas and ends in the target condition.  Each trace
checker decides this: a model of the trace's formulas gives the values of all versions
along an execution, and an execution gives values that satisfy the formulas.
-/

namespace AbstractionRefinement

open AbstractionRefinement.Computation

namespace SolverConfig

variable {config : SolverConfig} {formulas : List Expr}

/-- A model extends to admitted values of all symbols. -/
theorem Solves.exists_values {model : Valuation} (lawful : config.Lawful)
    (solves : config.Solves formulas model) :
    ∃ values, (∀ symbol, config.Admits symbol.decl (values symbol)) ∧
      Fulfills values formulas ∧
      ∀ symbol value, model.get? symbol = some value → values symbol = value := by
  obtain ⟨partially, admits, fulfills, given⟩ := solves
  -- Symbols outside the formulas get any admitted value.
  have extended (symbol : Symbol) : ∃ value, config.Admits symbol.decl value ∧
      ((∃ formula ∈ formulas, symbol ∈ formula.symbols) → value = partially symbol) := by
    by_cases occurs : ∃ formula ∈ formulas, symbol ∈ formula.symbols
    · obtain ⟨formula, member, occurs⟩ := occurs
      exact ⟨partially symbol, admits formula member symbol occurs, fun _ => rfl⟩
    · obtain ⟨value, admitted⟩ := lawful.exists_admits symbol.decl
      exact ⟨value, admitted, fun occurs' => absurd occurs' occurs⟩
  choose values admitted same using extended
  refine ⟨values, admitted, ?_, ?_⟩
  · intro formula member
    rw [← fulfills formula member]
    exact Expr.truth_congr fun symbol occurs =>
      congrArg some (same symbol ⟨formula, member, occurs⟩)
  · intro symbol value found
    obtain ⟨occurs, sameValue⟩ := (given symbol value).mp found
    exact (same symbol occurs).trans sameValue

end SolverConfig

theorem Fulfills.satisfies {config : SolverConfig} {values : Symbol → Value}
    {formulas : List Expr} (settled : ∀ formula ∈ formulas, formula.Settled config)
    (admitted : ∀ symbol, config.Admits symbol.decl (values symbol))
    (fulfills : Fulfills values formulas) : Satisfies values formulas := by
  intro formula member
  obtain ⟨truth, decided⟩ :=
    Option.isSome_iff_exists.mp ((settled formula member).decided admitted)
  have isTruth := (settled formula member).encodable.refines_truth
    (fun symbol _ => admitted symbol) truth decided
  rw [decided, ← isTruth, fulfills formula member]

/-- The set of symbols of the formulas of a trace. -/
def PathFormula.symbols (path : PathFormula) : List Symbol :=
  Expr.collectSymbolsAll path.steps []

/-- A valuation assigns the values that the variables have in the store. -/
def Valuation.AgreesWith (valuation : Valuation) (store : Store) : Prop :=
  ∀ symbol value, valuation.get? symbol = some value → store.read symbol = some value

theorem PathFormula.concretize_agrees {model : Valuation} {values : Symbol → Value}
    (given : ∀ symbol value, model.get? symbol = some value → values symbol = value)
    (path : PathFormula) : List.Forall₂ Valuation.AgreesWith (path.concretize model)
      (path.indexings.map fun indexing => storeAt values indexing.get) := by
  unfold concretize
  rw [List.forall₂_map_left_iff, List.forall₂_map_right_iff, List.forall₂_same]
  intro indexing _ symbol value found
  obtain ⟨decl, -, stored⟩ := List.mem_filterMap.mp (OrderedMap.mem_of_find?_ofList found)
  obtain ⟨value', atStep, same⟩ := Option.map_eq_some_iff.mp stored
  cases same
  rw [Store.read_unindexed, storeAt, given _ _ atStep]

namespace Trace

variable {σ : Type} [ExprState σ] {config : SolverConfig} {initial target : Expr}
  {trace : Trace σ ControlEdge}

/-- A trace of validated edges whose conditions and statements are encoded exactly and
have values within the configured intervals, over less Boolean variables than literals
can be numbered. -/
structure Regular (config : SolverConfig) (initial target : Expr)
    (trace : Trace σ ControlEdge) : Prop where
  regularInitial : initial.RegularCondition config
  regularTarget : target.RegularCondition config
  regularFirst : (ExprState.toExpr trace.first).RegularCondition config
  regularSteps : RegularSteps config trace.steps
  fewLevels {path : PathFormula} : PathFormula.ofTrace initial target trace = .ok path →
    Encoding.levelTotal config path.symbols < 2147483648

theorem Regular.spellsOut (regular : trace.Regular config initial target) {path : PathFormula}
    (written : PathFormula.ofTrace initial target trace = .ok path) :
    SpellsOut (Indexing.constant 0).get (trace.statements initial target) path.steps ∧
      ∀ formula ∈ path.steps, formula.Settled config :=
  have spellsOut := spellsOut_ofTrace written regular.regularInitial.toProperCondition
    regular.regularTarget.toProperCondition regular.regularFirst.toProperCondition
    regular.regularSteps.proper
  ⟨spellsOut, fun _ => spellsOut.settled (defined_statements regular.regularInitial
    regular.regularTarget regular.regularFirst regular.regularSteps)⟩

theorem FollowedFrom.length_eq {region : Store → Prop} {store : Store}
    {steps : List (ControlEdge × σ)} {stores : List Store}
    (followed : FollowedFrom region target store steps stores) :
    stores.length = steps.length := by
  induction followed with
  | done => rfl
  | step _ _ _ ih => rw [List.length_cons, List.length_cons, ih]

theorem FollowedBy.length_eq {region : Store → Prop} {stores : List Store}
    (followed : trace.FollowedBy region initial target stores) :
    stores.length = trace.length + 1 := by
  obtain ⟨_, _, rest⟩ := followed
  rw [List.length_cons, rest.length_eq, Trace.length]

end Trace

/-- The outcome is a feasible one. -/
def Feasibility.isFeasible : Feasibility → Bool
  | feasible _ => true
  | infeasible _ => false

/-- A feasible outcome gives one valuation for each state of a concrete execution, and
an infeasible one means that there is none within the configured intervals. -/
def Feasibility.Decides {σ : Type} [ExprState σ] (config : SolverConfig)
    (initial target : Expr) (trace : Trace σ ControlEdge) : Feasibility → Prop
  | feasible concrete => concrete.length = trace.length + 1 ∧
      ∃ stores, trace.FollowedBy config.InRange initial target stores ∧
        List.Forall₂ Valuation.AgreesWith concrete stores
  | infeasible _ => ∀ stores, ¬ trace.FollowedBy config.InRange initial target stores

namespace TraceChecker

variable {σ : Type} [ExprState σ] {config : SolverConfig} {initial target : Expr}
  {trace : Trace σ ControlEdge}

/-- What a checker says about the formulas of a regular trace decides the trace. -/
theorem decides_of_judges {path : PathFormula}
    (written : PathFormula.ofTrace initial target trace = .ok path) (lawful : config.Lawful)
    (regular : trace.Regular config initial target) {outcome : Feasibility}
    (judges : outcome.Judges config path) : outcome.Decides config initial target trace := by
  obtain ⟨spellsOut, settled⟩ := regular.spellsOut written
  cases outcome with
  | feasible concrete =>
      obtain ⟨model, solves, rfl⟩ := judges
      obtain ⟨values, admitted, fulfills, given⟩ := solves.exists_values lawful
      have satisfies := fulfills.satisfies settled admitted
      have followed := Trace.followedBy_of_describes admitted written regular.regularSteps.proper
        ((spellsOut.holds values).mp satisfies)
      have agrees := path.concretize_agrees given
      exact ⟨agrees.length_eq.trans followed.length_eq, _, followed, agrees⟩
  | infeasible refutation =>
      intro stores followed
      obtain ⟨store, final, executes⟩ := followed.executes
      obtain ⟨values, admitted, -, -, describes⟩ :=
        executes.exists_describes (Indexing.constant 0).get
      have satisfies : Satisfies values path.steps := (spellsOut.holds values).mpr describes
      have admits : config.AdmitsAll values path.steps := fun _ _ symbol _ => admitted symbol
      exact judges values admits
        (satisfies.fulfills (fun formula member => (settled formula member).encodable) admits)

/-- The session of the checker allocates few nodes. -/
def StaysSmall (checker : TraceChecker) (config : SolverConfig) (initial target : Expr)
    (trace : Trace σ ControlEdge) (statistics : SolverStatistics) : Prop :=
  ∀ path, PathFormula.ofTrace initial target trace = .ok path →
    (checker.lastSession config path statistics).Few

theorem exists_path_of_check {checker : TraceChecker} {statistics after : SolverStatistics}
    {outcome : Feasibility}
    (run : checker.check config initial target trace statistics = (.ok outcome, after)) :
    ∃ path, PathFormula.ofTrace initial target trace = .ok path := by
  cases written : PathFormula.ofTrace initial target trace with
  | error error =>
      unfold check at run
      rw [written] at run
      cases run
  | ok path => exact ⟨path, rfl⟩

theorem decides_of_check (workable : config.Workable)
    (regular : trace.Regular config initial target) {checker : TraceChecker}
    {statistics after : SolverStatistics} {outcome : Feasibility}
    (small : checker.StaysSmall config initial target trace statistics)
    (run : checker.check config initial target trace statistics = (.ok outcome, after)) :
    outcome.Decides config initial target trace := by
  obtain ⟨path, written⟩ := exists_path_of_check run
  have encodable : AllEncodable path.symbols path.steps := fun formula member =>
    ⟨((regular.spellsOut written).2 formula member).encodable, fun symbol occurs =>
      (Expr.mem_collectSymbolsAll path.steps []).mpr (.inr ⟨formula, member, occurs⟩)⟩
  exact decides_of_judges written workable.lawful regular
    (judges_of_check workable encodable (regular.fewLevels written) written
      (small path written) run)

/-- The outcomes of all checkers decide a regular trace, and so they agree, as long as each
session allocates at most `32767` nodes. -/
theorem checkers_decide_feasibility (workable : config.Workable)
    (regular : trace.Regular config initial target) :
    (∀ (checker : TraceChecker) statistics outcome after,
      checker.StaysSmall config initial target trace statistics →
      checker.check config initial target trace statistics = (.ok outcome, after) →
        outcome.Decides config initial target trace) ∧
    ∀ (checker checker' : TraceChecker) statistics statistics' outcome outcome' after after',
      checker.StaysSmall config initial target trace statistics →
      checker'.StaysSmall config initial target trace statistics' →
      checker.check config initial target trace statistics = (.ok outcome, after) →
        checker'.check config initial target trace statistics' = (.ok outcome', after') →
          (outcome.isFeasible ↔ outcome'.isFeasible) := by
  refine ⟨fun _ _ _ _ => decides_of_check workable regular, ?_⟩
  intro checker checker' _ _ outcome outcome' _ _ small small' run run'
  have sound := decides_of_check workable regular small run
  have sound' := decides_of_check workable regular small' run'
  cases outcome with
  | feasible concrete =>
      cases outcome' with
      | feasible concrete' => exact Iff.rfl
      | infeasible refutation' =>
          obtain ⟨-, stores, followed, -⟩ := sound
          exact absurd followed (sound' stores)
  | infeasible refutation =>
      cases outcome' with
      | feasible concrete' =>
          obtain ⟨-, stores, followed, -⟩ := sound'
          exact absurd followed (sound stores)
      | infeasible refutation' => exact Iff.rfl

section Increment

def countVar : VarDecl :=
  ⟨"count", .int⟩

def smallConfig : SolverConfig where
  defaultRange := (0, 3)
  margin := 1

def incrementEdge : ControlEdge where
  source := 0
  target := 1
  statements := [.assign countVar (.nary .add [countVar.toExpr, .ofInt 1] .int)]
  formula :=
    .binary .eq (.primedVariable countVar 1) (.nary .add [countVar.toExpr, .ofInt 1] .int) .bool
  next := (Indexing.constant 0).increment countVar
  clockOperations := []

def incrementTrace : Trace ExplicitState ControlEdge :=
  ⟨.values ⟨[(⟨countVar, none⟩, .int 0)]⟩, [(incrementEdge, .top)]⟩

theorem smallConfig_workable : smallConfig.Workable where
  lawful _ := by
    show FitsInt64 0 ∧ FitsInt64 3 ∧ (0 : Int) ≤ 3
    decide
  countable := by decide

theorem incrementEdge_regular : incrementEdge.Regular smallConfig where
  made := ⟨[], rfl⟩
  proper member := by
    rw [List.mem_singleton.mp member]
    refine ⟨rfl, fun member => ?_⟩
    rw [List.mem_singleton.mp member]
    refine ⟨⟨⟨rfl, ?_⟩, trivial, ?_, trivial⟩, rfl⟩
    · decide
    · show FitsInt64 1
      decide
  defined := by
    refine List.forall_mem_singleton.mpr (List.forall_mem_singleton.mpr fun store inside => ?_)
    obtain ⟨typed, inRange, -⟩ := inside countVar
    obtain ⟨count, isCount, -⟩ := typed.exists_int
    have bounds : 0 ≤ count ∧ count ≤ 3 := inRange count isCount
    have fits : FitsInt64 (count + 1) := by
      unfold FitsInt64 minInt64 maxInt64
      omega
    show (NaryOperator.add.evaluate [some (store countVar), some (.int 1)]).isSome
    rw [isCount]
    show ((checkedInt64 (count + 1)).map Value.int).isSome
    rw [checkedInt64_eq_some_iff.mpr ⟨fits, rfl⟩]
    rfl

theorem incrementTrace_regular : incrementTrace.Regular smallConfig .top .top where
  regularInitial := Expr.regularCondition_ofBool true smallConfig
  regularTarget := Expr.regularCondition_ofBool true smallConfig
  regularFirst := by
    refine Valuation.Typed.regularCondition (fun entry member => ?_) smallConfig
    rw [List.mem_singleton.mp member]
    refine ⟨rfl, ?_⟩
    show FitsInt64 0
    decide
  regularSteps := by
    intro step member
    rw [List.mem_singleton.mp member]
    exact ⟨incrementEdge_regular, Expr.regularCondition_ofBool true smallConfig⟩
  fewLevels := by
    rintro path ⟨⟩
    decide +kernel

/-- The increment is found feasible, and an execution shows it. -/
theorem incrementTrace_decided : smallConfig.Workable ∧
    incrementTrace.Regular smallConfig .top .top ∧
    unsatCore.StaysSmall smallConfig .top .top incrementTrace {} ∧
    ∃ outcome after, unsatCore.check smallConfig .top .top incrementTrace {} =
      (.ok outcome, after) ∧ outcome.isFeasible ∧
        outcome.Decides smallConfig .top .top incrementTrace := by
  have small : unsatCore.StaysSmall smallConfig .top .top incrementTrace {} := by
    rintro path ⟨⟩
    decide +kernel
  have feasible : (unsatCore.check smallConfig .top .top incrementTrace {}).1.toOption.any
      Feasibility.isFeasible := by
    decide +kernel
  cases run : unsatCore.check smallConfig .top .top incrementTrace {} with
  | mk result after =>
      rw [run] at feasible
      cases result with
      | error error => cases feasible
      | ok outcome =>
          exact ⟨smallConfig_workable, incrementTrace_regular, small, outcome, after, rfl, feasible,
            (checkers_decide_feasibility smallConfig_workable incrementTrace_regular).1
              unsatCore {} outcome after small run⟩

end Increment

end TraceChecker

end AbstractionRefinement
