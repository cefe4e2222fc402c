import AbstractionRefinement.Proofs.ExplicitStates
import AbstractionRefinement.Proofs.ModelProjections
import AbstractionRefinement.Proofs.WidenedRanges

/-!
# Explicit states of formulas

The explicit states of a formula are read off the projections of its models.  They are
well formed, and every solution of the formula in the trusted intervals ends in a store
of one of them.  So the initial states stand for all initial stores, and the successors
of a state stand for all stores to which an edge leads from a store of that state.
-/

namespace AbstractionRefinement

open AbstractionRefinement.Computation

namespace ExplicitState

open Query

variable {config : SolverConfig} {symbols : List Symbol} {formula : Expr}
  {projection : Valuation} {steps : VarDecl → Nat} {limit : Option Nat}
  {states : List ExplicitState}

/-- A time step is dropped where every variable occurs at one step only. -/
theorem mem_dropSteps (sorted : OrderedMap.Sorted projection.entries)
    (atSteps : ∀ symbol ∈ projection.symbols, symbol.index = some (steps symbol.decl))
    {symbol : Symbol} {value : Value} : (symbol, value) ∈ (dropSteps projection).entries ↔
      symbol.index = none ∧
        (⟨symbol.decl, some (steps symbol.decl)⟩, value) ∈ projection.entries := by
  have listed {symbol : Symbol} {value : Value} :
      (symbol, value) ∈ projection.entries.map
        (fun entry => (⟨entry.1.decl, none⟩, entry.2)) ↔ symbol.index = none ∧
          (⟨symbol.decl, some (steps symbol.decl)⟩, value) ∈ projection.entries := by
    rw [List.mem_map]
    constructor
    · rintro ⟨⟨⟨decl, index⟩, _⟩, member, same⟩
      cases same
      have atStep := atSteps _ (List.mem_map_of_mem member)
      exact ⟨rfl, atStep ▸ member⟩
    · obtain ⟨decl, index⟩ := symbol
      rintro ⟨rfl, member⟩
      exact ⟨_, member, rfl⟩
  constructor
  · exact fun member => listed.mp (OrderedMap.mem_of_mem_ofList member)
  · intro given
    obtain ⟨value', found⟩ := Option.isSome_iff_exists.mp
      (OrderedMap.isSome_find?_ofList (List.mem_map_of_mem (listed.mpr given)))
    have stored := OrderedMap.mem_of_find? found
    have given' := listed.mp (OrderedMap.mem_of_mem_ofList stored)
    rw [sorted.value_unique given.2 given'.2]
    exact stored

/-- The state of a projection onto variables at their time steps. -/
theorem wellFormed_dropSteps {vocabulary : List VarDecl}
    (projects : projection.Projects config symbols [formula])
    (atSteps : ∀ symbol ∈ symbols, symbol.index = some (steps symbol.decl))
    (listed : ∀ symbol ∈ formula.symbols, symbol.decl ∈ vocabulary) :
    (values (dropSteps projection)).WellFormed vocabulary := by
  have atSteps' : ∀ symbol ∈ projection.symbols, symbol.index = some (steps symbol.decl) :=
    fun symbol member => atSteps symbol (projects.mem_symbols.mp member).1
  have stored {entry : Symbol × Value} (member : entry ∈ (dropSteps projection).entries) :=
    (mem_dropSteps projects.sorted atSteps').mp member
  refine ⟨fun entry member => ?_, OrderedMap.sorted_ofList _, fun entry member => ?_⟩
  · obtain ⟨unindexed, stored⟩ := stored member
    exact ⟨unindexed, projects.wellTyped (⟨entry.1.decl, some _⟩, entry.2) stored⟩
  · obtain ⟨-, stored⟩ := stored member
    obtain ⟨other, isOther, occurs⟩ := (projects.mem_symbols.mp (List.mem_map_of_mem stored)).2
    rw [List.mem_singleton.mp isOther] at occurs
    exact listed ⟨entry.1.decl, some _⟩ occurs

theorem represents_dropSteps (projects : projection.Projects config symbols [formula])
    (atSteps : ∀ symbol ∈ symbols, symbol.index = some (steps symbol.decl))
    {given : Symbol → Value} (isMatch : projection.Matches given) :
    (values (dropSteps projection)).Represents (storeAt given steps) := by
  have atSteps' : ∀ symbol ∈ projection.symbols, symbol.index = some (steps symbol.decl) :=
    fun symbol member => atSteps symbol (projects.mem_symbols.mp member).1
  intro entry member
  exact isMatch _ ((mem_dropSteps projects.sorted atSteps').mp member).2

/-- The tracked variables at their time steps. -/
def symbolsAt (precision : ExplicitPrecision) (next : Indexing) : List Symbol :=
  precision.vars.map fun decl => ⟨decl, some (next.get decl)⟩

/-- The query for the states of a formula. -/
def statesQuery (symbols : List Symbol) (limit : Option Nat) (formula : Expr) :
    Query (List ExplicitState) := do
  Query.add formula
  match ← Query.allModels symbols limit with
  | some models => return models.map fun model => values (dropSteps model)
  | none => return [values (dropSteps (← Query.forcedValues symbols))]

/-- The run of the query for the states of a formula. -/
def statesRun (config : SolverConfig) (limit : Option Nat) (precision : ExplicitPrecision)
    (next : Indexing) (formula : Expr) (world : SolverStatistics) : OpenSession :=
  (statesQuery (symbolsAt precision next) limit formula (opened config .forIncrementalUse world)).2

/-- States are found only if no deadline passes. -/
theorem punctual_of_statesOf {precision : ExplicitPrecision} {next : Indexing} {formula : Expr}
    {world after : SolverStatistics}
    (run : statesOf config limit precision next formula world = (.ok states, after)) :
    config.timeoutPasses = false := by
  rw [Bool.eq_false_iff]
  intro late
  have undecided : (Session.start config .forIncrementalUse).Undecided config :=
    ⟨rfl, late, by rintro _ ⟨⟩⟩
  have never : (statesQuery (symbolsAt precision next) limit formula).Ensures
      (opened config .forIncrementalUse world) fun _ _ => False := by
    unfold statesQuery
    rw [ensures_bind]
    apply (ensures_add_of_undecided undecided formula).mono
    intro _ asserted undecided'
    rw [ensures_bind]
    exact (ensures_allModels_of_undecided undecided').mono fun _ _ never => never.elim
  exact Query.of_inSession never run

/-- The query for the projections of a formula's models. -/
def modelsQuery (symbols : List Symbol) (limit : Option Nat) (formula : Expr) :
    Query (Option (List Valuation)) := do
  Query.add formula
  Query.allModels symbols limit

theorem statesQuery_eq (symbols : List Symbol) (limit : Option Nat) (formula : Expr) :
    statesQuery symbols limit formula = (do
      match ← modelsQuery symbols limit formula with
      | some models => return models.map fun model => values (dropSteps model)
      | none => return [values (dropSteps (← Query.forcedValues symbols))]) := by
  unfold statesQuery modelsQuery
  rw [bind_assoc]

theorem keeps_modelsQuery {state : OpenSession} {alphabet : List Symbol}
    (workable : config.Workable) (fewLevels : Encoding.levelTotal config alphabet < 2147483648)
    (plain : formula.choosesTruth = false) (listed : ∀ symbol ∈ formula.symbols, symbol ∈ alphabet)
    (serves : state.Serves config alphabet []) :
    (modelsQuery symbols limit formula).Keeps state fun models after =>
      (Enumerated config symbols limit [formula] models ∧
        LeavesNothing config [formula] models) ∧ after.Serves config alphabet [formula] := by
  unfold modelsQuery
  apply keeps_bind (keeps_add (fun _ => serves) fun _ => listed)
  intro _ asserted _ served
  exact keeps_allModels workable fewLevels (List.forall_mem_singleton.mpr plain)
    (List.forall_mem_singleton.mpr listed) fun few => (served few).1

/-- The formulas that were asserted when no further model was found. -/
def lastFormulas (config : SolverConfig) (precision : ExplicitPrecision) (next : Indexing)
    (formula : Expr) (world : SolverStatistics) : List Expr :=
  match modelsQuery (symbolsAt precision next) none formula
    (opened config .forIncrementalUse world) with
  | (.ok (some projections), _) => excluding [formula] projections
  | _ => []

/-- The session that the states of a formula take allocates few nodes, and so does the
confirmation that there are no further ones. -/
def StaysSmall (config : SolverConfig) (precision : ExplicitPrecision) (next : Indexing)
    (formula : Expr) (world : SolverStatistics) : Prop :=
  (statesRun config none precision next formula world).Few ∧
    Session.confirmationSize config (lastFormulas config precision next formula world) ≤ 32767

instance (config : SolverConfig) (precision : ExplicitPrecision) (next : Indexing)
    (formula : Expr) (world : SolverStatistics) :
    Decidable (StaysSmall config precision next formula world) :=
  inferInstanceAs (Decidable (_ ∧ _))

/-- The states are well formed and stand for the stores in which solutions of the formula
end. -/
structure Cover (config : SolverConfig) (vocabulary : List VarDecl) (formula : Expr)
    (versions : VarDecl → Nat) (states : List ExplicitState) : Prop where
  wellFormed : ∀ state ∈ states, state.WellFormed vocabulary
  covers {given : Symbol → Value} : config.Reaches formula given →
    formula.evalBool (total given) = some true →
      ∃ state ∈ states, state.Represents (storeAt given versions)

/-- Every trusted solution agrees with one of the projections that leave nothing. -/
theorem exists_matching {projections : List Valuation} (positive : 0 < config.margin)
    (projects : ∀ projection ∈ projections, projection.Projects config symbols [formula])
    (nothing : LeavesNothing config [formula] (some projections))
    (confirmed : Session.confirmationSize config (excluding [formula] projections) ≤ 32767)
    {given : Symbol → Value} (reaches : config.Reaches formula given)
    (holds : formula.truth (total given) = true) :
    ∃ projection ∈ projections, projection.Matches given := by
  rcases nothing with ⟨projection, member, isEmpty⟩ | refuted
  · refine ⟨projection, member, fun entry stored => ?_⟩
    rw [isEmpty] at stored
    cases stored
  · by_contra differ
    have considers : config.Considers (excluding [formula] projections) given :=
      reaches.considers positive (List.mem_append_left _ (List.mem_singleton_self formula))
    refine refuted confirmed given considers (List.forall_mem_append.mpr ⟨?_, ?_⟩)
    · exact List.forall_mem_singleton.mpr holds
    · refine List.forall_mem_map.mpr fun projection member => ?_
      refine ((projects projection member).truth_exclusion fun symbol => (reaches symbol).1).mpr ?_
      exact fun isMatch => differ ⟨projection, member, isMatch⟩

/-- The states of a formula cover its solutions among the trusted values. -/
theorem cover_of_statesOf {vocabulary : List VarDecl} {alphabet : List Symbol}
    {precision : ExplicitPrecision} {next : Indexing} {world after : SolverStatistics}
    {states : List ExplicitState} (workable : config.Workable) (positive : 0 < config.margin)
    (fewLevels : Encoding.levelTotal config alphabet < 2147483648)
    (encodable : formula.Encodable)
    (listed : ∀ symbol ∈ formula.symbols, symbol ∈ alphabet ∧ symbol.decl ∈ vocabulary)
    (small : StaysSmall config precision next formula world)
    (run : statesOf config none precision next formula world = (.ok states, after)) :
    Cover config vocabulary formula next.get states := by
  have inAlphabet (symbol : Symbol) (occurs : symbol ∈ formula.symbols) : symbol ∈ alphabet :=
    (listed symbol occurs).1
  have serves := opened_serves workable.lawful (punctual_of_statesOf run) .forIncrementalUse world
    alphabet
  have keeps : (statesQuery (symbolsAt precision next) none formula).Keeps
      (opened config .forIncrementalUse world) fun states _ => ∃ projections,
        lastFormulas config precision next formula world = excluding [formula] projections ∧
        states = projections.map (fun projection => values (dropSteps projection)) ∧
        (∀ projection ∈ projections,
          projection.Projects config (symbolsAt precision next) [formula]) ∧
        LeavesNothing config [formula] (some projections) := by
    rw [statesQuery_eq]
    apply keeps_bind (keeps_modelsQuery workable fewLevels encodable.plain inAlphabet
      serves).with_run
    rintro (_ | projections) found _ enumerated
    · apply keeps_bind (keeps_forcedValues workable fewLevels
        (List.forall_mem_singleton.mpr encodable.plain) (List.forall_mem_singleton.mpr inAlphabet)
        (Nat.zero_le _) fun few => (enumerated few).2.2)
      intro forced after evolves _
      apply keeps_pure
      intro few
      obtain ⟨_, bound⟩ := (enumerated (few.of_evolves evolves)).2.1.1
      obtain ⟨_, isLimit, -⟩ := bound.exceeds
      cases isLimit
    · apply keeps_pure
      intro few
      obtain ⟨given, ⟨enumerated, nothing⟩, -⟩ := enumerated few
      refine ⟨projections, ?_, rfl, enumerated.1.projects, nothing⟩
      unfold lastFormulas
      rw [given]
  obtain ⟨projections, last, rfl, projects, nothing⟩ := keeps.of_inSession small.1 run
  have confirmed := small.2
  have atSteps : ∀ symbol ∈ symbolsAt precision next,
      symbol.index = some (next.get symbol.decl) :=
    List.forall_mem_map.mpr fun decl _ => rfl
  refine ⟨List.forall_mem_map.mpr fun projection member => ?_, fun {given} reaches solution => ?_⟩
  · exact wellFormed_dropSteps (projects projection member) atSteps
      fun symbol occurs => (listed symbol occurs).2
  · have isTrue : formula.truth (total given) = true :=
      encodable.refines_truth (fun symbol _ => reaches symbol) true solution
    obtain ⟨projection, member, isMatch⟩ : ∃ projection ∈ projections,
        projection.Matches given := by
      rw [last] at confirmed
      exact exists_matching positive projects nothing confirmed reaches isTrue
    exact ⟨_, List.mem_map_of_mem member,
      represents_dropSteps (projects projection member) atSteps isMatch⟩

/-- The successors are the states of the formula of the state and the action. -/
theorem exists_statesOf_of_successors {α : Type} [ExprAction α] {precision : ExplicitPrecision}
    {action : α} {initial : Expr} {world after : SolverStatistics} {valuation : Valuation}
    (run : (analysis config initial limit).successors precision (values valuation) action world =
      (.ok states, after)) :
    ∃ formula, Expr.mkAnd [valuation.toExpr, ExprAction.toExpr action] = .ok formula ∧
      statesOf config limit precision (ExprAction.nextIndexing action)
        (formula.unfold (.constant 0)) world = (.ok states, after) := by
  have ensures : ((analysis config initial limit).successors precision (values valuation)
      action).Ensures world fun states' after' => (states' = states ∧ after' = after) →
        ∃ formula, Expr.mkAnd [valuation.toExpr, ExprAction.toExpr action] = .ok formula ∧
          statesOf config limit precision (ExprAction.nextIndexing action)
            (formula.unfold (.constant 0)) world = (.ok states, after) := by
    unfold analysis
    dsimp only
    rw [if_neg (by rintro ⟨⟩), ensures_bind, ensures_ofFormula]
    intro formula built
    apply ensures_of_run
    rintro states' after' returned ⟨rfl, rfl⟩
    exact ⟨formula, built, returned⟩
  exact ensures.of_run run ⟨rfl, rfl⟩

end ExplicitState

end AbstractionRefinement
