import AbstractionRefinement.Proofs.ExplicitMonotonicity
import AbstractionRefinement.Proofs.StoreFormulas

/-!
# Best explicit abstractions

The explicit states of a formula are its projections onto the tracked variables, with the
time steps dropped.  They are a best abstraction of the stores that the formula denotes.
When there are more projections than the limit, the one state of forced values still covers
these stores.
-/

namespace AbstractionRefinement

open AbstractionRefinement.Computation

namespace ExplicitState

open Query

variable {config : SolverConfig} {limit : Option Nat} {precision : ExplicitPrecision}
  {next : Indexing} {formula : Expr} {stores : Store → Prop} {states : List ExplicitState}

/-- The state assigns the tracked variables that occur in the formula at their next versions. -/
def AssignsTracked (precision : ExplicitPrecision) (next : Indexing) (formula : Expr)
    (state : ExplicitState) : Prop :=
  ∀ decl ∈ precision.vars, ⟨decl, some (next.get decl)⟩ ∈ formula.symbols →
    ∃ valuation value, state = values valuation ∧ valuation.getVar? decl = some value

/-- Tracked variables occur in the formula at their next versions, and more of the stores than the
limit differ pairwise in such variables. -/
def LimitExceeded (limit : Option Nat) (precision : ExplicitPrecision) (next : Indexing)
    (formula : Expr) (stores : Store → Prop) : Prop :=
  (∃ decl ∈ precision.vars, ⟨decl, some (next.get decl)⟩ ∈ formula.symbols) ∧
    ∃ bound, limit = some bound ∧ ∃ reached : List Store, bound < reached.length ∧
      (∀ store ∈ reached, stores store) ∧ reached.Pairwise fun first second =>
        ∃ decl ∈ precision.vars, ⟨decl, some (next.get decl)⟩ ∈ formula.symbols ∧
          first decl ≠ second decl

/-- The states abstract the stores that a formula denotes, as well as possible within the limit. -/
def BestWithin (config : SolverConfig) (limit : Option Nat) (precision : ExplicitPrecision)
    (next : Indexing) (formula : Expr) (stores : Store → Prop) (states : List ExplicitState) :
    Prop :=
  Abstracts config stores (LimitExceeded limit precision next formula stores)
    (AssignsTracked precision next formula) states

theorem mem_symbolsAt {symbol : Symbol} : symbol ∈ symbolsAt precision next ↔
    symbol.decl ∈ precision.vars ∧ symbol.index = some (next.get symbol.decl) := by
  rw [symbolsAt, List.mem_map]
  constructor
  · rintro ⟨decl, tracked, rfl⟩
    exact ⟨tracked, rfl⟩
  · obtain ⟨decl, index⟩ := symbol
    rintro ⟨tracked, atStep⟩
    exact ⟨decl, tracked, congrArg (Symbol.mk decl) atStep.symm⟩

theorem exists_tracked {symbol : Symbol} (listed : symbol ∈ symbolsAt precision next)
    (occurs : Occurs symbol [formula]) :
    ∃ decl ∈ precision.vars, symbol = ⟨decl, some (next.get decl)⟩ ∧ symbol ∈ formula.symbols := by
  obtain ⟨decl, tracked, rfl⟩ := List.mem_map.mp listed
  obtain ⟨other, isFormula, occurs⟩ := occurs
  obtain rfl := List.mem_singleton.mp isFormula
  exact ⟨decl, tracked, rfl, occurs⟩

section Steps

variable {valuation valuation' : Valuation} {steps : VarDecl → Nat}

section Matching

variable (sorted : OrderedMap.Sorted valuation.entries)
  (atSteps : ∀ symbol ∈ valuation.symbols, symbol.index = some (steps symbol.decl))
  {given : Symbol → Value} (typed : ∀ symbol, (given symbol).HasType symbol.ty)
  (isMatch : valuation.Matches given)
include sorted atSteps typed isMatch

theorem typed_dropSteps : (dropSteps valuation).Typed := by
  intro entry member
  obtain ⟨unindexed, member⟩ := (mem_dropSteps sorted atSteps).mp member
  refine ⟨unindexed, ?_⟩
  rw [← isMatch _ member]
  exact typed ⟨entry.1.decl, some (steps entry.1.decl)⟩

theorem holds_dropSteps :
    (ExprState.toExpr (values (dropSteps valuation))).Holds (storeAt given steps) :=
  (typed_dropSteps sorted atSteps typed isMatch).holds_toExpr.mpr fun _ member =>
    isMatch _ ((mem_dropSteps sorted atSteps).mp member).2

end Matching

theorem mem_of_dropSteps_eq (sorted : OrderedMap.Sorted valuation.entries)
    (sorted' : OrderedMap.Sorted valuation'.entries)
    (atSteps : ∀ symbol ∈ valuation.symbols, symbol.index = some (steps symbol.decl))
    (atSteps' : ∀ symbol ∈ valuation'.symbols, symbol.index = some (steps symbol.decl))
    (same : dropSteps valuation = dropSteps valuation') {entry : Symbol × Value}
    (member : entry ∈ valuation.entries) : entry ∈ valuation'.entries := by
  obtain ⟨⟨decl, index⟩, value⟩ := entry
  obtain rfl : index = some (steps decl) := atSteps _ (List.mem_map_of_mem member)
  have dropped : (⟨decl, none⟩, value) ∈ (dropSteps valuation).entries :=
    (mem_dropSteps sorted atSteps).mpr ⟨rfl, member⟩
  rw [same] at dropped
  exact ((mem_dropSteps sorted' atSteps').mp dropped).2

theorem dropSteps_injOn (sorted : OrderedMap.Sorted valuation.entries)
    (sorted' : OrderedMap.Sorted valuation'.entries)
    (atSteps : ∀ symbol ∈ valuation.symbols, symbol.index = some (steps symbol.decl))
    (atSteps' : ∀ symbol ∈ valuation'.symbols, symbol.index = some (steps symbol.decl))
    (same : dropSteps valuation = dropSteps valuation') : valuation = valuation' :=
  Valuation.ext_of_sorted sorted sorted' fun _ =>
    ⟨mem_of_dropSteps_eq sorted sorted' atSteps atSteps' same,
      mem_of_dropSteps_eq sorted' sorted atSteps' atSteps same.symm⟩

end Steps

section Projections

variable {projection : Valuation}
  (projects : projection.Projects config (symbolsAt precision next) [formula])
include projects

theorem atSteps_of_projects :
    ∀ symbol ∈ projection.symbols, symbol.index = some (next.get symbol.decl) :=
  fun _ member => (mem_symbolsAt.mp (projects.mem_symbols.mp member).1).2

theorem holds_of_projects {given : Symbol → Value} (solution : config.Solution [formula] given)
    (isMatch : projection.Matches given) :
    (ExprState.toExpr (values (dropSteps projection))).Holds (storeAt given next.get) :=
  holds_dropSteps projects.sorted (atSteps_of_projects projects)
    (fun symbol => (solution.admits symbol).1) isMatch

theorem assignsTracked_of_projects :
    AssignsTracked precision next formula (values (dropSteps projection)) := by
  intro decl tracked occurs
  have listed : (⟨decl, some (next.get decl)⟩ : Symbol) ∈ projection.symbols :=
    projects.mem_symbols.mpr ⟨mem_symbolsAt.mpr ⟨tracked, rfl⟩, formula,
      List.mem_singleton_self _, occurs⟩
  obtain ⟨⟨_, value⟩, member, rfl⟩ := List.mem_map.mp listed
  refine ⟨_, value, rfl, (OrderedMap.sorted_ofList _).find?_eq_some_iff.mpr ?_⟩
  exact (mem_dropSteps projects.sorted (atSteps_of_projects projects)).mpr ⟨rfl, member⟩

end Projections

theorem typed_of_projects {projection : Valuation} (lawful : config.Lawful)
    (projects : projection.Projects config (symbolsAt precision next) [formula]) :
    (dropSteps projection).Typed := by
  obtain ⟨given, solution, isMatch⟩ := projects.exists_solution lawful
  exact typed_dropSteps projects.sorted (atSteps_of_projects projects)
    (fun symbol => (solution.admits symbol).1) isMatch

/-- Enumerated projections are the best abstraction. -/
theorem abstracts_of_lists {projections : List Valuation} (lawful : config.Lawful)
    (denotes : formula.Denotes config next.get stores) (exceeded : Prop)
    (lists : Lists config (symbolsAt precision next) [formula] projections) :
    Abstracts config stores exceeded (AssignsTracked precision next formula)
      (projections.map fun projection => values (dropSteps projection)) where
  covers store reached := by
    obtain ⟨given, solution, rfl⟩ := denotes.stands.mp reached
    obtain ⟨projection, member, isMatch⟩ := lists.complete solution
    exact ⟨_, List.mem_map_of_mem member,
      holds_of_projects (lists.projects projection member) solution isMatch⟩
  tight _ := by
    refine ⟨?_, lists.nodup.map_on fun first isFirst second isSecond same => ?_, ?_⟩
    · rw [List.forall_mem_map]
      intro projection member
      have projects := lists.projects projection member
      obtain ⟨given, solution, isMatch⟩ := projects.exists_solution lawful
      exact ⟨_, denotes.of_solution solution, holds_of_projects projects solution isMatch⟩
    · have projects := lists.projects first isFirst
      have projects' := lists.projects second isSecond
      exact dropSteps_injOn projects.sorted projects'.sorted (atSteps_of_projects projects)
        (atSteps_of_projects projects') (ExplicitState.values.inj same)
    · exact List.forall_mem_map.mpr fun projection member =>
        assignsTracked_of_projects (lists.projects projection member)
  regular := by
    rw [List.forall_mem_map]
    intro projection member
    exact (typed_of_projects lawful (lists.projects projection member)).regularCondition config

/-- Forced values are those at the end of every solution. -/
theorem holds_of_collects {conclusive : Prop} {forced : Valuation}
    (collects : Collects config (symbolsAt precision next) [formula] conclusive forced)
    {given : Symbol → Value} (solution : config.Solution [formula] given) :
    (dropSteps forced).Typed ∧
      (ExprState.toExpr (values (dropSteps forced))).Holds (storeAt given next.get) := by
  have forces {entry : Symbol × Value} (member : entry ∈ forced.entries) :=
    collects.forces (collects.sorted.find?_eq_some_iff.mpr member)
  have atSteps : ∀ symbol ∈ forced.symbols, symbol.index = some (next.get symbol.decl) :=
    List.forall_mem_map.mpr fun entry member => (mem_symbolsAt.mp (forces member).1).2
  have isMatch : forced.Matches given := fun entry member => (forces member).2.2 given solution
  have typed (symbol : Symbol) := (solution.admits symbol).1
  exact ⟨typed_dropSteps collects.sorted atSteps typed isMatch,
    holds_dropSteps collects.sorted atSteps typed isMatch⟩

/-- Different projections are attained by stores that differ in tracked variables. -/
theorem limitExceeded_of_exceeds {projections : List Valuation} (lawful : config.Lawful)
    (denotes : formula.Denotes config next.get stores)
    (exceeds : Exceeds config (symbolsAt precision next) limit [formula] projections) :
    LimitExceeded limit precision next formula stores := by
  obtain ⟨bound, isLimit, more⟩ := exceeds.exceeds
  choose! given solution isMatch using fun projection (member : projection ∈ projections) =>
    (exceeds.projects projection member).exists_solution lawful
  refine ⟨?_, bound, isLimit,
    projections.map fun projection => storeAt (given projection) next.get, ?_, ?_, ?_⟩
  · obtain ⟨projection, isProjection, occupied⟩ := exceeds.occupied
    obtain ⟨entry, member⟩ := List.exists_mem_of_ne_nil _ occupied
    obtain ⟨listed, occurs⟩ := (exceeds.projects projection isProjection).mem_symbols.mp
      (List.mem_map_of_mem member)
    obtain ⟨decl, tracked, same, occurs⟩ := exists_tracked listed occurs
    exact ⟨decl, tracked, same ▸ occurs⟩
  · rwa [List.length_map]
  · exact List.forall_mem_map.mpr fun projection member =>
      denotes.of_solution (solution projection member)
  · rw [List.pairwise_map]
    refine exceeds.nodup.imp_of_mem fun {first second} isFirst isSecond differ => ?_
    by_contra agree
    push Not at agree
    have projects := exceeds.projects first isFirst
    have projects' := exceeds.projects second isSecond
    refine differ (Valuation.ext_of_sorted projects.sorted projects'.sorted fun entry => ?_)
    rw [projects.mem_entries (isMatch first isFirst),
      projects'.mem_entries (isMatch second isSecond)]
    obtain ⟨symbol, value⟩ := entry
    refine and_congr_right fun ⟨listed, occurs⟩ => ?_
    obtain ⟨decl, tracked, rfl, occurs⟩ := exists_tracked listed occurs
    have agrees : given first ⟨decl, some (next.get decl)⟩ =
        given second ⟨decl, some (next.get decl)⟩ :=
      agree decl tracked occurs
    rw [agrees]

/-- The states that are read off a formula abstract the stores that it denotes. -/
theorem Reads.bestWithin {conclusive : Prop} (lawful : config.Lawful)
    (denotes : formula.Denotes config next.get stores)
    (reads : Reads config (symbolsAt precision next) limit [formula] conclusive states) :
    BestWithin config limit precision next formula stores states := by
  cases reads with
  | enumerated enumerated => exact abstracts_of_lists lawful denotes _ enumerated.1
  | determined exceeds collects =>
      have exceeded := limitExceeded_of_exceeds lawful denotes exceeds
      refine ⟨fun store reached => ?_, fun within => absurd exceeded within, ?_⟩
      · obtain ⟨given, solution, rfl⟩ := denotes.stands.mp reached
        exact ⟨_, List.mem_singleton_self _, (holds_of_collects collects solution).2⟩
      · obtain ⟨bound, -, more⟩ := exceeds.exceeds
        obtain ⟨projection, member⟩ := List.exists_mem_of_length_pos (Nat.zero_lt_of_lt more)
        obtain ⟨given, solution, -⟩ :=
          (exceeds.projects projection member).exists_solution lawful
        exact List.forall_mem_singleton.mpr
          ((holds_of_collects collects solution).1.regularCondition config)

/-- The Boolean variables of a formula can be numbered, and few nodes are allocated while its
states are enumerated. -/
structure Affordable (config : SolverConfig) (limit : Option Nat) (precision : ExplicitPrecision)
    (next : Indexing) (formula : Expr) (world : SolverStatistics) : Prop where
  fewLevels : Encoding.levelTotal config formula.symbols < 2147483648
  few : (statesRun config limit precision next formula world).Few

variable {world after : SolverStatistics}

theorem bestWithin_of_statesOf (workable : config.Workable)
    (denotes : formula.Denotes config next.get stores)
    (affordable : Affordable config limit precision next formula world)
    (run : statesOf config limit precision next formula world = (.ok states, after)) :
    BestWithin config limit precision next formula stores states :=
  (reads_of_statesOf workable affordable.fewLevels denotes.plain affordable.few run).bestWithin
    workable.lawful denotes

/-- The states of a formula are sorted and assign values of their types. -/
theorem typed_of_statesOf (workable : config.Workable)
    (denotes : formula.Denotes config next.get stores)
    (affordable : Affordable config limit precision next formula world)
    (run : statesOf config limit precision next formula world = (.ok states, after)) :
    ∀ state ∈ states, ∃ valuation, state = values valuation ∧ valuation.Typed ∧
      OrderedMap.Sorted valuation.entries := by
  have reads := reads_of_statesOf workable affordable.fewLevels denotes.plain affordable.few run
  cases reads with
  | enumerated enumerated =>
      exact List.forall_mem_map.mpr fun projection member =>
        ⟨_, rfl, typed_of_projects workable.lawful (enumerated.1.projects projection member),
          OrderedMap.sorted_ofList _⟩
  | determined exceeds collects =>
      obtain ⟨bound, -, more⟩ := exceeds.exceeds
      obtain ⟨projection, member⟩ := List.exists_mem_of_length_pos (Nat.zero_lt_of_lt more)
      obtain ⟨given, solution, -⟩ :=
        (exceeds.projects projection member).exists_solution workable.lawful
      exact List.forall_mem_singleton.mpr
        ⟨_, rfl, (holds_of_collects collects solution).1, OrderedMap.sorted_ofList _⟩

theorem initialStates_bestWithin {α : Type} [ExprAction α] {initial : Expr}
    (workable : config.Workable) (regular : initial.RegularCondition config)
    (affordable : Affordable config limit precision (.constant 0)
      (initial.unfold (.constant 0)) world)
    (run : (analysis (α := α) config initial limit).initialStates precision world =
      (.ok states, after)) :
    BestWithin config limit precision (.constant 0) (initial.unfold (.constant 0))
      (fun store => initial.Holds store ∧ config.InRange store) states :=
  bestWithin_of_statesOf workable (Expr.denotes_initial regular) affordable run

/-- The successors of a state under an edge abstract the stores to which the edge leads. -/
theorem successors_bestWithin {initial : Expr} {state : ExplicitState} {edge : ControlEdge}
    (workable : config.Workable) (notBottom : state ≠ bottom)
    (regularState : (ExprState.toExpr state).RegularCondition config)
    (regular : edge.Regular config)
    (affordable : Affordable config limit precision edge.next (edge.query state) world)
    (run : (analysis config initial limit).successors precision state edge world =
      (.ok states, after)) :
    BestWithin config limit precision edge.next (edge.query state)
      (config.Reached (ExprState.toExpr state) edge.statements) states := by
  cases state with
  | bottom => exact absurd rfl notBottom
  | values valuation =>
      obtain ⟨formula, built, run⟩ := exists_statesOf_of_successors run
      have isQuery : formula.unfold (.constant 0) = edge.query (values valuation) :=
        ControlEdge.query_of_mkAnd built
      rw [isQuery] at run
      exact bestWithin_of_statesOf workable (regular.denotes regularState) affordable run

end ExplicitState

end AbstractionRefinement
