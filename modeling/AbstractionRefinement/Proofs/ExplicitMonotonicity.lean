import AbstractionRefinement.Proofs.ExplicitTransfers

/-!
# Monotonicity of explicit states

The states of a formula are projections of its solutions, or the values that are forced
when there are too many projections.  A state with more known values gives a narrower
formula: it has fewer solutions, and the symbols of which only it speaks have a fixed
value.  So its projections are at most as many, and the successors of a state are subsumed
by those of a state that subsumes it, whatever the limit is.
-/

namespace AbstractionRefinement

open AbstractionRefinement.Computation

/-- The symbol at the time step at which it stands after unfolding. -/
def Symbol.unfolded (indexing : Indexing) (symbol : Symbol) : Symbol :=
  ⟨symbol.decl, some (symbol.index.getD (indexing.get symbol.decl))⟩

theorem Symbol.unfold_sym (indexing : Indexing) (symbol : Symbol) :
    (Expr.sym symbol).unfold indexing = .sym (symbol.unfolded indexing) := by
  obtain ⟨decl, _ | step⟩ := symbol <;> rfl

theorem Symbol.hasValue_false {symbol : Symbol} (boolean : symbol.ty = .bool) :
    symbol.hasValue (.bool false) = .unary .not (.sym symbol) .bool := by
  show (Expr.mkNot symbol.toExpr).toOption.getD .bottom = _
  have boolean' : symbol.toExpr.ty = .bool := boolean
  rw [Expr.mkNot, Expr.expectType, if_pos boolean']
  rfl

theorem Symbol.hasValue_of_ne_bool {symbol : Symbol} {value : Value}
    (typed : value.HasType symbol.ty) (other : ∀ truth, value ≠ .bool truth) :
    symbol.hasValue value = .binary .eq (.sym symbol) (.lit value) .bool := by
  rcases hasValue_cases symbol typed with ⟨isTrue, -⟩ | ⟨isFalse, -⟩ | same
  · exact absurd isTrue (other true)
  · exact absurd isFalse (other false)
  · exact same

/-- The equation of a symbol and a value at the time step of the symbol. -/
theorem Symbol.unfold_hasValue (indexing : Indexing) (symbol : Symbol) {value : Value}
    (typed : value.HasType symbol.ty) :
    (symbol.hasValue value).unfold indexing = (symbol.unfolded indexing).hasValue value := by
  have unfolds := symbol.unfold_sym indexing
  have typed' : value.HasType (symbol.unfolded indexing).ty := typed
  by_cases boolean : ∃ truth, value = .bool truth
  · obtain ⟨_ | _, rfl⟩ := boolean
    · rw [hasValue_false typed.ty_eq.symm, hasValue_false typed'.ty_eq.symm]
      exact congrArg (fun operand => Expr.unary .not operand .bool) unfolds
    · exact unfolds
  · have other := not_exists.mp boolean
    rw [hasValue_of_ne_bool typed other, hasValue_of_ne_bool typed' other]
    exact congrArg (fun operand => Expr.binary .eq operand (.lit value) .bool) unfolds

namespace Valuation

variable {valuation other : Valuation} {config : SolverConfig}

theorem WellTyped.isConjunction_unfold (wellTyped : valuation.WellTyped) (indexing : Indexing) :
    Expr.IsConjunction
      (valuation.entries.map fun entry => (entry.1.unfolded indexing).hasValue entry.2)
      (valuation.toExpr.unfold indexing) := by
  have isConjunction := wellTyped.isConjunction.unfold indexing
  rw [List.map_map] at isConjunction
  rwa [List.map_congr_left fun entry member =>
    (Symbol.unfold_hasValue indexing entry.1 (wellTyped entry member)).symm]

theorem WellTyped.truth_unfold (wellTyped : valuation.WellTyped) (indexing : Indexing)
    {values : Symbol → Value} (typed : ∀ symbol, (values symbol).HasType symbol.ty) :
    (valuation.toExpr.unfold indexing).truth (total values) = true ↔
      ∀ entry ∈ valuation.entries, values (entry.1.unfolded indexing) = entry.2 := by
  rw [(wellTyped.isConjunction_unfold indexing).truth_iff, List.forall_mem_map]
  refine forall₂_congr fun entry member => ?_
  have typedEntry : entry.2.HasType (entry.1.unfolded indexing).ty := wellTyped entry member
  exact Symbol.truth_hasValue typedEntry typed

theorem WellTyped.plain_unfold (wellTyped : valuation.WellTyped) (indexing : Indexing) :
    (valuation.toExpr.unfold indexing).choosesTruth = false := by
  apply (wellTyped.isConjunction_unfold indexing).plain
  rw [List.forall_mem_map]
  intro entry member
  have typedEntry : entry.2.HasType (entry.1.unfolded indexing).ty := wellTyped entry member
  exact (Symbol.encodable_hasValue _ typedEntry).1.plain

/-- The formulas of a valuation with more entries, each conjoined with the same formula, are
narrower. -/
theorem WellTyped.narrows (wellTyped : valuation.WellTyped) (indexing : Indexing)
    (subset : ∀ entry ∈ other.entries, entry ∈ valuation.entries)
    {action formula formula' : Expr}
    (isConjunction : Expr.IsConjunction [valuation.toExpr, action] formula)
    (isConjunction' : Expr.IsConjunction [other.toExpr, action] formula') :
    Query.Narrows config [formula.unfold indexing] [formula'.unfold indexing] := by
  have wellTyped' : other.WellTyped := fun entry member => wellTyped entry (subset entry member)
  have conjuncts := isConjunction.unfold indexing
  have conjuncts' := isConjunction'.unfold indexing
  have occursIn (conjunct : Expr) (symbol : Symbol) :
      Occurs symbol [conjunct] ↔ symbol ∈ conjunct.symbols := by
    simp [Occurs]
  have stands {valuation : Valuation} (wellTyped : valuation.WellTyped) {symbol : Symbol}
      (occurs : symbol ∈ (valuation.toExpr.unfold indexing).symbols) :
      ∃ entry ∈ valuation.entries, symbol = entry.1.unfolded indexing ∧
        symbol ∈ ((entry.1.unfolded indexing).hasValue entry.2).symbols := by
    obtain ⟨_, equation, occurs⟩ := (wellTyped.isConjunction_unfold indexing).mem_symbols.mp occurs
    obtain ⟨entry, member, rfl⟩ := List.mem_map.mp equation
    have typedEntry : entry.2.HasType (entry.1.unfolded indexing).ty := wellTyped entry member
    exact ⟨entry, member, Symbol.mem_symbols_hasValue _ typedEntry occurs, occurs⟩
  refine ⟨fun {values} solution => ⟨solution.admits, ?_⟩, fun {symbol} => ?_, fun {symbol} => ?_⟩
  · have typed (symbol : Symbol) := (solution.admits symbol).1
    have fulfills := solution.fulfills
    unfold Fulfills at fulfills ⊢
    rw [List.forall_mem_singleton] at fulfills ⊢
    have holds := (conjuncts.truth_iff _).mp fulfills
    refine (conjuncts'.truth_iff _).mpr ?_
    simp only [List.map_cons, List.map_nil, List.forall_mem_cons] at holds ⊢
    refine ⟨(wellTyped'.truth_unfold indexing typed).mpr fun entry member => ?_, holds.2⟩
    exact (wellTyped.truth_unfold indexing typed).mp holds.1 entry (subset entry member)
  · rw [occursIn, occursIn, conjuncts.mem_symbols, conjuncts'.mem_symbols]
    simp only [List.map_cons, List.map_nil, List.exists_mem_cons_iff]
    refine Or.imp_left fun occurs => ?_
    obtain ⟨entry, member, -, occurs⟩ := stands wellTyped' occurs
    exact (wellTyped.isConjunction_unfold indexing).mem_symbols.mpr
      ⟨_, List.mem_map_of_mem (subset entry member), occurs⟩
  · rw [occursIn, occursIn, conjuncts.mem_symbols, conjuncts'.mem_symbols]
    simp only [List.map_cons, List.map_nil, List.exists_mem_cons_iff]
    intro occurs absent
    rcases occurs with occurs | occurs
    · obtain ⟨entry, member, rfl, -⟩ := stands wellTyped occurs
      refine ⟨entry.2, fun values solution => ?_⟩
      have fulfills := solution.fulfills
      unfold Fulfills at fulfills
      rw [List.forall_mem_singleton] at fulfills
      have holds := (conjuncts.truth_iff _).mp fulfills
      simp only [List.map_cons, List.map_nil, List.forall_mem_cons] at holds
      exact (wellTyped.truth_unfold indexing fun symbol => (solution.admits symbol).1).mp holds.1
        entry member
    · exact absurd (.inr occurs) absent

end Valuation

namespace ExplicitState

open Query

variable {config : SolverConfig} {symbols : List Symbol} {steps : VarDecl → Nat}
  {limit : Option Nat} {base base' : List Expr} {states states' : List ExplicitState}

/-- The states of all projections, or the one of forced values where there are more projections
than the limit.  All forced values are found unless an answer is inconclusive. -/
inductive Reads (config : SolverConfig) (symbols : List Symbol) (limit : Option Nat)
    (base : List Expr) (conclusive : Prop) : List ExplicitState → Prop
  | enumerated {projections : List Valuation}
      (enumerated : Enumerated config symbols limit base (some projections)) :
      Reads config symbols limit base conclusive
        (projections.map fun projection => values (dropSteps projection))
  | determined {projections : List Valuation} {forced : Valuation}
      (exceeds : Exceeds config symbols limit base projections)
      (collects : Collects config symbols base conclusive forced) :
      Reads config symbols limit base conclusive [values (dropSteps forced)]

/-- With time steps dropped, a valuation is subsumed by one with fewer entries. -/
theorem leq_dropSteps {projection projection' : Valuation}
    (sorted : OrderedMap.Sorted projection.entries)
    (sorted' : OrderedMap.Sorted projection'.entries)
    (atSteps : ∀ symbol ∈ projection.symbols, symbol.index = some (steps symbol.decl))
    (subset : ∀ entry ∈ projection'.entries, entry ∈ projection.entries) :
    (values (dropSteps projection)).leq (values (dropSteps projection')) = true := by
  have atSteps' : ∀ symbol ∈ projection'.symbols, symbol.index = some (steps symbol.decl) := by
    intro symbol member
    obtain ⟨entry, isEntry, rfl⟩ := List.mem_map.mp member
    exact atSteps entry.1 (List.mem_map_of_mem (subset entry isEntry))
  unfold leq
  rw [List.all_eq_true]
  intro entry member
  obtain ⟨unindexed, stored⟩ := (mem_dropSteps sorted' atSteps').mp member
  have found : (dropSteps projection).get? entry.1 = some entry.2 :=
    (OrderedMap.sorted_ofList _).find?_eq_some_iff.mpr
      ((mem_dropSteps sorted atSteps).mpr ⟨unindexed, subset _ stored⟩)
  exact decide_eq_true found

/-- The states of narrower formulas are subsumed by those of the wider ones. -/
theorem Reads.mono {conclusive conclusive' : Prop} (narrows : Narrows config base base')
    (lawful : config.Lawful)
    (atSteps : ∀ symbol ∈ symbols, symbol.index = some (steps symbol.decl))
    (reads : Reads config symbols limit base conclusive states) (sure : conclusive)
    (reads' : Reads config symbols limit base' conclusive' states') :
    ∀ next ∈ states, ∃ next' ∈ states', next.leq next' = true := by
  have projected {base : List Expr} {projection : Valuation}
      (projects : projection.Projects config symbols base) :
      ∀ symbol ∈ projection.symbols, symbol.index = some (steps symbol.decl) :=
    fun symbol member => atSteps symbol (projects.mem_symbols.mp member).1
  have forcing {base : List Expr} {conclusive : Prop} {forced : Valuation}
      (collects : Collects config symbols base conclusive forced) {entry : Symbol × Value}
      (member : entry ∈ forced.entries) :
      entry.1 ∈ symbols ∧ Occurs entry.1 base ∧ Forces config base entry.1 entry.2 :=
    collects.forces (collects.sorted.find?_eq_some_iff.mpr member)
  cases reads with
  | enumerated enumerated =>
      intro next member
      obtain ⟨projection, isProjection, rfl⟩ := List.mem_map.mp member
      have projects := enumerated.1.projects projection isProjection
      obtain ⟨given, solution, isMatch⟩ := projects.exists_solution lawful
      cases reads' with
      | enumerated enumerated' =>
          obtain ⟨projection', isProjection', isMatch'⟩ :=
            enumerated'.1.complete (narrows.solution solution)
          have projects' := enumerated'.1.projects projection' isProjection'
          exact ⟨_, List.mem_map_of_mem isProjection', leq_dropSteps projects.sorted
            projects'.sorted (projected projects) (narrows.subset projects projects' isMatch
              isMatch')⟩
      | determined exceeds collects =>
          refine ⟨_, List.mem_singleton_self _, leq_dropSteps projects.sorted collects.sorted
            (projected projects) fun entry member => ?_⟩
          obtain ⟨listed, occurs, forces⟩ := forcing collects member
          exact (projects.mem_entries isMatch).mpr
            ⟨⟨listed, narrows.occurs occurs⟩, forces given (narrows.solution solution)⟩
  | @determined _ forced exceeds collects =>
      intro next member
      obtain rfl := List.mem_singleton.mp member
      cases reads' with
      | enumerated enumerated' =>
          -- More projections than the limit are left only where one is empty.
          obtain ⟨lists, within | ⟨projection, isProjection, isEmpty⟩⟩ := enumerated'
          · obtain ⟨bound, isLimit, more⟩ := narrows.exceeds lawful exceeds lists
            exact absurd (within bound isLimit) (Nat.not_le.mpr more)
          · refine ⟨_, List.mem_map_of_mem isProjection, ?_⟩
            have nothing : dropSteps projection = .empty := by
              rw [dropSteps, isEmpty]
              rfl
            rw [nothing]
            rfl
      | determined exceeds' collects' =>
          have determined : ∀ symbol ∈ forced.symbols,
              symbol.index = some (steps symbol.decl) := by
            intro symbol member
            obtain ⟨entry, isEntry, rfl⟩ := List.mem_map.mp member
            exact atSteps entry.1 (forcing collects isEntry).1
          refine ⟨_, List.mem_singleton_self _, leq_dropSteps collects.sorted
            collects'.sorted determined fun entry member => ?_⟩
          obtain ⟨listed, occurs, forces⟩ := forcing collects' member
          refine collects.sorted.find?_eq_some_iff.mp
            (collects.complete sure listed (narrows.occurs occurs) ?_)
          exact fun given solution => forces given (narrows.solution solution)

/-- What the query gives. -/
theorem keeps_statesQuery {unknowns : Nat} {state : OpenSession} {formula : Expr}
    (workable : config.Workable)
    (fewLevels : Encoding.levelTotal config formula.symbols < 2147483648)
    (plain : formula.choosesTruth = false) (least : unknowns ≤ state.statistics.unknowns)
    (serves : state.Serves config formula.symbols []) :
    (statesQuery symbols limit formula).Keeps state fun states after =>
      Reads config symbols limit [formula] (after.statistics.unknowns ≤ unknowns) states := by
  have plain' : ∀ other ∈ [formula], other.choosesTruth = false :=
    List.forall_mem_singleton.mpr plain
  have listed : ∀ other ∈ [formula], ∀ symbol ∈ other.symbols, symbol ∈ formula.symbols := by
    rw [List.forall_mem_singleton]
    exact fun _ => id
  rw [statesQuery_eq]
  apply keeps_bind (keeps_modelsQuery workable fewLevels plain (fun _ => id) serves)
  intro models enumerated evolves listing
  cases models with
  | some projections => exact keeps_pure fun few => .enumerated (listing few).1.1
  | none =>
      apply keeps_bind (keeps_forcedValues workable fewLevels plain' listed
        (least.trans evolves.unknowns_le) fun few => (listing few).2)
      intro forced after evolves'' collected
      apply keeps_pure
      intro few
      obtain ⟨projections, exceeds⟩ := (listing (few.of_evolves evolves'')).1.1
      rcases collected few with excludes | collects
      · obtain ⟨bound, -, more⟩ := exceeds.exceeds
        obtain ⟨projection, member⟩ := List.exists_mem_of_length_pos (Nat.zero_lt_of_lt more)
        obtain ⟨given, solution, -⟩ :=
          (exceeds.projects projection member).exists_solution workable.lawful
        exact absurd solution (excludes.not_solution given)
      · exact .determined exceeds collects

/-- The states of a formula, in a run with few nodes. -/
theorem reads_of_statesOf {precision : ExplicitPrecision} {next : Indexing} {formula : Expr}
    {world after : SolverStatistics} (workable : config.Workable)
    (fewLevels : Encoding.levelTotal config formula.symbols < 2147483648)
    (plain : formula.choosesTruth = false)
    (few : (statesRun config limit precision next formula world).Few)
    (run : statesOf config limit precision next formula world = (.ok states, after)) :
    Reads config (symbolsAt precision next) limit [formula]
      ((statesRun config limit precision next formula world).statistics.unknowns ≤ world.unknowns)
      states := by
  have least : world.unknowns ≤
      (opened config .forIncrementalUse world).statistics.unknowns := Nat.le_refl _
  have serves := opened_serves workable.lawful (punctual_of_statesOf run) .forIncrementalUse world
    formula.symbols
  exact (keeps_statesQuery workable fewLevels plain least serves).of_inSession few run

section Successors

variable {α : Type} [ExprAction α] {precision : ExplicitPrecision} {action : α}
  {initial : Expr} {world world' after after' : SolverStatistics}

/-- The query for the successors of a state meets no limit, over formulas that do not choose
between truth values. -/
structure Answerable (config : SolverConfig) (limit : Option Nat)
    (precision : ExplicitPrecision) (valuation : Valuation) (action : α)
    (world : SolverStatistics) : Prop where
  wellTyped : valuation.WellTyped
  plain : ((ExprAction.toExpr action).unfold (.constant 0)).choosesTruth = false
  fewLevels {formula : Expr} :
    Expr.mkAnd [valuation.toExpr, ExprAction.toExpr action] = .ok formula →
      Encoding.levelTotal config (formula.unfold (.constant 0)).symbols < 2147483648
  unlimited {formula : Expr} :
    Expr.mkAnd [valuation.toExpr, ExprAction.toExpr action] = .ok formula →
      MeetsNoLimit config .forIncrementalUse (statesQuery
        (symbolsAt precision (ExprAction.nextIndexing action)) limit
        (formula.unfold (.constant 0))) world

/-- A state that is not bottom has an answerable query. -/
def Regular (config : SolverConfig) (limit : Option Nat) (precision : ExplicitPrecision)
    (state : ExplicitState) (action : α) (world : SolverStatistics) : Prop :=
  ∀ valuation, state = values valuation →
    Answerable config limit precision valuation action world

theorem Answerable.reads {valuation : Valuation}
    (answerable : Answerable config limit precision valuation action world)
    (trusted : config.Trusted)
    (run : (analysis config initial limit).successors precision (values valuation) action world =
      (.ok states, after)) :
    ∃ formula, Expr.IsConjunction [valuation.toExpr, ExprAction.toExpr action] formula ∧
      Reads config (symbolsAt precision (ExprAction.nextIndexing action)) limit
        [formula.unfold (.constant 0)] True states := by
  obtain ⟨formula, built, run⟩ := exists_statesOf_of_successors run
  have isConjunction := Expr.isConjunction_of_mkAnd built
  have plain : (formula.unfold (.constant 0)).choosesTruth = false := by
    apply (isConjunction.unfold (.constant 0)).plain
    simp only [List.map_cons, List.map_nil, List.forall_mem_cons]
    exact ⟨answerable.wellTyped.plain_unfold _, answerable.plain, List.forall_mem_nil _⟩
  have calm := (answerable.unlimited built).calm
  have reads := reads_of_statesOf trusted.workable (answerable.fewLevels built) plain calm.few run
  rw [statesRun, eq_true calm.conclusive] at reads
  exact ⟨formula, isConjunction, reads⟩

/-- The successors of a state are subsumed by those of a state that subsumes it. -/
theorem successors_mono {state other : ExplicitState} (trusted : config.Trusted)
    (leq : state.leq other = true)
    (regular : state.Regular config limit precision action world)
    (regular' : other.Regular config limit precision action world')
    (run : (analysis config initial limit).successors precision state action world =
      (.ok states, after))
    (run' : (analysis config initial limit).successors precision other action world' =
      (.ok states', after')) :
    ∀ next ∈ states, ∃ next' ∈ states', next.leq next' = true := by
  cases state with
  | bottom =>
      cases run
      exact List.forall_mem_nil _
  | values valuation =>
      cases other with
      | bottom => cases leq
      | values valuation' =>
          have subset : ∀ entry ∈ valuation'.entries, entry ∈ valuation.entries := by
            intro entry member
            unfold ExplicitState.leq at leq
            exact OrderedMap.mem_of_find? (of_decide_eq_true (List.all_eq_true.mp leq entry member))
          have answerable := regular valuation rfl
          obtain ⟨formula, isConjunction, reads⟩ := answerable.reads trusted run
          obtain ⟨formula', isConjunction', reads'⟩ := (regular' valuation' rfl).reads trusted run'
          have narrows : Narrows config [formula.unfold (.constant 0)]
              [formula'.unfold (.constant 0)] :=
            answerable.wellTyped.narrows (.constant 0) subset isConjunction isConjunction'
          have atSteps : ∀ symbol ∈ symbolsAt precision (ExprAction.nextIndexing action),
              symbol.index = some ((ExprAction.nextIndexing action).get symbol.decl) := by
            intro symbol member
            obtain ⟨decl, -, rfl⟩ := List.mem_map.mp member
            rfl
          exact reads.mono narrows trusted.lawful atSteps trivial reads'

end Successors

end ExplicitState

end AbstractionRefinement
