import AbstractionRefinement.SolverQueries
import AbstractionRefinement.Proofs.ComputationLaws
import AbstractionRefinement.Proofs.SessionVerdicts
import AbstractionRefinement.Proofs.StateFormulas

/-!
# Verdicts and models of queries

A query asks one open session.  This file says what an answer states about the asserted
formulas, and how a call of the session is performed by a query.  Models are enumerated by
excluding the projection of every model that was found: the part of a model on some symbols
is the projection of a solution.
-/

namespace AbstractionRefinement

open AbstractionRefinement.Computation

namespace SolverConfig

variable {config : SolverConfig} {formulas formulas' : List Expr}

/-- No admitted values make all formulas true. -/
def Excludes (config : SolverConfig) (formulas : List Expr) : Prop :=
  ∀ values, config.AdmitsAll values formulas → ¬ Fulfills values formulas

/-- The model consists of admitted values for exactly the symbols of the formulas, and
makes all of them true. -/
def Solves (config : SolverConfig) (formulas : List Expr) (model : Valuation) : Prop :=
  ∃ values, config.AdmitsAll values formulas ∧ Fulfills values formulas ∧
    ∀ symbol value, model.get? symbol = some value ↔
      (∃ formula ∈ formulas, symbol ∈ formula.symbols) ∧ values symbol = value

theorem Excludes.mono (excludes : config.Excludes formulas)
    (subset : ∀ formula ∈ formulas, formula ∈ formulas') : config.Excludes formulas' :=
  fun values admits fulfills =>
    excludes values (fun formula member => admits formula (subset formula member))
      fun formula member => fulfills formula (subset formula member)

end SolverConfig

namespace Query

section Calls

variable {state : OpenSession} {α : Type}

theorem ensures_perform {operation : SessionState (Except SolverError α)}
    {returns : α → OpenSession → Prop}
    (holds : SessionState.Ensures operation state.session fun result session =>
      ∀ value, result = .ok value → returns value { state with session }) :
    (perform operation).Ensures state returns := by
  apply ensures_of_run
  intro result after run
  unfold SessionState.Ensures at holds
  unfold perform at run
  rcases outcome : operation state.session with ⟨computed, session⟩
  rw [outcome] at run holds
  cases computed with
  | error error => cases run
  | ok value =>
      cases run
      exact holds _ rfl

theorem ensures_perform_run (operation : SessionState (Except SolverError α)) :
    (perform operation).Ensures state fun value after =>
      (operation state.session).1 = .ok value ∧
        after = { state with session := (operation state.session).2 } := by
  apply ensures_perform
  intro value returned
  exact ⟨returned, rfl⟩

theorem ensures_runIn {query : Query α} {session : Session} {statistics : SolverStatistics}
    {returns : α → Prop}
    (answers : query.Ensures ⟨session, statistics⟩ fun result _ => returns result) :
    (query.runIn session).Ensures statistics fun result _ => returns result := by
  apply ensures_of_run
  intro result after run
  unfold runIn at run
  rcases outcome : query ⟨session, statistics⟩ with ⟨_ | result', state⟩
  · rw [outcome] at run
    cases run
  · rw [outcome] at run
    cases run
    exact answers.of_run outcome

end Calls

end Query

/-- The valuation is the projection of a solution of the formulas onto the listed symbols. -/
structure Valuation.Projects (projection : Valuation) (config : SolverConfig)
    (symbols : List Symbol) (formulas : List Expr) : Prop where
  sorted : OrderedMap.Sorted projection.entries
  mem_symbols {symbol : Symbol} : symbol ∈ projection.symbols ↔
    symbol ∈ symbols ∧ ∃ formula ∈ formulas, symbol ∈ formula.symbols
  solved : ∃ values, config.AdmitsAll values formulas ∧ Fulfills values formulas ∧
    projection.Matches values

namespace Valuation.Projects

variable {projection : Valuation} {config : SolverConfig} {symbols : List Symbol}
  {formulas : List Expr}

theorem wellTyped (projects : projection.Projects config symbols formulas) :
    projection.WellTyped := by
  intro entry member
  obtain ⟨values, admits, -, isMatch⟩ := projects.solved
  obtain ⟨formula, isFormula, occurs⟩ := (projects.mem_symbols.mp (List.mem_map_of_mem member)).2
  rw [← isMatch entry member]
  exact (admits formula isFormula entry.1 occurs).1

theorem mem_symbols_toExpr (projects : projection.Projects config symbols formulas)
    {symbol : Symbol} (occurs : symbol ∈ projection.toExpr.symbols) :
    ∃ formula ∈ formulas, symbol ∈ formula.symbols :=
  (projects.mem_symbols.mp (projects.wellTyped.mem_symbols_toExpr occurs)).2

end Valuation.Projects

namespace Query

variable {config : SolverConfig} {base formulas : List Expr} {formula : Expr}
  {state : OpenSession}

theorem mem_restrictModel {model : Valuation} {symbols : List Symbol} {symbol : Symbol}
    {value : Value} : (symbol, value) ∈ (restrictModel model symbols).entries ↔
      symbol ∈ symbols ∧ model.get? symbol = some value := by
  have listed {value : Value} :
      (symbol, value) ∈ symbols.filterMap (fun symbol =>
        (model.get? symbol).map fun value => (symbol, value)) ↔
        symbol ∈ symbols ∧ model.get? symbol = some value := by
    simp only [List.mem_filterMap, Option.map_eq_some_iff, Prod.mk.injEq]
    constructor
    · rintro ⟨_, member, _, found, rfl, rfl⟩
      exact ⟨member, found⟩
    · rintro ⟨member, found⟩
      exact ⟨symbol, member, value, found, rfl, rfl⟩
  constructor
  · intro member
    exact listed.mp (OrderedMap.mem_of_mem_ofList member)
  · intro given
    have member := listed.mpr given
    obtain ⟨value', found⟩ := Option.isSome_iff_exists.mp
      (OrderedMap.isSome_find?_ofList (List.mem_map_of_mem member))
    have stored := OrderedMap.mem_of_find? found
    have same := (listed.mp (OrderedMap.mem_of_mem_ofList stored)).2
    rw [given.2] at same
    cases same
    exact stored

/-- The part of a model has the values that the model gives to listed symbols. -/
theorem mem_entries_restrictModel {model : Valuation} {values : Symbol → Value}
    (given : ∀ symbol value, model.get? symbol = some value ↔
      (∃ formula ∈ formulas, symbol ∈ formula.symbols) ∧ values symbol = value)
    (included : ∀ formula ∈ base, formula ∈ formulas)
    (occurs : ∀ formula ∈ formulas, ∀ symbol ∈ formula.symbols,
      ∃ other ∈ base, symbol ∈ other.symbols)
    {symbols : List Symbol} {symbol : Symbol} {value : Value} :
    (symbol, value) ∈ (restrictModel model symbols).entries ↔
      (symbol ∈ symbols ∧ ∃ formula ∈ base, symbol ∈ formula.symbols) ∧
        values symbol = value := by
  have occursIn : (∃ formula ∈ formulas, symbol ∈ formula.symbols) ↔
      ∃ formula ∈ base, symbol ∈ formula.symbols :=
    ⟨fun ⟨formula, member, occursHere⟩ => occurs formula member symbol occursHere,
      fun ⟨formula, member, occursHere⟩ => ⟨formula, included formula member, occursHere⟩⟩
  rw [mem_restrictModel, given, and_assoc, occursIn]

/-- The symbols of a part of a model are the listed ones that occur. -/
theorem mem_symbols_restrictModel {model : Valuation} {values : Symbol → Value}
    (given : ∀ symbol value, model.get? symbol = some value ↔
      (∃ formula ∈ formulas, symbol ∈ formula.symbols) ∧ values symbol = value)
    (included : ∀ formula ∈ base, formula ∈ formulas)
    (occurs : ∀ formula ∈ formulas, ∀ symbol ∈ formula.symbols,
      ∃ other ∈ base, symbol ∈ other.symbols)
    {symbols : List Symbol} {symbol : Symbol} :
    symbol ∈ (restrictModel model symbols).symbols ↔
      symbol ∈ symbols ∧ ∃ formula ∈ base, symbol ∈ formula.symbols := by
  rw [Valuation.symbols, List.mem_map]
  constructor
  · rintro ⟨⟨_, value⟩, stored, rfl⟩
    exact ((mem_entries_restrictModel given included occurs).mp stored).1
  · intro occursHere
    exact ⟨(symbol, values symbol),
      (mem_entries_restrictModel given included occurs).mpr ⟨occursHere, rfl⟩, rfl⟩

theorem projects_restrictModel {model : Valuation} (solves : config.Solves formulas model)
    (included : ∀ formula ∈ base, formula ∈ formulas)
    (occurs : ∀ formula ∈ formulas, ∀ symbol ∈ formula.symbols,
      ∃ other ∈ base, symbol ∈ other.symbols)
    (symbols : List Symbol) : (restrictModel model symbols).Projects config symbols base := by
  obtain ⟨values, admits, fulfills, given⟩ := solves
  exact ⟨OrderedMap.sorted_ofList _, mem_symbols_restrictModel given included occurs, values,
    fun formula member => admits formula (included formula member),
    fun formula member => fulfills formula (included formula member),
    fun entry stored => ((mem_entries_restrictModel given included occurs).mp stored).2⟩

end Query

end AbstractionRefinement
