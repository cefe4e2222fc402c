import AbstractionRefinement.Proofs.ModelProjections

/-!
# Formulas that denote stores

The query of a transfer function is a formula over time steps.  Its solutions end in
stores: those of the initial condition, or those to which the statements of an edge lead
from a state.  An abstraction of these stores is a list of states.  The best one covers
them with states each of which contains one of them.
-/

namespace AbstractionRefinement

open AbstractionRefinement.Computation

/-- The stores to which statements lead from those with a condition, through stores within the
configured intervals. -/
def SolverConfig.Reached (config : SolverConfig) (condition : Expr) (statements : List Statement)
    (final : Store) : Prop :=
  ∃ store, condition.Holds store ∧ Executes config.InRange statements store final

theorem SolverConfig.Lawful.exists_inRange {config : SolverConfig} (lawful : config.Lawful)
    {decl : VarDecl} {value : Value} (admits : config.Admits decl value) :
    ∃ store : Store, config.InRange store ∧ store decl = value := by
  choose sample admitted using lawful.exists_admits
  refine ⟨Store.write sample decl value, fun other => ?_, Store.write_self ..⟩
  by_cases same : other = decl
  · subst same
    rwa [Store.write_self]
  · rw [Store.write_of_ne _ same]
    exact admitted other

namespace Expr

variable {config : SolverConfig} {formula : Expr} {versions : VarDecl → Nat}
  {stores : Store → Prop}

/-- The stores are those in which the solutions of the formula end.  The formula chooses between
no truth values, and all of its variables are at time steps. -/
structure Denotes (config : SolverConfig) (formula : Expr) (versions : VarDecl → Nat)
    (stores : Store → Prop) : Prop where
  plain : formula.choosesTruth = false
  indexed : ∀ symbol ∈ formula.symbols, symbol.index.isSome
  stands {store : Store} :
    stores store ↔ ∃ values, config.Solution [formula] values ∧ storeAt values versions = store

theorem Denotes.of_solution (denotes : formula.Denotes config versions stores)
    {values : Symbol → Value} (solution : config.Solution [formula] values) :
    stores (storeAt values versions) :=
  denotes.stands.mpr ⟨values, solution, rfl⟩

/-- A regular condition has a truth value at every store within the configured intervals. -/
theorem RegularCondition.isSome_evalBool (regular : formula.RegularCondition config)
    {store : Store} (inside : config.InRange store) : (formula.evalBool store.read).isSome := by
  obtain ⟨value, evaluates⟩ := Option.isSome_iff_exists.mp (regular.defined inside)
  have typed : ∀ symbol ∈ formula.symbols, OptionHasType (store.read symbol) symbol.ty := by
    intro symbol occurs value known
    obtain ⟨decl, index⟩ := symbol
    obtain rfl : index = none := regular.current.index_eq_none _ occurs
    obtain rfl := Option.some.inj known
    exact (inside decl).1
  obtain ⟨truth, -, holds⟩ := regular.encodable.wellTyped.exists_bool regular.boolean typed evaluates
  rw [holds]
  rfl

theorem IsConjunction.regularCondition {operands : List Expr}
    (isConjunction : IsConjunction operands formula)
    (all : ∀ operand ∈ operands, operand.RegularCondition config) :
    formula.RegularCondition config where
  toProperCondition :=
    isConjunction.properCondition fun operand member => (all operand member).toProperCondition
  defined _ inside := isSome_eval_of_evalBool
    (isConjunction.isSome_evalBool fun operand member => (all operand member).isSome_evalBool inside)

theorem Settled.truth_iff (settled : formula.Settled config) {values : Symbol → Value}
    (admitted : ∀ symbol, config.Admits symbol.decl (values symbol)) :
    formula.truth (total values) = true ↔ formula.evalBool (total values) = some true := by
  obtain ⟨truth, evaluates⟩ := Option.isSome_iff_exists.mp (settled.decided admitted)
  have same := settled.encodable.refines_truth (fun symbol _ => admitted symbol) truth evaluates
  rw [same, evaluates, Option.some_inj]

/-- The diagram of an unfolded condition is true where the condition holds at the store. -/
theorem RegularCondition.truth_unfold (regular : formula.RegularCondition config)
    (indexing : Indexing) {values : Symbol → Value}
    (admitted : ∀ symbol, config.Admits symbol.decl (values symbol)) :
    (formula.unfold indexing).truth (total values) = true ↔
      formula.Holds (storeAt values indexing.get) := by
  have defined : ∀ statement ∈ [Statement.assume formula], statement.Defined config :=
    List.forall_mem_singleton.mpr (List.forall_mem_singleton.mpr regular.defined)
  have settled := (spellsOut_unfold regular.toProperCondition indexing).settled defined
    (List.mem_singleton_self _)
  rw [settled.truth_iff admitted, unfold_eq_atVersions regular.current.unprimed,
    regular.current.evalBool_atVersions]

/-- An unfolded formula that spells out statements denotes the stores to which they lead. -/
theorem denotes_of_spellsOut {statements : List Statement} {indexing : Indexing}
    (spellsOut : SpellsOut indexing.get statements [formula.unfold indexing])
    (defined : ∀ statement ∈ statements, statement.Defined config) :
    (formula.unfold indexing).Denotes config (versionsAfter indexing.get statements)
      fun final => ∃ store, Executes config.InRange statements store final := by
  have settled := spellsOut.settled defined (List.mem_singleton_self _)
  refine ⟨settled.encodable.plain, fun symbol occurs => ?_, ?_⟩
  · obtain ⟨-, -, -, indexed⟩ := exists_of_mem_symbols_unfoldUnder occurs
    exact indexed
  · intro final
    have describes (values : Symbol → Value) := spellsOut.holds values
    simp only [List.forall_mem_singleton] at describes
    constructor
    · rintro ⟨store, executes⟩
      obtain ⟨values, admitted, -, ends, described⟩ := executes.exists_describes indexing.get
      exact ⟨values, ⟨admitted, List.forall_mem_singleton.mpr
        ((settled.truth_iff admitted).mpr ((describes values).mpr described))⟩, ends⟩
    · rintro ⟨values, ⟨admitted, fulfills⟩, rfl⟩
      have holds := (settled.truth_iff admitted).mp (fulfills _ (List.mem_singleton_self _))
      exact ⟨_, ((describes values).mp holds).executes admitted⟩

/-- An initial condition denotes the stores with the condition. -/
theorem denotes_initial {initial : Expr} (regular : initial.RegularCondition config) :
    (initial.unfold (.constant 0)).Denotes config (Indexing.constant 0).get fun store =>
      initial.Holds store ∧ config.InRange store := by
  have defined : ∀ statement ∈ [Statement.assume initial], statement.Defined config :=
    List.forall_mem_singleton.mpr (List.forall_mem_singleton.mpr regular.defined)
  have denotes := denotes_of_spellsOut
    (spellsOut_unfold regular.toProperCondition (.constant 0)) defined
  refine ⟨denotes.plain, denotes.indexed, fun {store} => Iff.trans ?_ denotes.stands⟩
  constructor
  · rintro ⟨holds, inside⟩
    exact ⟨store, .cons inside (.assume holds) (.nil inside)⟩
  · rintro ⟨start, executes⟩
    cases executes with
    | cons inside runs rest =>
        cases runs with
        | assume holds =>
            cases rest with
            | nil => exact ⟨holds, inside⟩

end Expr

namespace ControlEdge

/-- The question for the successors of a state under an edge. -/
def query {σ : Type} [ExprState σ] (edge : ControlEdge) (state : σ) : Expr :=
  (Expr.nary .and [ExprState.toExpr state, edge.formula] .bool).unfold (.constant 0)

variable {σ : Type} [ExprState σ] {config : SolverConfig} {edge : ControlEdge} {state : σ}

theorem query_of_mkAnd {formula : Expr}
    (built : Expr.mkAnd [ExprState.toExpr state, ExprAction.toExpr edge] = .ok formula) :
    formula.unfold (.constant 0) = edge.query state := by
  obtain ⟨_, -, built⟩ := exists_of_bind_eq_ok built
  cases built
  rfl

/-- The question denotes the stores to which the edge leads from the state. -/
theorem Regular.denotes (regular : edge.Regular config)
    (regularState : (ExprState.toExpr state).RegularCondition config) :
    (edge.query state).Denotes config edge.next.get
      (config.Reached (ExprState.toExpr state) edge.statements) := by
  obtain ⟨spelledEdge, after⟩ := regular.toProper.spellsOut (.constant 0)
  have isConjunction : Expr.IsConjunction
      [(ExprState.toExpr state).unfold (.constant 0), edge.formula.unfold (.constant 0)]
      (edge.query state) :=
    (Expr.IsConjunction.many [ExprState.toExpr state, edge.formula]).unfold (.constant 0)
  have spelled := ((spellsOut_unfold regularState.toProperCondition (.constant 0)).append
    spelledEdge).conjunction isConjunction
  have defined : ∀ statement ∈ .assume (ExprState.toExpr state) :: edge.statements,
      statement.Defined config :=
    List.forall_mem_cons.mpr ⟨List.forall_mem_singleton.mpr regularState.defined, regular.defined⟩
  have denotes := Expr.denotes_of_spellsOut spelled defined
  have sameVersions : versionsAfter (Indexing.constant 0).get
      (.assume (ExprState.toExpr state) :: edge.statements) = edge.next.get := by
    show versionsAfter (Indexing.constant 0).get edge.statements = edge.next.get
    rw [← after]
    funext decl
    rw [Indexing.get_add, Indexing.get_constant, Nat.zero_add]
  refine ⟨denotes.plain, denotes.indexed, fun {final} => Iff.trans ?_ (sameVersions ▸ denotes.stands)⟩
  constructor
  · rintro ⟨store, holds, executes⟩
    exact ⟨store, .cons executes.inside_first (.assume holds) executes⟩
  · rintro ⟨store, executes⟩
    cases executes with
    | cons inside runs rest =>
        cases runs with
        | assume holds => exact ⟨store, holds, rest⟩

end ControlEdge

section Abstractions

variable {σ : Type} [ExprState σ]

/-- Each of the stores is contained in one of the states. -/
def Covers (stores : Store → Prop) (states : List σ) : Prop :=
  ∀ store, stores store → ∃ state ∈ states, (ExprState.toExpr state).Holds store

/-- Each of the states contains one of the stores and is listed once, and all of them are
complete. -/
structure Tight (stores : Store → Prop) (complete : σ → Prop) (states : List σ) : Prop where
  attained : ∀ state ∈ states, ∃ store, stores store ∧ (ExprState.toExpr state).Holds store
  nodup : states.Nodup
  complete : ∀ state ∈ states, complete state

/-- The states cover the stores, and they are the best abstraction of them unless a limit is
exceeded.  Their formulas are regular, so that they have successors in turn. -/
structure Abstracts (config : SolverConfig) (stores : Store → Prop) (exceeded : Prop)
    (complete : σ → Prop) (states : List σ) : Prop where
  covers : Covers stores states
  tight : ¬ exceeded → Tight stores complete states
  regular : ∀ state ∈ states, (ExprState.toExpr state).RegularCondition config

end Abstractions

end AbstractionRefinement
