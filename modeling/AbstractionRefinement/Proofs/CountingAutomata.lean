import AbstractionRefinement.Proofs.ReachedErrors

/-!
# Automata that count

The edges of a counting automaton set one integer variable, increment it, compare it with a
number, or do nothing.  Such an automaton can also be searched explicitly, number by number.
As long as the search stays in the configured interval, the verdicts safe and violated say
what the search finds.
-/

namespace AbstractionRefinement

/-- What an edge does to the number. -/
inductive CountStatement where
  | set (number : Int)
  | increment
  | requireEqual (number : Int)
  | requireBelow (number : Int)
  | skip

/-- An edge with one statement. -/
structure CountEdge where
  source : Nat
  target : Nat
  statement : CountStatement

/-- The number after the statement, if it can be executed. -/
def CountStatement.Leads : CountStatement → Int → Int → Prop
  | set number, _, next => next = number
  | increment, count, next => next = count + 1
  | requireEqual number, count, next => count = number ∧ next = count
  | requireBelow number, count, next => count < number ∧ next = count
  | skip, count, next => next = count

/-- The runs over locations and numbers that start in an interval. -/
def CountEdge.search (edges : List CountEdge) (low high : Int) :
    ConcreteSystem (Located Int) CountEdge where
  initial current := current.location = ControlFlowAutomaton.initial ∧
    low ≤ current.state ∧ current.state ≤ high
  step current edge next := edge ∈ edges ∧ edge.source = current.location ∧
    next.location = edge.target ∧ edge.statement.Leads current.state next.state

namespace CountStatement

def Fits : CountStatement → Prop
  | set number | requireEqual number | requireBelow number => FitsInt64 number
  | increment | skip => True

variable (counter : String)

def toStatement : CountStatement → Statement
  | set number => .assign ⟨counter, .int⟩ (.lit (.int number))
  | increment =>
      .assign ⟨counter, .int⟩
        (.nary .add [VarDecl.toExpr ⟨counter, .int⟩, .lit (.int 1)] .int)
  | requireEqual number =>
      .assume (.binary .eq (VarDecl.toExpr ⟨counter, .int⟩) (.lit (.int number)) .bool)
  | requireBelow number =>
      .assume (.binary .lt (VarDecl.toExpr ⟨counter, .int⟩) (.lit (.int number)) .bool)
  | skip => .assume .top

def toFormula : CountStatement → Expr
  | set number =>
      .binary .eq (Expr.primedVariable ⟨counter, .int⟩ 1) (.lit (.int number)) .bool
  | increment =>
      .binary .eq (Expr.primedVariable ⟨counter, .int⟩ 1)
        (.nary .add [VarDecl.toExpr ⟨counter, .int⟩, .lit (.int 1)] .int) .bool
  | requireEqual number =>
      .binary .eq (VarDecl.toExpr ⟨counter, .int⟩) (.lit (.int number)) .bool
  | requireBelow number =>
      .binary .lt (VarDecl.toExpr ⟨counter, .int⟩) (.lit (.int number)) .bool
  | skip => .top

variable {counter} {statement : CountStatement}

theorem encodeStatements_toStatement (statement : CountStatement) :
    ∃ next, encodeStatements (.constant 0) [statement.toStatement counter] =
      .ok ([statement.toFormula counter], next) := by
  cases statement with
  | set number | increment =>
      refine ⟨(Indexing.constant 0).increment ⟨counter, .int⟩, ?_⟩
      unfold toStatement encodeStatements
      rw [Expr.shift_constant_zero]
      dsimp only
      rw [Indexing.get_increment, Function.update_self]
      rfl
  | requireEqual number | requireBelow number | skip =>
      refine ⟨.constant 0, ?_⟩
      unfold toStatement encodeStatements
      rw [Expr.shift_constant_zero]
      rfl

theorem mem_symbols_toFormula {statement : CountStatement} {symbol : Symbol}
    (occurs : symbol ∈ ((statement.toFormula counter).unfold (.constant 0)).symbols) :
    symbol = ⟨⟨counter, .int⟩, some 0⟩ ∨ symbol = ⟨⟨counter, .int⟩, some 1⟩ := by
  cases statement <;>
    simp [toFormula, Expr.unfold, Expr.unfoldUnder, Expr.unfoldAllUnder, Expr.primedVariable,
      VarDecl.toExpr, VarDecl.atStep, Expr.top, Expr.ofBool] at occurs <;>
    tauto

theorem decl_of_mem_symbols_toFormula {statement : CountStatement} {symbol : Symbol}
    (occurs : symbol ∈ (statement.toFormula counter).symbols) :
    symbol.decl = ⟨counter, .int⟩ := by
  cases statement <;>
    simp [toFormula, Expr.primedVariable, VarDecl.toExpr, Expr.top, Expr.ofBool] at occurs <;>
    rw [occurs]

theorem proper_toStatement {statement : CountStatement} (fits : statement.Fits) :
    (statement.toStatement counter).Proper := by
  cases statement with
  | set number =>
      refine ⟨rfl, fun member => ?_⟩
      rw [List.mem_singleton.mp member]
      exact ⟨fits, rfl⟩
  | increment =>
      refine ⟨rfl, fun member => ?_⟩
      rw [List.mem_singleton.mp member]
      exact ⟨⟨⟨rfl, by simp [Expr.ty, VarDecl.toExpr, Symbol.ty, Value.ty]⟩, trivial,
        (by decide : FitsInt64 1), trivial⟩, rfl⟩
  | requireEqual number =>
      refine ⟨rfl, fun member => ?_⟩
      rw [List.mem_singleton.mp member]
      exact ⟨⟨⟨rfl, rfl⟩, trivial, fits⟩, rfl⟩
  | requireBelow number =>
      refine ⟨rfl, fun member => ?_⟩
      rw [List.mem_singleton.mp member]
      exact ⟨⟨⟨rfl, rfl, rfl⟩, trivial, fits⟩, rfl⟩
  | skip =>
      refine ⟨rfl, fun member => ?_⟩
      rw [List.mem_singleton.mp member]
      exact ⟨Value.hasType_bool true, rfl⟩

theorem defined_toStatement {config : SolverConfig}
    (bounded : (config.rangeOf counter).2 < maxInt64) (statement : CountStatement) :
    (statement.toStatement counter).Defined config := by
  have isCount {store : Store} (inside : config.InRange store) :
      ∃ count, store ⟨counter, .int⟩ = .int count ∧ minInt64 ≤ count ∧ count < maxInt64 := by
    obtain ⟨typed, inRange, -⟩ := inside ⟨counter, .int⟩
    obtain ⟨count, same, fits⟩ := typed.exists_int
    obtain ⟨-, upper⟩ := inRange count same
    exact ⟨count, same, fits.1, Int.lt_of_le_of_lt upper bounded⟩
  cases statement with
  | set number => exact List.forall_mem_singleton.mpr fun _ _ => rfl
  | increment =>
      refine List.forall_mem_singleton.mpr fun store inside => ?_
      obtain ⟨count, same, lower, upper⟩ := isCount inside
      have fits : FitsInt64 (count + 1) := by
        unfold FitsInt64 minInt64 at *
        omega
      show (NaryOperator.add.evaluate [some (store ⟨counter, .int⟩), some (.int 1)]).isSome
      rw [same]
      show ((checkedInt64 (count + 1)).map Value.int).isSome
      rw [checkedInt64_eq_some_iff.mpr ⟨fits, rfl⟩]
      rfl
  | requireEqual number => exact List.forall_mem_singleton.mpr fun _ _ => rfl
  | requireBelow number =>
      refine List.forall_mem_singleton.mpr fun store inside => ?_
      obtain ⟨count, same, -⟩ := isCount inside
      show (BinaryOperator.lt.evaluate (some (store ⟨counter, .int⟩)) (some (.int number))).isSome
      rw [same]
      rfl
  | skip => exact List.forall_mem_singleton.mpr fun _ _ => rfl

/-- A run of the statement leads from number to number. -/
theorem leads_of_runs {store next : Store} {count : Int}
    (same : store ⟨counter, .int⟩ = .int count)
    (runs : (statement.toStatement counter).Runs store next) :
    ∃ number, next ⟨counter, .int⟩ = .int number ∧ statement.Leads count number := by
  cases statement with
  | set number =>
      cases runs with
      | assign evaluates =>
          cases evaluates
          exact ⟨number, Store.write_self .., rfl⟩
  | increment =>
      cases runs with
      | assign evaluates =>
          have evaluated : NaryOperator.add.evaluate
              [some (store ⟨counter, .int⟩), some (.int 1)] = some _ := evaluates
          rw [same] at evaluated
          obtain ⟨number, checked, rfl⟩ := Option.map_eq_some_iff.mp evaluated
          exact ⟨number, Store.write_self .., (checkedInt64_eq_some_iff.mp checked).2.symm⟩
  | requireEqual number =>
      cases runs with
      | assume holds =>
          have equal : truthOf (BinaryOperator.eq.evaluate (some (store ⟨counter, .int⟩))
              (some (.int number))) = some true := holds
          rw [same, BinaryOperator.truthOf_eq, Option.some_inj, decide_eq_true_iff] at equal
          exact ⟨count, same, equal, rfl⟩
  | requireBelow number =>
      cases runs with
      | assume holds =>
          have below : truthOf (BinaryOperator.lt.evaluate (some (store ⟨counter, .int⟩))
              (some (.int number))) = some true := holds
          rw [same, BinaryOperator.truthOf_lt, Option.some_inj, decide_eq_true_iff] at below
          exact ⟨count, same, below, rfl⟩
  | skip =>
      cases runs with
      | assume holds => exact ⟨count, same, rfl⟩

end CountStatement

/-- The store in which the counter is a number and all other integers are at the lower ends
of their intervals. -/
def SolverConfig.countStore (config : SolverConfig) (counter : String) (count : Int) : Store :=
  fun decl =>
    if decl = ⟨counter, .int⟩ then .int count else decl.ty.sample (config.rangeOf decl.name).1

namespace SolverConfig

variable {config : SolverConfig} {counter : String} {count number : Int}

@[simp]
theorem countStore_self : config.countStore counter count ⟨counter, .int⟩ = .int count :=
  if_pos rfl

@[simp]
theorem write_countStore : (config.countStore counter count).write ⟨counter, .int⟩ (.int number) =
    config.countStore counter number := by
  funext decl
  by_cases isCounter : decl = ⟨counter, .int⟩
  · rw [isCounter, Store.write_self, countStore_self]
  · rw [Store.write_of_ne _ isCounter, countStore, countStore, if_neg isCounter, if_neg isCounter]

theorem inRange_countStore (lawful : config.Lawful)
    (inside : (config.rangeOf counter).1 ≤ count ∧ count ≤ (config.rangeOf counter).2) :
    config.InRange (config.countStore counter count) := by
  intro decl
  obtain ⟨fitsLow, fitsHigh, ordered⟩ := lawful decl.name
  by_cases isCounter : decl = ⟨counter, .int⟩
  · subst isCounter
    rw [countStore_self]
    exact admits_int rfl ⟨Int.le_trans fitsLow.1 inside.1, Int.le_trans inside.2 fitsHigh.2⟩
      inside.1 inside.2
  · rw [countStore, if_neg isCounter]
    refine ⟨Ty.hasType_sample fitsLow decl.ty, fun number same => ?_, fun bits width same _ => ?_⟩
    · rw [Ty.eq_of_sample same]
      exact ⟨Int.le_refl _, ordered⟩
    · rw [Ty.eq_zero_of_sample same]
      exact shiftedOne_pos width

/-- The statement runs from number to number where it leads. -/
theorem runs_countStore {statement : CountStatement} (fits : FitsInt64 number)
    (leads : statement.Leads count number) :
    (statement.toStatement counter).Runs (config.countStore counter count)
      (config.countStore counter number) := by
  cases statement with
  | set literal =>
      obtain rfl : number = literal := leads
      have runs : (Statement.assign ⟨counter, .int⟩ (.lit (.int number))).Runs
          (config.countStore counter count)
          ((config.countStore counter count).write ⟨counter, .int⟩ (.int number)) := .assign rfl
      rwa [write_countStore] at runs
  | increment =>
      obtain rfl : number = count + 1 := leads
      have evaluates : (Expr.nary .add [VarDecl.toExpr ⟨counter, .int⟩, .lit (.int 1)] .int).eval
          (config.countStore counter count).read = some (.int (count + 1)) := by
        show NaryOperator.add.evaluate
          [some (config.countStore counter count ⟨counter, .int⟩), some (.int 1)] = _
        rw [countStore_self]
        show (checkedInt64 (count + 1)).map Value.int = _
        rw [checkedInt64_eq_some_iff.mpr ⟨fits, rfl⟩]
        rfl
      have runs : (Statement.assign ⟨counter, .int⟩ _).Runs (config.countStore counter count)
          ((config.countStore counter count).write ⟨counter, .int⟩ (.int (count + 1))) :=
        .assign evaluates
      rwa [write_countStore] at runs
  | requireEqual literal =>
      obtain ⟨equal, rfl⟩ := leads
      refine .assume ?_
      show truthOf (BinaryOperator.eq.evaluate
        (some (config.countStore counter number ⟨counter, .int⟩)) (some (.int literal))) = _
      rw [countStore_self, BinaryOperator.truthOf_eq, decide_eq_true equal]
  | requireBelow literal =>
      obtain ⟨below, rfl⟩ := leads
      refine .assume ?_
      show truthOf (BinaryOperator.lt.evaluate
        (some (config.countStore counter number ⟨counter, .int⟩)) (some (.int literal))) = _
      rw [countStore_self, BinaryOperator.truthOf_lt, decide_eq_true below]
  | skip =>
      obtain rfl : number = count := leads
      exact .assume rfl

end SolverConfig

def countBetween (counter : String) (low high : Int) : Expr :=
  .nary .and
    [.binary .leq (.lit (.int low)) (VarDecl.toExpr ⟨counter, .int⟩) .bool,
      .binary .leq (VarDecl.toExpr ⟨counter, .int⟩) (.lit (.int high)) .bool] .bool

theorem countBetween_proper {counter : String} {low high : Int} (fits : FitsInt64 low)
    (fits' : FitsInt64 high) : (countBetween counter low high).ProperCondition where
  current := by
    refine ⟨rfl, ?_⟩
    rw [Expr.isIndexed, List.any_eq_false]
    intro symbol occurs
    simp [countBetween, VarDecl.toExpr] at occurs
    simp [occurs]
  encodable :=
    ⟨⟨⟨rfl, by simp [Expr.ty]⟩, ⟨⟨rfl, rfl, rfl⟩, fits, trivial⟩, ⟨⟨rfl, rfl, rfl⟩, trivial, fits'⟩,
      trivial⟩, rfl⟩
  boolean := rfl

theorem evalBool_countBetween {counter : String} {low high count : Int} {store : Store}
    (same : store ⟨counter, .int⟩ = .int count) :
    (countBetween counter low high).evalBool store.read =
      some (decide (low ≤ count) && decide (count ≤ high)) := by
  rw [countBetween, Expr.evalBool_and]
  show conjunction
    [truthOf (BinaryOperator.leq.evaluate (some (.int low)) (some (store ⟨counter, .int⟩))),
      truthOf (BinaryOperator.leq.evaluate (some (store ⟨counter, .int⟩)) (some (.int high)))] = _
  rw [same, BinaryOperator.truthOf_leq, BinaryOperator.truthOf_leq]
  cases decide (low ≤ count) <;> cases decide (count ≤ high) <;> rfl

theorem holds_countBetween {counter : String} {low high count : Int} {store : Store}
    (same : store ⟨counter, .int⟩ = .int count) :
    (countBetween counter low high).Holds store ↔ low ≤ count ∧ count ≤ high := by
  rw [Expr.Holds, evalBool_countBetween same, Option.some_inj, Bool.and_eq_true,
    decide_eq_true_iff, decide_eq_true_iff]

def CountEdge.automaton (counter : String) (locations : List Location) (edges : List CountEdge)
    (error : Option Nat) : Except FormulaError ControlFlowAutomaton :=
  ControlFlowAutomaton.build locations
    (edges.map fun edge => (edge.source, edge.target, [edge.statement.toStatement counter])) error

namespace CountEdge

variable {counter : String} {locations : List Location} {edges : List CountEdge}
  {error : Option Nat} {automaton : ControlFlowAutomaton}

/-- The edge of an automaton that an edge describes. -/
structure Describes (counter : String) (locations : List Location) (edge : CountEdge)
    (control : ControlEdge) : Prop where
  made : ControlEdge.ofStatements locations edge.source edge.target
    [edge.statement.toStatement counter] = .ok control
  source : control.source = edge.source
  target : control.target = edge.target
  statements : control.statements = [edge.statement.toStatement counter]
  formula : control.formula = edge.statement.toFormula counter

theorem describes_of_made {edge : CountEdge} {control : ControlEdge}
    (made : ControlEdge.ofStatements locations edge.source edge.target
      [edge.statement.toStatement counter] = .ok control) :
    edge.Describes counter locations control := by
  obtain ⟨⟨conjuncts, next⟩, encoded, composed⟩ := exists_of_bind_eq_ok made
  obtain ⟨formula, joined, composed⟩ := exists_of_bind_eq_ok composed
  obtain ⟨next', encoded'⟩ := @CountStatement.encodeStatements_toStatement counter edge.statement
  cases encoded.symm.trans encoded'
  have isFormula : Expr.mkAnd [edge.statement.toFormula counter] =
      .ok (edge.statement.toFormula counter) := by
    cases edge.statement <;> rfl
  cases joined.symm.trans isFormula
  cases composed
  exact ⟨made, rfl, rfl, rfl, rfl⟩

theorem forall₂_describes
    (built : CountEdge.automaton counter locations edges error = .ok automaton) :
    automaton.error = error ∧
      List.Forall₂ (Describes counter locations) edges automaton.edges := by
  obtain ⟨controls, made, composed⟩ := exists_of_bind_eq_ok built
  cases composed
  refine ⟨rfl, (List.forall₂_map_left_iff.mp (forall₂_of_mapM_eq_ok made)).imp ?_⟩
  exact fun edge control => describes_of_made

end CountEdge

theorem levelCount_int_le (config : SolverConfig) (counter : String) (index : Option Nat) :
    Encoder.levelCount config ⟨⟨counter, .int⟩, index⟩ ≤ 63 := by
  show binaryLength ((max (saturateInt64 (saturateInt64
    ((config.rangeOf counter).2 - (config.rangeOf counter).1) + 1)) 1).toNat - 1) ≤ 63
  apply binaryLength_le
  simp only [saturateInt64, minInt64, maxInt64]
  omega

/-- The outcome of the explicit analysis without a limit on enumerated states. -/
def VerificationSettings.explicitOutcome (settings : VerificationSettings) (config : SolverConfig)
    (initial : Expr) (refine : PrecisionRefiner ExplicitPrecision)
    (automaton : ControlFlowAutomaton) (limits : ResourceLimits) (checks : SolverStatistics → Nat)
    (fuel : Nat) (precision : ExplicitPrecision) (start : SolverStatistics × ExplorationStatus) :
    SafetyOutcome (Located ExplicitState) ControlEdge ExplicitPrecision :=
  ((settings.automatonVerifier Abstraction.explicitValues config initial none refine
    automaton).verify limits checks fuel precision start).1.outcome

section Verdicts

variable {config : SolverConfig} {counter : String} {locations : List Location}
  {edges : List CountEdge} {error : Option Nat} {automaton : ControlFlowAutomaton}
  {low high : Int}

theorem mem_symbols_countBetween {symbol : Symbol}
    (occurs : symbol ∈ (countBetween counter low high).symbols) :
    symbol = ⟨⟨counter, .int⟩, none⟩ := by
  simpa [countBetween, VarDecl.toExpr] using occurs

theorem mem_symbols_unfold_countBetween {symbol : Symbol}
    (occurs : symbol ∈ ((countBetween counter low high).unfold (.constant 0)).symbols) :
    symbol = ⟨⟨counter, .int⟩, some 0⟩ := by
  simpa [countBetween, VarDecl.toExpr, Expr.unfold, Expr.unfoldUnder, Expr.unfoldAllUnder,
    VarDecl.atStep] using occurs

/-- All queries about a counting automaton are over the counter before and after an edge. -/
theorem alphabet_subset_counter
    (described : List.Forall₂ (CountEdge.Describes counter locations) edges automaton.edges)
    {formula : Expr} (member : formula ∈ automaton.queries (countBetween counter low high)) :
    automaton.alphabet (countBetween counter low high) formula ⊆
      [⟨⟨counter, .int⟩, some 0⟩, ⟨⟨counter, .int⟩, some 1⟩] := by
  have isQuery {query : Expr}
      (member : query ∈ automaton.queries (countBetween counter low high)) {symbol : Symbol}
      (occurs : symbol ∈ (query.unfold (.constant 0)).symbols) :
      symbol = ⟨⟨counter, .int⟩, some 0⟩ ∨ symbol = ⟨⟨counter, .int⟩, some 1⟩ := by
    rcases List.mem_cons.mp member with rfl | isEdge
    · exact .inl (mem_symbols_unfold_countBetween occurs)
    · obtain ⟨control, isControl, rfl⟩ := List.mem_map.mp isEdge
      obtain ⟨edge, -, describes⟩ := exists_of_forall₂ described isControl
      rw [describes.formula] at occurs
      exact CountStatement.mem_symbols_toFormula occurs
  have isCounter {query : Expr}
      (member : query ∈ automaton.queries (countBetween counter low high)) {symbol : Symbol}
      (occurs : symbol ∈ query.symbols) : symbol.decl = ⟨counter, .int⟩ := by
    rcases List.mem_cons.mp member with rfl | isEdge
    · rw [mem_symbols_countBetween occurs]
    · obtain ⟨control, isControl, rfl⟩ := List.mem_map.mp isEdge
      obtain ⟨edge, -, describes⟩ := exists_of_forall₂ described isControl
      rw [describes.formula] at occurs
      exact CountStatement.decl_of_mem_symbols_toFormula occurs
  intro symbol occurs
  rcases List.mem_append.mp occurs with isStart | isUnfolded
  · obtain ⟨decl, listed, rfl⟩ := List.mem_map.mp isStart
    obtain ⟨query, isQuery', declared⟩ := List.mem_flatMap.mp listed
    obtain ⟨other, isOther, rfl⟩ := List.mem_map.mp declared
    rw [isCounter isQuery' isOther]
    exact List.mem_cons_self
  · rcases isQuery member isUnfolded with rfl | rfl <;> simp

theorem regular_of_describes
    (described : List.Forall₂ (CountEdge.Describes counter locations) edges automaton.edges)
    (fits : ∀ edge ∈ edges, edge.statement.Fits) (fitsLow : FitsInt64 low)
    (fitsHigh : FitsInt64 high) (bounded : (config.rangeOf counter).2 < maxInt64) :
    automaton.Regular config (countBetween counter low high) where
  properInitial := countBetween_proper fitsLow fitsHigh
  properEdge member := by
    obtain ⟨edge, isEdge, describes⟩ := exists_of_forall₂ described member
    refine ⟨⟨locations, ?_⟩, ?_⟩
    · rw [describes.source, describes.target, describes.statements]
      exact describes.made
    · rw [describes.statements]
      rintro statement ⟨⟩
      · exact CountStatement.proper_toStatement (fits edge isEdge)
      · contradiction
  fewLevels member := by
    refine ⟨_, alphabet_subset_counter described member, ?_⟩
    have first := levelCount_int_le config counter (some 0)
    have second := levelCount_int_le config counter (some 1)
    show Encoder.levelCount config _ + (Encoder.levelCount config _ + 0) < 2147483648
    omega
  definedInitial := by
    intro store inside
    obtain ⟨count, same, -⟩ := (inside ⟨counter, .int⟩).1.exists_int
    apply Expr.isSome_eval_of_evalBool
    rw [evalBool_countBetween same]
    rfl
  definedEdge member := by
    obtain ⟨edge, -, describes⟩ := exists_of_forall₂ described member
    rw [describes.statements, List.forall_mem_singleton]
    exact CountStatement.defined_toStatement bounded edge.statement

/-- Numbers that the search reaches are reached by executions within the intervals. -/
theorem reachable_of_search (lawful : config.Lawful) {region : Expr → Store → Prop}
    (within : ∀ formula store, config.InRange store → region formula store)
    (described : List.Forall₂ (CountEdge.Describes counter locations) edges automaton.edges)
    (stays : ∀ current, (CountEdge.search edges low high).Reachable current →
      (config.rangeOf counter).1 ≤ current.state ∧ current.state ≤ (config.rangeOf counter).2)
    {current : Located Int} (reached : (CountEdge.search edges low high).Reachable current) :
    (automaton.executions (countBetween counter low high) region).Reachable
      ⟨current.location, config.countStore counter current.state⟩ := by
  have inside {current : Located Int}
      (reached : (CountEdge.search edges low high).Reachable current) :
      config.InRange (config.countStore counter current.state) :=
    SolverConfig.inRange_countStore lawful (stays current reached)
  induction reached with
  | initial starts =>
      obtain ⟨location, between⟩ := starts
      refine .initial ⟨location, ?_, within _ _ (inside (.initial ⟨location, between⟩))⟩
      exact (holds_countBetween SolverConfig.countStore_self).mpr between
  | @step current next edge reached steps ih =>
      have reached' := ConcreteSystem.Reachable.step reached steps
      obtain ⟨isEdge, source, target, leads⟩ := steps
      obtain ⟨control, isControl, describes⟩ := exists_of_forall₂ described.flip isEdge
      have fits : FitsInt64 next.state := by
        have typed := (inside reached' ⟨counter, .int⟩).1
        rwa [SolverConfig.countStore_self] at typed
      refine @ConcreteSystem.Reachable.step _ _ _ _ _ control ih
        ⟨?_, target.trans describes.target.symm, ?_⟩
      · refine List.mem_filter.mpr ⟨isControl, decide_eq_true ?_⟩
        exact describes.source.trans source
      · rw [describes.statements]
        exact .cons (within _ _ (inside reached)) (SolverConfig.runs_countStore fits leads)
          (.nil (within _ _ (inside reached')))

/-- Executions only take the counter to numbers that the search reaches. -/
theorem search_of_reachable {region : Expr → Store → Prop}
    (typed : ∀ formula store, region formula store → ∀ decl, (store decl).HasType decl.ty)
    (described : List.Forall₂ (CountEdge.Describes counter locations) edges automaton.edges)
    {current : Located Store}
    (reached : (automaton.executions (countBetween counter low high) region).Reachable current) :
    ∃ count, current.state ⟨counter, .int⟩ = .int count ∧
      (CountEdge.search edges low high).Reachable ⟨current.location, count⟩ := by
  induction reached with
  | initial starts =>
      obtain ⟨location, holds, inside⟩ := starts
      obtain ⟨count, same, -⟩ := (typed _ _ inside ⟨counter, .int⟩).exists_int
      exact ⟨count, same, .initial ⟨location, (holds_countBetween same).mp holds⟩⟩
  | @step current next control _ steps ih =>
      obtain ⟨count, same, reached⟩ := ih
      obtain ⟨outgoing, target, executes⟩ := steps
      obtain ⟨isControl, source⟩ := List.mem_filter.mp outgoing
      obtain ⟨edge, isEdge, describes⟩ := exists_of_forall₂ described isControl
      rw [describes.statements] at executes
      cases executes with
      | cons _ runs rest =>
          cases rest
          obtain ⟨number, same', leads⟩ := CountStatement.leads_of_runs same runs
          refine ⟨number, same', @ConcreteSystem.Reachable.step _ _ _ _ _ edge reached
            ⟨isEdge, ?_, ?_, leads⟩⟩
          · exact describes.source.symm.trans (of_decide_eq_true source)
          · exact target.trans describes.target

/-- As long as the search stays in the configured interval and every session allocates at most
`32767` nodes, a safe verdict excludes that the search reaches the error location, and a
violated one means that it does.  A run may have no verdict even then, see `distant_unknown`. -/
theorem VerificationSettings.counting_verdicts_correct (workable : config.Workable)
    (positive : 0 < config.margin) (bounded : (config.rangeOf counter).2 < maxInt64)
    (fits : ∀ edge ∈ edges, edge.statement.Fits) (fitsLow : FitsInt64 low)
    (fitsHigh : FitsInt64 high)
    (built : CountEdge.automaton counter locations edges error = .ok automaton)
    (stays : ∀ current, (CountEdge.search edges low high).Reachable current →
      (config.rangeOf counter).1 ≤ current.state ∧ current.state ≤ (config.rangeOf counter).2)
    (settings : VerificationSettings) (refine : PrecisionRefiner ExplicitPrecision)
    (limits : ResourceLimits) (checks : SolverStatistics → Nat) (fuel : Nat)
    (precision : ExplicitPrecision) (start : SolverStatistics × ExplorationStatus)
    (small : ∀ call ∈ (settings.automatonVerifier Abstraction.explicitValues config
      (countBetween counter low high) none refine automaton).calls limits checks fuel precision
        start, Located.SmallTransfer config (countBetween counter low high) call ∧
          Located.SmallRefinement settings.checker config (countBetween counter low high) call)
    {outcome : SafetyOutcome (Located ExplicitState) ControlEdge ExplicitPrecision}
    (ended : settings.explicitOutcome config (countBetween counter low high) refine automaton limits
      checks fuel precision start = outcome) :
    (outcome.verdict = .safe → ∀ current, (CountEdge.search edges low high).Reachable current →
      some current.location ≠ error) ∧
    ∀ trace concrete graph last, outcome = .violated trace concrete graph last →
      (∀ path, PathFormula.ofTrace (countBetween counter low high) .top trace = .ok path →
        Encoding.levelTotal config path.symbols < 2147483648) →
      ∃ current, (CountEdge.search edges low high).Reachable current ∧
        some current.location = error := by
  obtain ⟨rfl, described⟩ := CountEdge.forall₂_describes built
  have regular : automaton.Regular config (countBetween counter low high) :=
    regular_of_describes described fits fitsLow fitsHigh bounded
  subst ended
  refine ⟨fun safe current reached => ?_, fun trace concrete graph last violated few => ?_⟩
  · have trusted (formula : Expr) (store : Store) (inside : config.InRange store) :
        config.Trusts formula store :=
      fun decl => (inside decl).widened workable.lawful (Int.le_of_lt positive) _
    have reached' := reachable_of_search workable.lawful trusted described stays reached
    have soundFor := Located.soundFor_explicit workable positive regular.toSupported
      (fun _ => id) settings.search settings.stop settings.coverage
    have never := Verifier.not_bad_of_admitted soundFor
      (fun call member => (small call member).1) safe reached'
    exact never
  · obtain ⟨current, reached, atError⟩ := settings.error_reached_of_violated workable positive
      regular refine limits checks fuel precision start small violated few
    obtain ⟨count, -, reached'⟩ :=
      search_of_reachable (fun _ _ inside decl => (inside decl).1) described reached
    exact ⟨_, reached', atError⟩

end Verdicts

section Detour

/-- The verdict on a counting automaton that starts from one. -/
def countVerdict (prune : PruneStrategy) (names : List String) (edges : List CountEdge)
    (error : Nat) : Option Verdict :=
  (CountEdge.automaton "x" (names.map fun name => ⟨name, [], false⟩) edges (some error)).toOption.map
    fun automaton => (VerificationSettings.explicitOutcome { usualSettings with prune } narrowConfig
      (countBetween "x" 1 1) ExplicitPrecision.refine automaton {} SolverStatistics.checks 9 ⟨[]⟩
      ({}, .idle)).verdict

/-- The counter is set to one before the error location would need it to be two; on a way
beside, it is incremented. -/
def detour : List CountEdge :=
  [⟨0, 1, .skip⟩, ⟨1, 2, .set 1⟩, ⟨2, 3, .requireEqual 2⟩, ⟨1, 4, .increment⟩]

def detourVerdict (prune : PruneStrategy) : Option Verdict :=
  countVerdict prune ["start", "fork", "set", "error", "beside"] detour 3

theorem detour_reachable {current : Located Int}
    (reached : (CountEdge.search detour 1 1).Reachable current) :
    (current.location < 3 ∧ current.state = 1) ∨ (current.location = 4 ∧ current.state = 2) := by
  induction reached with
  | initial starts =>
      obtain ⟨location, lower, upper⟩ := starts
      exact .inl ⟨by rw [location]; decide, Int.le_antisymm upper lower⟩
  | step _ steps ih =>
      obtain ⟨isEdge, source, target, leads⟩ := steps
      simp only [detour, List.mem_cons, List.not_mem_nil, or_false] at isEdge
      rcases isEdge with rfl | rfl | rfl | rfl <;>
        simp only [CountStatement.Leads] at source target leads <;> omega

/-- The search stays in the interval and does not find the error location, but with lazy
pruning there is no verdict: a node built without the counter is kept, and from any number
the increment leaves the interval. -/
theorem detour_unknown : detourVerdict .lazy = some .unknown ∧
    ∀ current, (CountEdge.search detour 1 1).Reachable current →
      ((narrowConfig.rangeOf "x").1 ≤ current.state ∧
        current.state ≤ (narrowConfig.rangeOf "x").2) ∧ some current.location ≠ some 3 := by
  refine ⟨by decide +kernel, fun current reached => ?_⟩
  have known := detour_reachable reached
  have range : narrowConfig.rangeOf "x" = (1, 2) := by decide
  rw [range, Ne, Option.some_inj]
  dsimp only
  omega

example : detourVerdict .full = some .safe := by decide +kernel

theorem distant_unknown (prune : PruneStrategy) :
    countVerdict prune ["start", "error"] [⟨0, 1, .requireEqual 5⟩] 1 = some .unknown := by
  cases prune <;> decide +kernel

end Detour

end AbstractionRefinement
