import AbstractionRefinement.Proofs.QueryRuns
import AbstractionRefinement.Proofs.TraceInterpolation

/-!
# Projections of models under a limit

In a run that meets no resource limit, the projections of the models onto some symbols are
enumerated completely, unless there are more than the limit.  The values that are then
forced are exactly those that a symbol has in all solutions.
-/

namespace AbstractionRefinement

open AbstractionRefinement.Computation

/-- The values lie in the configured intervals and make the formulas true. -/
structure SolverConfig.Solution (config : SolverConfig) (formulas : List Expr)
    (values : Symbol → Value) : Prop where
  admits (symbol : Symbol) : config.Admits symbol.decl (values symbol)
  fulfills : Fulfills values formulas

namespace SolverConfig

variable {config : SolverConfig} {formulas : List Expr}

theorem Solution.admitsAll {values : Symbol → Value} (solution : config.Solution formulas values) :
    config.AdmitsAll values formulas :=
  fun _ _ symbol _ => solution.admits symbol

/-- Values of the symbols that occur can be completed to admitted values of all symbols. -/
theorem Lawful.exists_completion (lawful : config.Lawful) {values : Symbol → Value}
    (admits : config.AdmitsAll values formulas) : ∃ completed : Symbol → Value,
      (∀ symbol, config.Admits symbol.decl (completed symbol)) ∧
        ∀ symbol, Occurs symbol formulas → completed symbol = values symbol := by
  classical
  choose other admitted using fun symbol : Symbol => lawful.exists_admits symbol.decl
  refine ⟨fun symbol => if Occurs symbol formulas then values symbol else other symbol,
    fun symbol => ?_, fun symbol occurs => if_pos occurs⟩
  dsimp only
  split
  case isTrue occurs =>
    obtain ⟨formula, member, occurs⟩ := occurs
    exact admits formula member symbol occurs
  case isFalse => exact admitted symbol

theorem Lawful.exists_solution (lawful : config.Lawful) {values : Symbol → Value}
    (admits : config.AdmitsAll values formulas) (fulfills : Fulfills values formulas) :
    ∃ completed, config.Solution formulas completed ∧
      ∀ symbol, Occurs symbol formulas → completed symbol = values symbol := by
  obtain ⟨completed, admitted, same⟩ := lawful.exists_completion admits
  exact ⟨completed, ⟨admitted, fulfills.congr fun symbol occurs => (same symbol occurs).symm⟩, same⟩

theorem Excludes.not_solution (excludes : config.Excludes formulas) (values : Symbol → Value) :
    ¬ config.Solution formulas values :=
  fun solution => excludes values solution.admitsAll solution.fulfills

theorem Solves.exists_solution {model : Valuation} (solves : config.Solves formulas model)
    (lawful : config.Lawful) : ∃ values, config.Solution formulas values ∧
      ∀ symbol value, model.get? symbol = some value ↔
        Occurs symbol formulas ∧ values symbol = value := by
  obtain ⟨values, admits, fulfills, given⟩ := solves
  obtain ⟨completed, solution, same⟩ := lawful.exists_solution admits fulfills
  refine ⟨completed, solution, fun symbol value => (given symbol value).trans ?_⟩
  exact and_congr_right fun occurs => by rw [same symbol occurs]

end SolverConfig

/-- The equation of a symbol and a value is true where the symbol has the value. -/
theorem Symbol.truth_hasValue {symbol : Symbol} {value : Value}
    (typed : value.HasType symbol.ty) {values : Symbol → Value}
    (typedAll : ∀ symbol, (values symbol).HasType symbol.ty) :
    (symbol.hasValue value).truth (total values) = true ↔ values symbol = value := by
  have evaluates := evalBool_hasValue symbol typed
    (show total values symbol = some (values symbol) from rfl) (typedAll symbol)
  have typed' : ∀ other ∈ (symbol.hasValue value).symbols,
      OptionHasType (total values other) other.ty := by
    rintro other - _ ⟨⟩
    exact typedAll other
  rw [(encodable_hasValue symbol typed).1.wellTyped.refines_truth typed' _ evaluates,
    decide_eq_true_iff]

namespace Valuation

variable {projection other : Valuation} {config : SolverConfig} {symbols : List Symbol}
  {formulas : List Expr}

theorem Projects.exists_solution (projects : projection.Projects config symbols formulas)
    (lawful : config.Lawful) :
    ∃ values, config.Solution formulas values ∧ projection.Matches values := by
  obtain ⟨values, admits, fulfills, isMatch⟩ := projects.solved
  obtain ⟨completed, solution, same⟩ := lawful.exists_solution admits fulfills
  refine ⟨completed, solution, fun entry member => ?_⟩
  rw [same _ (projects.mem_symbols.mp (List.mem_map_of_mem member)).2]
  exact isMatch entry member

theorem Projects.mem_entries (projects : projection.Projects config symbols formulas)
    {values : Symbol → Value} (isMatch : projection.Matches values) {entry : Symbol × Value} :
    entry ∈ projection.entries ↔
      (entry.1 ∈ symbols ∧ Occurs entry.1 formulas) ∧ values entry.1 = entry.2 := by
  constructor
  · exact fun member => ⟨projects.mem_symbols.mp (List.mem_map_of_mem member),
      isMatch entry member⟩
  · rintro ⟨occurs, same⟩
    obtain ⟨⟨symbol, value⟩, member, rfl⟩ := List.mem_map.mp (projects.mem_symbols.mpr occurs)
    rw [← Prod.eta entry, ← same, isMatch _ member]
    exact member

theorem ext_of_sorted (sorted : OrderedMap.Sorted projection.entries)
    (sorted' : OrderedMap.Sorted other.entries)
    (same : ∀ entry, entry ∈ projection.entries ↔ entry ∈ other.entries) :
    projection = other := by
  have entries_eq := sorted.eq_of_mem_iff sorted' same
  cases projection
  cases other
  exact congrArg Valuation.mk entries_eq

/-- The formula that excludes a projection. -/
def exclusion (projection : Valuation) : Expr :=
  .unary .not projection.toExpr .bool

theorem Projects.exclusion_plain (projects : projection.Projects config symbols formulas) :
    projection.exclusion.choosesTruth = false :=
  (projects.wellTyped.encodable.1.not projects.wellTyped.encodable.2).plain

theorem Projects.truth_exclusion (projects : projection.Projects config symbols formulas)
    {values : Symbol → Value} (typed : ∀ symbol, (values symbol).HasType symbol.ty) :
    projection.exclusion.truth (total values) = true ↔ ¬ projection.Matches values := by
  rw [exclusion, Expr.truth_not, Bool.not_eq_true', ← Bool.not_eq_true,
    projects.wellTyped.truth_toExpr typed]

end Valuation

namespace Query

open OpenSession

variable {config : SolverConfig} {alphabet symbols : List Symbol}
  {base : List Expr} {state : OpenSession}

/-- The projections are different ones of solutions, and every solution agrees with one of
them. -/
structure Lists (config : SolverConfig) (symbols : List Symbol) (base : List Expr)
    (projections : List Valuation) : Prop where
  projects : ∀ projection ∈ projections, projection.Projects config symbols base
  nodup : projections.Nodup
  complete {values : Symbol → Value} : config.Solution base values →
    ∃ projection ∈ projections, projection.Matches values

/-- Different projections of solutions, not just an empty one, which are more than the limit. -/
structure Exceeds (config : SolverConfig) (symbols : List Symbol) (limit : Option Nat)
    (base : List Expr) (projections : List Valuation) : Prop where
  projects : ∀ projection ∈ projections, projection.Projects config symbols base
  nodup : projections.Nodup
  occupied : ∃ projection ∈ projections, projection.entries ≠ []
  exceeds : ∃ bound, limit = some bound ∧ bound < projections.length

/-- All projections are enumerated, at most the limit or an empty one, or there are
more. -/
def Enumerated (config : SolverConfig) (symbols : List Symbol) (limit : Option Nat)
    (base : List Expr) : Option (List Valuation) → Prop
  | some projections => Lists config symbols base projections ∧
      ((∀ bound, limit = some bound → projections.length ≤ bound) ∨
        ∃ projection ∈ projections, projection.entries = [])
  | none => ∃ projections, Exceeds config symbols limit base projections

/-- The base and the exclusions of what was found. -/
def excluding (base : List Expr) (found : List Valuation) : List Expr :=
  base ++ found.map Valuation.exclusion

/-- Unless one of them is empty, the projections leave nothing: the base and their exclusions
have no solution among the values that are considered, if the confirmation of this has few
nodes. -/
def LeavesNothing (config : SolverConfig) (base : List Expr) :
    Option (List Valuation) → Prop
  | some projections =>
      (∃ projection ∈ projections, projection.entries = []) ∨
        (Session.confirmationSize config (excluding base projections) ≤ 32767 →
          ∀ values, config.Considers (excluding base projections) values →
            ¬ Fulfills values (excluding base projections))
  | none => True

/-- What has been found while models are enumerated. -/
structure Finding (config : SolverConfig) (symbols : List Symbol) (limit : Option Nat)
    (base : List Expr) (found : List Valuation) : Prop where
  projects : ∀ projection ∈ found, projection.Projects config symbols base
  nodup : found.Nodup
  within : ∀ bound, limit = some bound → found.length ≤ bound

namespace Finding

variable {limit : Option Nat} {found : List Valuation}
  (finding : Finding config symbols limit base found)
include finding

theorem plain (plain : ∀ formula ∈ base, formula.choosesTruth = false) :
    ∀ formula ∈ excluding base found, formula.choosesTruth = false :=
  List.forall_mem_append.mpr ⟨plain, List.forall_mem_map.mpr fun projection member =>
    (finding.projects projection member).exclusion_plain⟩

/-- A solution that differs from what was found solves the exclusions, too. -/
theorem solution_excluding {values : Symbol → Value} :
    config.Solution (excluding base found) values ↔ config.Solution base values ∧
      ∀ projection ∈ found, ¬ projection.Matches values := by
  have excluded (admits : ∀ symbol, config.Admits symbol.decl (values symbol)) :
      Fulfills values (found.map Valuation.exclusion) ↔
        ∀ projection ∈ found, ¬ projection.Matches values := by
    unfold Fulfills
    rw [List.forall_mem_map]
    exact forall₂_congr fun projection member =>
      (finding.projects projection member).truth_exclusion fun symbol => (admits symbol).1
  constructor
  · rintro ⟨admits, fulfills⟩
    obtain ⟨fulfills, others⟩ := List.forall_mem_append.mp fulfills
    exact ⟨⟨admits, fulfills⟩, (excluded admits).mp others⟩
  · rintro ⟨⟨admits, fulfills⟩, differ⟩
    exact ⟨admits, List.forall_mem_append.mpr ⟨fulfills, (excluded admits).mpr differ⟩⟩

theorem occurs_excluding {symbol : Symbol} :
    Occurs symbol (excluding base found) ↔ Occurs symbol base := by
  constructor
  · rintro ⟨formula, member, occurs⟩
    rcases List.mem_append.mp member with inBase | isExclusion
    · exact ⟨formula, inBase, occurs⟩
    · obtain ⟨projection, isFound, rfl⟩ := List.mem_map.mp isExclusion
      rw [Valuation.exclusion, Expr.mem_symbols_unary] at occurs
      exact (finding.projects projection isFound).mem_symbols_toExpr occurs
  · rintro ⟨formula, member, occurs⟩
    exact ⟨formula, List.mem_append_left _ member, occurs⟩

theorem lists (excludes : config.Excludes (excluding base found)) :
    Lists config symbols base found where
  projects := finding.projects
  nodup := finding.nodup
  complete {values} solution := by
    by_contra differ
    refine excludes.not_solution values (finding.solution_excluding.mpr ⟨solution, ?_⟩)
    exact fun projection member isMatch => differ ⟨projection, member, isMatch⟩

theorem next {model : Valuation} (lawful : config.Lawful)
    (solves : config.Solves (excluding base found) model) :
    (restrictModel model symbols).Projects config symbols base ∧
      restrictModel model symbols ∉ found := by
  refine ⟨projects_restrictModel solves (fun formula member => List.mem_append_left _ member)
    (fun formula member symbol occurs => finding.occurs_excluding.mp ⟨formula, member, occurs⟩)
    symbols, fun isFound => ?_⟩
  obtain ⟨values, solution, given⟩ := solves.exists_solution lawful
  refine (finding.solution_excluding.mp solution).2 _ isFound fun entry member => ?_
  exact ((given entry.1 entry.2).mp (mem_restrictModel.mp member).2).2

end Finding

variable (workable : config.Workable)
  (fewLevels : Encoding.levelTotal config alphabet < 2147483648)
  (plain : ∀ formula ∈ base, formula.choosesTruth = false)
  (listed : ∀ formula ∈ base, ∀ symbol ∈ formula.symbols, symbol ∈ alphabet)
include workable fewLevels plain listed

/-- Enumerating projections after those found so far. -/
theorem keeps_enumerateModels {limit : Option Nat} (fuel : Nat) {found : List Valuation}
    (serves : state.Few →
      state.Serves config alphabet (excluding base found) ∧
        Finding config symbols limit base found) :
    (enumerateModels symbols limit fuel found).Keeps state fun models after =>
      (Enumerated config symbols limit base models ∧ LeavesNothing config base models) ∧
        ∃ others, after.Serves config alphabet others := by
  induction fuel generalizing state found with
  | zero => exact keeps_throw _
  | succ fuel ih =>
      unfold enumerateModels
      apply keeps_bind (keeps_isSatisfiable fun few => (serves few).1)
      intro answer answered evolves given
      have finding (few : answered.Few) := (serves (few.of_evolves evolves)).2
      split
      case isFalse unsat =>
        apply keeps_pure
        intro few
        obtain ⟨serves', status⟩ := given few
        rw [if_neg unsat] at status
        have plain' := (finding few).plain plain
        refine ⟨⟨⟨(finding few).lists (serves'.excludes few workable status plain'),
          .inl (finding few).within⟩, .inr fun confirmed values => ?_⟩, _, serves'⟩
        exact serves'.refutes few workable status plain' confirmed
      case isTrue sat =>
        have continues (few : answered.Few) :
            answered.Serves config alphabet (excluding base found) ∧
              answered.session.status = some .sat ∧
                ∀ formula ∈ excluding base found, formula.choosesTruth = false := by
          obtain ⟨serves', status⟩ := given few
          rw [if_pos sat] at status
          exact ⟨serves', status, (finding few).plain plain⟩
        apply keeps_bind (keeps_model fewLevels continues)
        intro model modelled evolves' solved
        have next (few : modelled.Few) :=
          (finding (few.of_evolves evolves')).next workable.lawful (solved few).2
        have projects (few : modelled.Few) :
            ∀ known ∈ found ++ [restrictModel model symbols],
              known.Projects config symbols base :=
          List.forall_mem_append.mpr ⟨(finding (few.of_evolves evolves')).projects,
            List.forall_mem_singleton.mpr (next few).1⟩
        have nodup (few : modelled.Few) : (found ++ [restrictModel model symbols]).Nodup := by
          rw [List.nodup_append_comm, List.singleton_append, List.nodup_cons]
          exact ⟨(next few).2, (finding (few.of_evolves evolves')).nodup⟩
        have last : restrictModel model symbols ∈ found ++ [restrictModel model symbols] :=
          List.mem_append_right _ (List.mem_singleton_self _)
        dsimp only
        split
        case isTrue isEmpty =>
          -- The empty projection agrees with all values.
          apply keeps_pure
          intro few
          rw [Valuation.isEmpty, List.isEmpty_iff] at isEmpty
          refine ⟨⟨⟨⟨projects few, nodup few, fun _ => ⟨_, last, ?_⟩⟩, .inr ⟨_, last, isEmpty⟩⟩,
            .inl ⟨_, last, isEmpty⟩⟩, _, (solved few).1⟩
          simp [Valuation.Matches, isEmpty]
        case isFalse occupied =>
          rw [Valuation.isEmpty, List.isEmpty_iff] at occupied
          refine keeps_bind_ofFormula fun formula built => ?_
          obtain rfl : formula = (restrictModel model symbols).exclusion := by
            obtain ⟨_, -, built⟩ := exists_of_bind_eq_ok built
            cases built
            rfl
          have occurs (few : modelled.Few) :
              ∀ symbol ∈ (restrictModel model symbols).exclusion.symbols, symbol ∈ alphabet := by
            intro symbol occurs
            rw [Valuation.exclusion, Expr.mem_symbols_unary] at occurs
            obtain ⟨other, isOther, occurs⟩ := (next few).1.mem_symbols_toExpr occurs
            exact listed other isOther symbol occurs
          apply keeps_bind (keeps_add (fun few => (solved few).1) occurs)
          intro _ extended evolves'' served
          split
          case isTrue exceeds =>
            apply keeps_pure
            intro few
            cases limit with
            | none => cases exceeds
            | some bound =>
                have earlier := few.of_evolves evolves''
                exact ⟨⟨⟨_, projects earlier, nodup earlier, ⟨_, last, occupied⟩, bound, rfl,
                  of_decide_eq_true exceeds⟩, trivial⟩, _, (served few).1⟩
          case isFalse inside =>
            apply ih
            intro few
            have earlier := few.of_evolves evolves''
            have served := (served few).1
            rw [excluding, List.append_assoc] at served
            refine ⟨?_, projects earlier, nodup earlier, ?_⟩
            · rw [excluding, List.map_append]
              exact served
            · rintro bound rfl
              exact Nat.not_lt.mp (mt decide_eq_true inside)

/-- The projections of all models, or more than the limit. -/
theorem keeps_allModels {limit : Option Nat}
    (serves : state.Few → state.Serves config alphabet base) :
    (allModels symbols limit).Keeps state fun models after =>
      (Enumerated config symbols limit base models ∧ LeavesNothing config base models) ∧
        after.Serves config alphabet base := by
  unfold allModels
  apply keeps_bind_get
  apply keeps_inFrame (fun models _ => Enumerated config symbols limit base models ∧
    LeavesNothing config base models) serves
  intro framed _ serves'
  apply keeps_enumerateModels workable fewLevels plain listed
  intro few
  rw [excluding, List.map_nil, List.append_nil]
  exact ⟨(serves' few).2, ⟨List.forall_mem_nil _, List.nodup_nil, fun _ _ => Nat.zero_le _⟩⟩

omit workable fewLevels plain listed in
theorem ensures_allModels_of_undecided {limit : Option Nat}
    (undecided : state.session.Undecided config) :
    (allModels symbols limit).Ensures state fun _ _ => False := by
  unfold allModels
  rw [ensures_bind, ensures_get]
  apply ensures_inFrame_of_undecided undecided
  intro framed undecided'
  unfold enumerateModels
  rw [ensures_bind]
  exact (ensures_isSatisfiable_of_undecided undecided').mono fun _ _ never => never.elim

/-- The symbol has the value in all solutions. -/
def Forces (config : SolverConfig)
    (base : List Expr) (symbol : Symbol) (value : Value) : Prop :=
  ∀ values, config.Solution base values → values symbol = value

/-- A symbol that is found to be forced has the value in all solutions, and the converse holds
unless the answer is inconclusive. -/
theorem keeps_isForced {symbol : Symbol} {value : Value}
    (serves : state.Few → state.Serves config alphabet base ∧ Occurs symbol base ∧
      value.HasType symbol.ty) :
    (isForced symbol value).Keeps state fun answer after =>
      ((answer = true → Forces config base symbol value) ∧
        (after.statistics.unknowns ≤ state.statistics.unknowns →
          Forces config base symbol value → answer = true)) ∧
        after.Serves config alphabet base := by
  unfold isForced
  apply keeps_inFrame (fun answer unknowns =>
    (answer = true → Forces config base symbol value) ∧
      (unknowns ≤ state.statistics.unknowns → Forces config base symbol value → answer = true))
    fun few => (serves few).1
  intro framed sameStatistics serves'
  refine keeps_bind_ofFormula fun formula built => ?_
  obtain rfl : formula = .unary .not (symbol.hasValue value) .bool := by
    obtain ⟨_, -, built⟩ := exists_of_bind_eq_ok built
    cases built
    rfl
  apply keeps_bind (keeps_add (fun few => (serves' few).2) fun few other occursHere => by
    obtain ⟨-, ⟨formula, isFormula, occurs⟩, typed⟩ := serves (serves' few).1
    rw [Expr.mem_symbols_unary] at occursHere
    rw [Symbol.mem_symbols_hasValue symbol typed occursHere]
    exact listed formula isFormula symbol occurs)
  intro _ extended evolves served
  apply keeps_bind (keeps_check fun few => (served few).1)
  intro status checked evolves' answered
  apply keeps_pure
  intro few
  have earlier := few.of_evolves evolves'
  obtain ⟨-, occurs, typed⟩ := serves (serves' (earlier.of_evolves evolves)).1
  obtain ⟨served', status_eq, decided⟩ := answered few
  obtain ⟨encodable, boolean⟩ := Symbol.encodable_hasValue symbol typed
  have truth_negated {values : Symbol → Value}
      (admits : ∀ symbol, config.Admits symbol.decl (values symbol)) :
      (Expr.unary .not (symbol.hasValue value) .bool).truth (total values) = true ↔
        values symbol ≠ value := by
    rw [Expr.truth_not, Bool.not_eq_true', ← Bool.not_eq_true,
      Symbol.truth_hasValue typed fun symbol => (admits symbol).1]
  have plain' : ∀ formula ∈ base ++ [.unary .not (symbol.hasValue value) .bool],
      formula.choosesTruth = false :=
    List.forall_mem_append.mpr ⟨plain, List.forall_mem_singleton.mpr (encodable.not boolean).plain⟩
  refine ⟨⟨fun isUnsat => ?_, fun conclusive forces => decide_eq_true ?_⟩, _, served'⟩
  · obtain rfl := of_decide_eq_true isUnsat
    rintro values ⟨admits, fulfills⟩
    by_contra differ
    refine served'.excludes few workable status_eq plain' values
      (fun _ _ symbol _ => admits symbol) (List.forall_mem_append.mpr ⟨fulfills, ?_⟩)
    exact List.forall_mem_singleton.mpr ((truth_negated admits).mpr differ)
  · cases status with
    | unsat => rfl
    | unknown cause =>
        refine absurd rfl (decided (served earlier).2 (conclusive.trans ?_) cause)
        rw [← sameStatistics]
        exact evolves.unknowns_le
    | sat =>
        -- The value differs in a model.
        obtain ⟨model, -, solves⟩ := served'.exists_model few fewLevels plain' status_eq
        obtain ⟨values, ⟨admits, fulfills⟩, -⟩ := solves.exists_solution workable.lawful
        obtain ⟨fulfills, negated⟩ := List.forall_mem_append.mp fulfills
        exact absurd (forces values ⟨admits, fulfills⟩)
          ((truth_negated admits).mp (negated _ (List.mem_singleton_self _)))

/-- The valuation assigns forced values of the symbols that occur, and all of them if no answer
was inconclusive. -/
structure Collects (config : SolverConfig) (symbols : List Symbol) (base : List Expr)
    (conclusive : Prop) (forced : Valuation) : Prop where
  sorted : OrderedMap.Sorted forced.entries
  forces {symbol : Symbol} {value : Value} : forced.get? symbol = some value →
    symbol ∈ symbols ∧ Occurs symbol base ∧ Forces config base symbol value
  complete {symbol : Symbol} {value : Value} : conclusive → symbol ∈ symbols →
    Occurs symbol base → Forces config base symbol value → forced.get? symbol = some value

/-- Add the value of a symbol in a model if it is forced. -/
def collectForced (model forced : Valuation) (symbol : Symbol) : Query Valuation := do
  match model.get? symbol with
  | none => return forced
  | some value =>
      if ← isForced symbol value then return forced.insert symbol value
      else return forced

theorem keeps_collectForced {model forced : Valuation} {known : List Symbol} {symbol : Symbol}
    {unknowns : Nat} (least : unknowns ≤ state.statistics.unknowns)
    (serves : state.Few → state.Serves config alphabet base ∧ config.Solves base model ∧
      Collects config known base (state.statistics.unknowns ≤ unknowns) forced) :
    (collectForced model forced symbol).Keeps state fun result after =>
      after.Serves config alphabet base ∧
        Collects config (known ++ [symbol]) base (after.statistics.unknowns ≤ unknowns) result := by
  -- The only value that can be forced is the one of the model.
  have forcing (few : state.Few) {value : Value} (occurs : Occurs symbol base)
      (forces : Forces config base symbol value) : model.get? symbol = some value := by
    obtain ⟨values, solution, given⟩ := (serves few).2.1.exists_solution workable.lawful
    exact (given symbol value).mpr ⟨occurs, forces values solution⟩
  have described (few : state.Few) {value : Value}
      (found : model.get? symbol = some value) :
      Occurs symbol base ∧ value.HasType symbol.ty := by
    obtain ⟨values, solution, given⟩ := (serves few).2.1.exists_solution workable.lawful
    obtain ⟨occurs, rfl⟩ := (given symbol value).mp found
    exact ⟨occurs, (solution.admits symbol).1⟩
  have unchanged (few : state.Few) {after : OpenSession} (evolves : state.Evolves after)
      (free : after.statistics.unknowns ≤ unknowns →
        ∀ value, Occurs symbol base → ¬ Forces config base symbol value) :
      Collects config (known ++ [symbol]) base (after.statistics.unknowns ≤ unknowns) forced := by
    obtain ⟨sorted, forced, complete⟩ := (serves few).2.2
    refine ⟨sorted, fun found => ?_, fun conclusive member occurs forces => ?_⟩
    · have ⟨member, rest⟩ := forced found
      exact ⟨List.mem_append_left _ member, rest⟩
    · rcases List.mem_append.mp member with member | isLast
      · exact complete (evolves.unknowns_le.trans conclusive) member occurs forces
      · obtain rfl := List.mem_singleton.mp isLast
        exact absurd forces (free conclusive _ occurs)
  unfold collectForced
  split
  case h_1 unknown =>
    apply keeps_pure
    intro few
    refine ⟨(serves few).1, unchanged few (.refl state) fun _ value occurs forces => ?_⟩
    rw [forcing few occurs forces] at unknown
    cases unknown
  case h_2 value found =>
    apply keeps_bind (keeps_isForced workable fewLevels plain listed fun few =>
      ⟨(serves few).1, described few found⟩)
    intro answer after evolves answered
    split
    case isTrue isForced =>
      apply keeps_pure
      intro few
      have earlier := few.of_evolves evolves
      obtain ⟨sorted, forced, complete⟩ := (serves earlier).2.2
      obtain ⟨occurs, -⟩ := described earlier found
      have forces := (answered few).1.1 isForced
      refine ⟨(answered few).2, sorted.insert symbol value, fun {other value'} stored => ?_,
        fun {other value'} conclusive member occurs' forces' => ?_⟩
      · rw [Valuation.get?, Valuation.insert, OrderedMap.find?_insert] at stored
        rw [List.mem_append, List.mem_singleton]
        by_cases same : other = symbol
        · subst same
          rw [if_pos rfl] at stored
          cases stored
          exact ⟨.inr rfl, occurs, forces⟩
        · rw [if_neg same] at stored
          have ⟨member, rest⟩ := forced stored
          exact ⟨.inl member, rest⟩
      · rw [Valuation.get?, Valuation.insert, OrderedMap.find?_insert]
        by_cases same : other = symbol
        · subst same
          rw [if_pos rfl, ← found, forcing earlier occurs' forces']
        · rw [if_neg same]
          refine complete (evolves.unknowns_le.trans conclusive) ?_ occurs' forces'
          rw [List.mem_append, List.mem_singleton] at member
          exact member.resolve_right same
    case isFalse notForced =>
      apply keeps_pure
      intro few
      have earlier := few.of_evolves evolves
      refine ⟨(answered few).2, unchanged earlier evolves fun conclusive value' occurs forces => ?_⟩
      have unique := forcing earlier occurs forces
      rw [found] at unique
      cases unique
      exact notForced ((answered few).1.2 (conclusive.trans least) forces)

/-- The values that are the same in all models are forced ones. -/
theorem keeps_forcedValues {unknowns : Nat} (least : unknowns ≤ state.statistics.unknowns)
    (serves : state.Few → state.Serves config alphabet base) :
    (forcedValues symbols).Keeps state fun forced after =>
      config.Excludes base ∨
        Collects config symbols base (after.statistics.unknowns ≤ unknowns) forced := by
  have collects (model : Valuation) (remaining known : List Symbol) (forced : Valuation)
      (current : OpenSession) (least : unknowns ≤ current.statistics.unknowns)
      (serves : current.Few → current.Serves config alphabet base ∧ config.Solves base model ∧
        Collects config known base (current.statistics.unknowns ≤ unknowns) forced) :
      (remaining.foldlM (collectForced model) forced).Keeps current fun result after =>
        Collects config (known ++ remaining) base (after.statistics.unknowns ≤ unknowns)
          result := by
    induction remaining generalizing known forced current with
    | nil =>
        apply keeps_pure
        intro few
        rw [List.append_nil]
        exact (serves few).2.2
    | cons symbol remaining ih =>
        rw [List.foldlM_cons, ← List.singleton_append, ← List.append_assoc]
        apply keeps_bind (keeps_collectForced workable fewLevels plain listed least serves)
        intro result after evolves collected
        apply ih _ _ _ (least.trans evolves.unknowns_le)
        intro few
        exact ⟨(collected few).1, (serves (few.of_evolves evolves)).2.1, (collected few).2⟩
  show Keeps (do
    if ← isSatisfiable then
      let model ← model
      symbols.foldlM (collectForced model) .empty
    else return .empty) state _
  apply keeps_bind (keeps_isSatisfiable serves)
  intro answer answered evolves given
  split
  case isFalse unsat =>
    apply keeps_pure
    intro few
    obtain ⟨serves', status⟩ := given few
    rw [if_neg unsat] at status
    exact .inl (serves'.excludes few workable status plain)
  case isTrue sat =>
    apply keeps_bind (keeps_model fewLevels fun few => ⟨(given few).1, by
      rw [(given few).2, if_pos sat], plain⟩)
    intro model modelled evolves' solved
    apply Keeps.mono (collects model symbols [] .empty modelled
      (least.trans (evolves.trans evolves').unknowns_le) fun few =>
        ⟨(solved few).1, (solved few).2, List.Pairwise.nil, (by rintro symbol value ⟨⟩),
          by rintro symbol value - ⟨⟩⟩)
    exact fun _ _ _ _ collected => .inr collected

omit workable fewLevels plain listed

/-- Every solution of the first formulas is one of the second ones.  Where only the first
ones speak about a symbol, they force its value. -/
structure Narrows (config : SolverConfig) (base base' : List Expr) : Prop where
  solution {values : Symbol → Value} : config.Solution base values → config.Solution base' values
  occurs {symbol : Symbol} : Occurs symbol base' → Occurs symbol base
  forces {symbol : Symbol} : Occurs symbol base → ¬ Occurs symbol base' →
    ∃ value, Forces config base symbol value

namespace Narrows

variable {base' : List Expr} {limit : Option Nat} {projections projections' : List Valuation}
  {projection projection' : Valuation}

theorem subset (narrows : Narrows config base base')
    (projects : projection.Projects config symbols base)
    (projects' : projection'.Projects config symbols base') {values : Symbol → Value}
    (isMatch : projection.Matches values) (isMatch' : projection'.Matches values) :
    ∀ entry ∈ projection'.entries, entry ∈ projection.entries := by
  intro entry member
  obtain ⟨⟨listed, occurs⟩, same⟩ := (projects'.mem_entries isMatch').mp member
  exact (projects.mem_entries isMatch).mpr ⟨⟨listed, narrows.occurs occurs⟩, same⟩

/-- Solutions that agree on a projection of the second formulas agree on all symbols of the
first ones. -/
theorem agree (narrows : Narrows config base base')
    (projects' : projection'.Projects config symbols base') {values values' : Symbol → Value}
    (solution : config.Solution base values) (solution' : config.Solution base values')
    (isMatch : projection'.Matches values) (isMatch' : projection'.Matches values')
    {symbol : Symbol} (listed : symbol ∈ symbols) (occurs : Occurs symbol base) :
    values symbol = values' symbol := by
  by_cases shared : Occurs symbol base'
  · obtain ⟨entry, member, rfl⟩ := List.mem_map.mp (projects'.mem_symbols.mpr ⟨listed, shared⟩)
    exact (isMatch entry member).trans (isMatch' entry member).symm
  · obtain ⟨value, forces⟩ := narrows.forces occurs shared
    exact (forces values solution).trans (forces values' solution').symm

/-- Where the first formulas have more projections than the limit, so have the second
ones. -/
theorem exceeds (narrows : Narrows config base base') (lawful : config.Lawful)
    (more : Exceeds config symbols limit base projections)
    (lists : Lists config symbols base' projections') :
    ∃ bound, limit = some bound ∧ bound < projections'.length := by
  obtain ⟨bound, isLimit, exceeds⟩ := more.exceeds
  refine ⟨bound, isLimit, Nat.lt_of_lt_of_le exceeds ?_⟩
  have related (projection : Valuation) (member : projection ∈ projections) :
      ∃ image ∈ projections', ∃ values, config.Solution base values ∧
        projection.Matches values ∧ image.Matches values := by
    obtain ⟨values, solution, isMatch⟩ :=
      (more.projects projection member).exists_solution lawful
    obtain ⟨image, inImage, isMatch'⟩ := lists.complete (narrows.solution solution)
    exact ⟨image, inImage, values, solution, isMatch, isMatch'⟩
  choose! image inImage values solution isMatch isMatch' using related
  have injective : ∀ first ∈ projections, ∀ second ∈ projections,
      image first = image second → first = second := by
    intro first isFirst second isSecond same
    refine Valuation.ext_of_sorted (more.projects first isFirst).sorted
      (more.projects second isSecond).sorted fun entry => ?_
    rw [(more.projects first isFirst).mem_entries (isMatch first isFirst),
      (more.projects second isSecond).mem_entries (isMatch second isSecond)]
    refine and_congr_right fun ⟨listed, occurs⟩ => ?_
    rw [narrows.agree (lists.projects _ (inImage first isFirst)) (solution first isFirst)
      (solution second isSecond) (isMatch' first isFirst) (same ▸ isMatch' second isSecond)
      listed occurs]
  have nodup : (projections.map image).Nodup := more.nodup.map_on injective
  have subset : projections.map image ⊆ projections' := by
    intro _ member
    obtain ⟨projection, isProjection, rfl⟩ := List.mem_map.mp member
    exact inImage projection isProjection
  rw [← List.length_map image]
  exact (List.subperm_of_subset nodup subset).length_le

end Narrows

end Query

end AbstractionRefinement
