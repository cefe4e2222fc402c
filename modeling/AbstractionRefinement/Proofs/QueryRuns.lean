import AbstractionRefinement.Proofs.QueryVerdicts
import AbstractionRefinement.Proofs.SessionAnswers

/-!
# Runs of queries

A query may run into resource limits: nodes, levels or time can be used up, so that an
answer is inconclusive.  Whether this has happened can be told from the session at the end
of the run, because nodes and inconclusive answers are only ever added.  This file says
what queries answer in runs with few nodes, for every node limit.
-/

namespace AbstractionRefinement

open AbstractionRefinement.Computation

/-- The configured intervals are nonempty and trusted. -/
structure SolverConfig.Trusted (config : SolverConfig) : Prop where
  lawful : config.Lawful
  countable : (config.maxAtomAssignments : Int) < maxInt64
  margin_eq : config.margin = 0

/-- The configured intervals are nonempty, and what is enumerated can be counted. -/
structure SolverConfig.Workable (config : SolverConfig) : Prop where
  lawful : config.Lawful
  countable : (config.maxAtomAssignments : Int) < maxInt64

theorem SolverConfig.Workable.exact_capped {config : SolverConfig} (workable : config.Workable) :
    (config.capped 32768).Exact :=
  ⟨workable.lawful, workable.countable, DiagramManager.distinctKeys_of_le (Nat.min_le_right _ _)⟩

theorem SolverConfig.Trusted.workable {config : SolverConfig} (trusted : config.Trusted) :
    config.Workable :=
  ⟨trusted.lawful, trusted.countable⟩

/-- The model consists of admitted values for exactly the symbols of the formulas, and makes
those of them true that do not choose between truth values. -/
def SolverConfig.SolvesPlain (config : SolverConfig) (formulas : List Expr)
    (model : Valuation) : Prop :=
  ∃ values, config.AdmitsAll values formulas ∧
    (∀ formula ∈ formulas, formula.choosesTruth = false →
      formula.truth (fun symbol => some (values symbol)) = true) ∧
    ∀ symbol value, model.get? symbol = some value ↔
      (∃ formula ∈ formulas, symbol ∈ formula.symbols) ∧ values symbol = value

theorem SolverConfig.SolvesPlain.solves {config : SolverConfig} {formulas : List Expr}
    {model : Valuation} (solvesPlain : config.SolvesPlain formulas model)
    (plain : ∀ formula ∈ formulas, formula.choosesTruth = false) :
    config.Solves formulas model := by
  obtain ⟨values, admits, fulfills, given⟩ := solvesPlain
  exact ⟨values, admits, fun formula member => fulfills formula member (plain formula member),
    given⟩

namespace OpenSession

/-- Nodes and inconclusive answers are added, and the outer frames are kept. -/
structure Evolves (before after : OpenSession) : Prop where
  nodes_le : before.session.encoder.manager.nodes.size ≤
    after.session.encoder.manager.nodes.size
  unknowns_le : before.statistics.unknowns ≤ after.statistics.unknowns
  outer_eq : after.session.outer = before.session.outer

/-- Few nodes were allocated. -/
def Few (state : OpenSession) : Prop :=
  state.session.encoder.manager.size ≤ 32767

instance (state : OpenSession) : Decidable state.Few :=
  inferInstanceAs (Decidable (_ ≤ _))

/-- Few nodes were allocated, and at most the given number of answers was inconclusive. -/
structure Calm (unknowns : Nat) (state : OpenSession) : Prop where
  few : state.session.encoder.manager.size ≤ 32767
  conclusive : state.statistics.unknowns ≤ unknowns

variable {before between after : OpenSession}

theorem Evolves.refl (state : OpenSession) : state.Evolves state :=
  ⟨Nat.le_refl _, Nat.le_refl _, rfl⟩

theorem Evolves.trans (first : before.Evolves between) (second : between.Evolves after) :
    before.Evolves after where
  nodes_le := first.nodes_le.trans second.nodes_le
  unknowns_le := first.unknowns_le.trans second.unknowns_le
  outer_eq := second.outer_eq.trans first.outer_eq

theorem Few.of_evolves (few : after.Few) (evolves : before.Evolves after) : before.Few :=
  Nat.le_trans (Nat.sub_le_sub_right evolves.nodes_le 1) few

theorem Few.nodes_le {state : OpenSession} (few : state.Few) :
    state.session.encoder.manager.nodes.size ≤ 32768 := by
  unfold Few DiagramManager.size at few
  omega

/-- The session holds the formulas, and what is known of sessions in use is known of it. -/
structure Serves (state : OpenSession) (config : SolverConfig) (alphabet : List Symbol)
    (formulas : List Expr) : Prop where
  within : state.session.SoundWithin 32768 config alphabet
  formulas_eq : state.session.formulas = formulas

namespace Serves

variable {state : OpenSession} {config : SolverConfig} {alphabet : List Symbol}
  {formulas : List Expr}

section Unsatisfiable

variable (serves : state.Serves config alphabet formulas) (few : state.Few)
  (workable : config.Workable) (unsat : state.session.status = some .unsat)
  (plain : ∀ formula ∈ formulas, formula.choosesTruth = false)
include serves few workable unsat plain

theorem excludes : config.Excludes formulas := by
  have excludes := serves.within.excludes few.nodes_le unsat workable.exact_capped
  rw [serves.formulas_eq] at excludes
  exact excludes plain

theorem refutes (confirmed : Session.confirmationSize config formulas ≤ 32767)
    {values : Symbol → Value} (considers : config.Considers formulas values) :
    ¬ Fulfills values formulas := by
  have refutes := serves.within.refutes few.nodes_le unsat
  rw [serves.formulas_eq] at refutes
  exact refutes (Nat.lt_succ_of_le confirmed) workable.exact_capped plain values considers

end Unsatisfiable

/-- After a satisfiable answer, there is a model of those formulas that do not choose between
truth values. -/
theorem exists_model_of_plain (serves : state.Serves config alphabet formulas) (few : state.Few)
    (fewLevels : Encoding.levelTotal config alphabet < 2147483648)
    (sat : state.session.status = some .sat) :
    ∃ model, state.session.model = .ok model ∧ config.SolvesPlain formulas model := by
  have sound := serves.within.sound few.nodes_le
  have sameConfig : (state.session.capped 32768).config = config.capped 32768 :=
    congrArg (SolverConfig.capped 32768) serves.within.config_eq
  have levels := Encoding.nextLevel_le sound.usesOnly
  rw [sound.config_eq, sameConfig] at levels
  have levels' : (state.session.capped 32768).encoder.nextLevel ≤
      1 + Encoding.levelTotal config alphabet := levels
  obtain ⟨model, values, given, admits, fulfills, assigned⟩ :=
    sound.exists_model (Nat.le_trans levels' (by omega)) (Session.status_capped_of_sat sat)
  rw [Session.model_capped 32768 sat] at given
  have sameFormulas : (state.session.capped 32768).formulas = formulas := serves.formulas_eq
  rw [sameConfig, sameFormulas] at admits
  rw [sameFormulas] at fulfills assigned
  exact ⟨model, given, values, admits, fulfills, assigned⟩

theorem exists_model (serves : state.Serves config alphabet formulas) (few : state.Few)
    (fewLevels : Encoding.levelTotal config alphabet < 2147483648)
    (plain : ∀ formula ∈ formulas, formula.choosesTruth = false)
    (sat : state.session.status = some .sat) :
    ∃ model, state.session.model = .ok model ∧ config.Solves formulas model := by
  obtain ⟨model, given, solves⟩ := serves.exists_model_of_plain few fewLevels sat
  exact ⟨model, given, solves.solves plain⟩

end Serves

/-- The session holds the formulas, and what is known of sessions in use is known of it, or
no answer was conclusive because a deadline passes at once. -/
structure Holds (state : OpenSession) (config : SolverConfig) (alphabet : List Symbol)
    (formulas : List Expr) : Prop where
  serves : config.timeoutPasses = false → state.Serves config alphabet formulas
  undecided : config.timeoutPasses = true → state.session.Undecided config

theorem Serves.holds {state : OpenSession} {config : SolverConfig} {alphabet : List Symbol}
    {formulas : List Expr} (serves : state.Serves config alphabet formulas) :
    state.Holds config alphabet formulas where
  serves _ := serves
  undecided late := by
    rw [serves.within.punctual] at late
    cases late

end OpenSession

namespace Session

theorem check_of_status {session : Session} {status : SolverStatus}
    (answered : session.status = some status) : check session = (status, session) := by
  unfold check
  rw [SessionState.bind_run, SessionState.get_run]
  dsimp only
  rw [answered]
  rfl

theorem check_of_none {session : Session} (unanswered : session.status = none) :
    check session = ((decideConjunction session).1,
      { (decideConjunction session).2 with status := some (decideConjunction session).1 }) := by
  unfold check
  rw [SessionState.bind_run, SessionState.get_run]
  dsimp only
  rw [unanswered]
  rfl

theorem pop_of_outer {session : Session} {outer : List (List Assertion)}
    {innermost : List Assertion} (frames : session.outer = innermost :: outer) :
    (pop session).2 = { session with outer, innermost, status := none } := by
  unfold pop
  rw [SessionState.bind_run, SessionState.get_run]
  dsimp only
  rw [frames]
  rfl

theorem nodes_le_check (session : Session) : session.encoder.manager.nodes.size ≤
      (check session).2.encoder.manager.nodes.size ∧
    (check session).2.outer = session.outer := by
  cases answered : session.status with
  | some status =>
      rw [check_of_status answered]
      exact ⟨Nat.le_refl _, rfl⟩
  | none =>
      rw [check_of_none answered, decideConjunction_run]
      refine ⟨nodes_le_settleConjunction session, ?_⟩
      obtain ⟨encoder, conjunction, state, -⟩ := settleConjunction_state session
      rw [state]

/-- Other calls than those for frames add nodes only and keep the frames. -/
theorem nodes_le_perform (session : Session) {call : SessionCall} (opens : call ≠ .push)
    (discards : call ≠ .pop) : session.encoder.manager.nodes.size ≤
      (call.perform session).encoder.manager.nodes.size ∧
    (call.perform session).outer = session.outer := by
  have effect := call.effect_perform session
  generalize call.perform session = after at effect ⊢
  cases effect with
  | unchanged | marked => exact ⟨Nat.le_refl _, rfl⟩
  | pushed => exact absurd rfl opens
  | popped => exact absurd rfl discards
  | asserted =>
      exact ⟨(budgeted_assertionEncoding _).nodes_le session.encoder, rfl⟩
  | answered unanswered =>
      have checked := nodes_le_check session
      rwa [check_of_none unanswered] at checked
  | minimized =>
      exact ⟨(budgeted_coreEncoding session.live).nodes_le session.encoder, rfl⟩
  | interpolated =>
      exact ⟨(budgeted_interpolationEncoding _ _).nodes_le session.encoder, rfl⟩

end Session

namespace Query

open OpenSession

variable {config : SolverConfig} {alphabet : List Symbol} {formulas : List Expr}
  {state : OpenSession} {α β : Type}

theorem check_run (state : OpenSession) : check state =
    (.ok (Session.check state.session).1, ⟨(Session.check state.session).2,
      state.statistics.countCheck state.session.status.isNone
        (Session.check state.session).1⟩) :=
  rfl

/-- Asserting a formula changes a session only if the formula is Boolean. -/
theorem assertAs_run (tracked : Bool) (marker : Option Nat) (formula : Expr)
    (state : OpenSession) : perform (Session.assertAs tracked marker formula) state =
    if formula.ty = .bool then
      (.ok (), { state with session := state.session.asserted tracked marker formula })
    else (.error (.solver (.formula (.typeMismatch "assert" Ty.bool.display formula.ty))),
      state) := by
  unfold perform
  rw [Session.assertAs_run]
  by_cases boolean : formula.ty = .bool
  · rw [if_pos boolean, if_pos boolean]
    rfl
  · rw [if_neg boolean, if_neg boolean]
    rfl

theorem inFrame_run (query : Query α) (state : OpenSession) : inFrame query state =
    ((query { state with session := (Session.push state.session).2 }).1,
      { (query { state with session := (Session.push state.session).2 }).2 with
        session := (Session.pop (query { state with
          session := (Session.push state.session).2 }).2.session).2 }) :=
  rfl

/-- However it ends, the query only adds nodes and inconclusive answers and keeps the outer
frames. -/
def Evolving (query : Query α) : Prop :=
  ∀ state : OpenSession, state.Evolves (query state).2

theorem evolving_pure (result : α) : Evolving (pure result : Query α) :=
  fun state => .refl state

theorem evolving_throw (error : EngineError) : Evolving (throw error : Query α) :=
  fun state => .refl state

theorem evolving_get : Evolving (get : Query OpenSession) :=
  fun state => .refl state

theorem evolving_ofFormula (construction : Except FormulaError α) :
    Evolving (ofFormula construction : Query α) := by
  intro state
  cases construction <;> exact .refl state

theorem Evolving.bind {query : Query β} {next : β → Query α} (evolving : query.Evolving)
    (continues : ∀ result, (next result).Evolving) : Evolving (query >>= next) := by
  intro state
  have first := evolving state
  rw [bind_run]
  rcases run : query state with ⟨error | result, after⟩ <;> rw [run] at first
  · exact first
  · exact first.trans (continues result after)

theorem evolving_check : check.Evolving := by
  intro state
  obtain ⟨nodes_le, outer_eq⟩ := Session.nodes_le_check state.session
  exact ⟨nodes_le, Nat.le_add_right _ _, outer_eq⟩

theorem evolving_isSatisfiable : isSatisfiable.Evolving := by
  refine evolving_check.bind fun status => ?_
  cases status with
  | sat => exact evolving_pure true
  | unsat => exact evolving_pure false
  | unknown cause => exact evolving_throw _

theorem evolving_model : model.Evolving :=
  fun state => .refl state

theorem evolving_perform {operation : SessionState (Except SolverError α)} (call : SessionCall)
    (opens : call ≠ .push) (discards : call ≠ .pop)
    (performs : ∀ session, (operation session).2 = call.perform session) :
    (perform operation).Evolving := by
  intro state
  obtain ⟨nodes_le, outer_eq⟩ := Session.nodes_le_perform state.session opens discards
  rw [← performs] at nodes_le outer_eq
  exact ⟨nodes_le, Nat.le_refl _, outer_eq⟩

theorem evolving_assertAs (tracked : Bool) (marker : Option Nat) (formula : Expr) :
    (perform (Session.assertAs tracked marker formula)).Evolving := by
  intro state
  rw [assertAs_run]
  split
  · exact ⟨(Session.budgeted_assertionEncoding formula).nodes_le state.session.encoder,
      Nat.le_refl _, rfl⟩
  · exact .refl state

theorem evolving_add (formula : Expr) : (add formula).Evolving :=
  evolving_assertAs false none formula

theorem inFrame_state {query : Query α} (evolving : query.Evolving) (state : OpenSession) :
    (inFrame query state).2 =
      { (query { state with session := (Session.push state.session).2 }).2 with
        session :=
          { (query { state with session := (Session.push state.session).2 }).2.session with
            outer := state.session.outer, innermost := state.session.innermost,
            status := none } } := by
  have outer_eq := (evolving { state with session := (Session.push state.session).2 }).outer_eq
  rw [inFrame_run]
  generalize query { state with session := (Session.push state.session).2 } = outcome at outer_eq ⊢
  rw [Session.pop_of_outer outer_eq]

theorem evolving_inFrame {query : Query α} (evolving : query.Evolving) :
    (inFrame query).Evolving := by
  intro state
  have evolves := evolving { state with session := (Session.push state.session).2 }
  rw [inFrame_state evolving]
  exact ⟨evolves.nodes_le, evolves.unknowns_le, rfl⟩

/-- A run that returns only adds nodes and inconclusive answers.  While it has few nodes, what it
returns is described by the condition. -/
def Keeps (query : Query α) (state : OpenSession) (returns : α → OpenSession → Prop) : Prop :=
  query.Ensures state fun result after =>
    state.Evolves after ∧ (after.Few → returns result after)

theorem keeps_of_run {query : Query α} {returns : α → OpenSession → Prop}
    (evolving : query.Evolving)
    (returned : ∀ result after, query state = (.ok result, after) → state.Few → after.Few →
      returns result after) : query.Keeps state returns := by
  apply ensures_of_run
  intro result after run
  have evolves := evolving state
  rw [run] at evolves
  exact ⟨evolves, fun few => returned result after run (few.of_evolves evolves) few⟩

theorem Keeps.of_run {query : Query α} {returns : α → OpenSession → Prop}
    (keeps : query.Keeps state returns) {result : α} {after : OpenSession}
    (run : query state = (.ok result, after)) (few : after.Few) : returns result after :=
  (Ensures.of_run keeps run).2 few

theorem Keeps.mono {query : Query α} {returns returns' : α → OpenSession → Prop}
    (keeps : query.Keeps state returns)
    (weaker : ∀ result after, state.Evolves after → after.Few →
      returns result after → returns' result after) : query.Keeps state returns' :=
  Ensures.mono keeps fun result after ⟨evolves, returned⟩ =>
    ⟨evolves, fun few => weaker result after evolves few (returned few)⟩

theorem Keeps.with_run {query : Query α} {returns : α → OpenSession → Prop}
    (keeps : query.Keeps state returns) : query.Keeps state fun result after =>
      query state = (.ok result, after) ∧ returns result after := by
  apply ensures_of_run
  intro result after run
  obtain ⟨evolves, returned⟩ := Ensures.of_run keeps run
  exact ⟨evolves, fun few => ⟨run, returned few⟩⟩

theorem keeps_bind {query : Query β} {next : β → Query α} {between : β → OpenSession → Prop}
    {returns : α → OpenSession → Prop} (keeps : query.Keeps state between)
    (continues : ∀ result after, state.Evolves after → (after.Few → between result after) →
      (next result).Keeps after returns) :
    (query >>= next : Query α).Keeps state returns := by
  unfold Keeps
  rw [ensures_bind]
  apply Ensures.mono keeps
  intro result after ⟨evolves, returned⟩
  apply Ensures.mono (continues result after evolves returned)
  exact fun _ _ ⟨evolves', returned'⟩ => ⟨evolves.trans evolves', returned'⟩

theorem keeps_pure {result : α} {returns : α → OpenSession → Prop}
    (holds : state.Few → returns result state) : (pure result : Query α).Keeps state returns :=
  (ensures_pure result).mpr ⟨.refl state, holds⟩

theorem keeps_throw (error : EngineError) {returns : α → OpenSession → Prop} :
    (throw error : Query α).Keeps state returns :=
  (ensures_throw error).mpr trivial

theorem keeps_bind_get {next : OpenSession → Query α} {returns : α → OpenSession → Prop}
    (continues : (next state).Keeps state returns) :
    (get >>= next : Query α).Keeps state returns := by
  unfold Keeps
  rw [ensures_bind, ensures_get]
  exact continues

theorem keeps_bind_ofFormula {construction : Except FormulaError β} {next : β → Query α}
    {returns : α → OpenSession → Prop} (continues : ∀ result, construction = .ok result →
      (next result).Keeps state returns) :
    (ofFormula construction >>= next : Query α).Keeps state returns := by
  unfold Keeps
  rw [ensures_bind, ensures_ofFormula]
  exact continues

/-- Asserting a formula forgets the answer. -/
theorem keeps_assertAs (serves : state.Few → state.Serves config alphabet formulas)
    (tracked : Bool) (marker : Option Nat) {formula : Expr}
    (occurs : state.Few → ∀ symbol ∈ formula.symbols, symbol ∈ alphabet) :
    (perform (Session.assertAs tracked marker formula)).Keeps state fun _ after =>
      after.Serves config alphabet (formulas ++ [formula]) ∧ after.session.status = none := by
  apply keeps_of_run (evolving_assertAs tracked marker formula)
  intro value after run few _
  rw [assertAs_run] at run
  split at run
  case isFalse => cases run
  case isTrue boolean =>
    cases run
    have serves := serves few
    refine ⟨⟨serves.within.asserted tracked marker boolean (occurs few), ?_⟩, rfl⟩
    rw [← serves.formulas_eq]
    exact Session.formulas_asserted ..

theorem keeps_add (serves : state.Few → state.Serves config alphabet formulas) {formula : Expr}
    (occurs : state.Few → ∀ symbol ∈ formula.symbols, symbol ∈ alphabet) :
    (add formula).Keeps state fun _ after =>
      after.Serves config alphabet (formulas ++ [formula]) ∧ after.session.status = none :=
  keeps_assertAs serves false none occurs

/-- Checking the asserted formulas.  A new inconclusive answer is counted. -/
theorem keeps_check (serves : state.Few → state.Serves config alphabet formulas) :
    check.Keeps state fun status after =>
      after.Serves config alphabet formulas ∧ after.session.status = some status ∧
        (state.session.status = none → after.statistics.unknowns ≤ state.statistics.unknowns →
          ∀ cause, status ≠ .unknown cause) := by
  apply keeps_of_run evolving_check
  intro status after run few _
  rw [check_run] at run
  obtain ⟨same, rfl⟩ := Prod.mk.inj run
  obtain rfl := Except.ok.inj same
  have serves := serves few
  obtain ⟨answered, sameFormulas⟩ := Session.check_state state.session
  refine ⟨⟨serves.within.perform .check (by rintro _ ⟨⟩),
    sameFormulas.trans serves.formulas_eq⟩, answered, fun unanswered conclusive cause inconclusive =>
      ?_⟩
  rw [inconclusive, unanswered] at conclusive
  exact absurd conclusive (Nat.not_succ_le_self _)

theorem keeps_isSatisfiable (serves : state.Few → state.Serves config alphabet formulas) :
    isSatisfiable.Keeps state fun answer after =>
      after.Serves config alphabet formulas ∧
        after.session.status = some (if answer then .sat else .unsat) := by
  apply keeps_bind (keeps_check serves)
  intro status after _ checked
  cases status with
  | sat => exact keeps_pure fun few => ⟨(checked few).1, (checked few).2.1⟩
  | unsat => exact keeps_pure fun few => ⟨(checked few).1, (checked few).2.1⟩
  | unknown cause => exact keeps_throw _

theorem keeps_model (fewLevels : Encoding.levelTotal config alphabet < 2147483648)
    (serves : state.Few → state.Serves config alphabet formulas ∧
      state.session.status = some .sat ∧
        ∀ formula ∈ formulas, formula.choosesTruth = false) :
    model.Keeps state fun model after =>
      after.Serves config alphabet formulas ∧ config.Solves formulas model := by
  apply ensures_perform
  intro model given
  refine ⟨.refl state, fun few => ?_⟩
  obtain ⟨serves, sat, plain⟩ := serves few
  obtain ⟨_, given', solves⟩ := serves.exists_model few fewLevels plain sat
  rw [show state.session.model = .ok model from given] at given'
  cases given'
  exact ⟨serves, solves⟩

/-- A query in a frame of its own starts from the same formulas and leaves them.  What it returns
may depend on how many answers were inconclusive. -/
theorem keeps_inFrame {query : Query α} (returns : α → Nat → Prop)
    (serves : state.Few → state.Serves config alphabet formulas)
    (keeps : ∀ framed : OpenSession, framed.statistics = state.statistics →
      (framed.Few → state.Few ∧ framed.Serves config alphabet formulas) →
      query.Keeps framed fun result after => returns result after.statistics.unknowns ∧
        ∃ others, after.Serves config alphabet others) :
    (inFrame query).Keeps state fun result after => returns result after.statistics.unknowns ∧
      after.Serves config alphabet formulas := by
  have framed : ({ state with session := (Session.push state.session).2 } : OpenSession).Few →
      state.Few ∧ OpenSession.Serves
        { state with session := (Session.push state.session).2 } config alphabet formulas :=
    fun few =>
      have few' : state.Few := few
      have serves := serves few'
      ⟨few', serves.within.push, (Session.formulas_push _).trans serves.formulas_eq⟩
  have keeps := keeps { state with session := (Session.push state.session).2 } rfl framed
  apply ensures_of_run
  intro result after run
  rw [inFrame_run] at run
  rcases outcome : query { state with session := (Session.push state.session).2 } with
    ⟨_ | result', inner⟩
  · rw [outcome] at run
    cases run
  · rw [outcome] at run
    obtain ⟨evolves, returned⟩ := Ensures.of_run keeps outcome
    have outer_eq : inner.session.outer = state.session.innermost :: state.session.outer :=
      evolves.outer_eq
    dsimp only at run
    rw [Session.pop_of_outer outer_eq] at run
    obtain ⟨same, rfl⟩ := Prod.mk.inj run
    obtain rfl := Except.ok.inj same
    have evolves' : state.Evolves { inner with session := { inner.session with
        outer := state.session.outer, innermost := state.session.innermost, status := none } } :=
      ⟨evolves.nodes_le, evolves.unknowns_le, rfl⟩
    refine ⟨evolves', fun few => ?_⟩
    obtain ⟨holds, others, serves'⟩ := returned few
    refine ⟨holds, serves'.within.discard fun assertion member => ?_,
      (serves (few.of_evolves evolves')).formulas_eq⟩
    rw [Session.live, outer_eq, List.reverse_cons, List.flatten_append, List.flatten_singleton]
    exact List.mem_append_left _ member

section Deadlines

variable (undecided : state.session.Undecided config)
include undecided

theorem ensures_assertAs_of_undecided (tracked : Bool) (marker : Option Nat) (formula : Expr) :
    (perform (Session.assertAs tracked marker formula)).Ensures state fun _ after =>
      after.session.Undecided config := by
  apply ensures_of_run
  intro value after run
  rw [assertAs_run] at run
  split at run
  · cases run
    exact undecided.of_status rfl (.inr rfl)
  · cases run

theorem ensures_add_of_undecided (formula : Expr) :
    (add formula).Ensures state fun _ after => after.session.Undecided config :=
  ensures_assertAs_of_undecided undecided false none formula

theorem ensures_isSatisfiable_of_undecided :
    isSatisfiable.Ensures state fun _ _ => False := by
  unfold isSatisfiable
  rw [ensures_bind]
  apply ensures_of_run
  intro status after run
  rw [check_run] at run
  obtain ⟨same, -⟩ := Prod.mk.inj run
  obtain ⟨cause, unknown⟩ := undecided.check
  obtain rfl := unknown.symm.trans (Except.ok.inj same)
  exact (ensures_throw _).mpr trivial

theorem ensures_inFrame_of_undecided {query : Query α}
    (never : ∀ framed : OpenSession, framed.session.Undecided config →
      query.Ensures framed fun _ _ => False) :
    (inFrame query).Ensures state fun _ _ => False := by
  apply ensures_of_run
  intro result after run
  rw [inFrame_run] at run
  rcases outcome : query { state with session := (Session.push state.session).2 } with
    ⟨_ | result', inner⟩
  · rw [outcome] at run
    cases run
  · exact (never _ (undecided.perform .push)).of_run outcome

end Deadlines

section Holding

variable (holds : state.Few → state.Holds config alphabet formulas)
include holds

theorem keeps_assertAs_of_holds (tracked : Bool) (marker : Option Nat) {formula : Expr}
    (occurs : ∀ symbol ∈ formula.symbols, symbol ∈ alphabet) :
    (perform (Session.assertAs tracked marker formula)).Keeps state fun _ after =>
      after.Holds config alphabet (formulas ++ [formula]) := by
  apply keeps_of_run (evolving_assertAs tracked marker formula)
  intro value after run few few'
  refine ⟨fun punctual => ?_, fun late => ?_⟩
  · exact ((keeps_assertAs (fun few => (holds few).serves punctual) tracked marker
      fun _ => occurs).of_run run few').1
  · exact (ensures_assertAs_of_undecided ((holds few).undecided late) tracked marker
      formula).of_run run

/-- An answer is given only if no deadline passes, and an unsatisfiable one is right. -/
theorem keeps_isSatisfiable_of_holds (workable : config.Workable)
    (plain : ∀ formula ∈ formulas, formula.choosesTruth = false) :
    isSatisfiable.Keeps state fun answer after =>
      after.Holds config alphabet formulas ∧ (¬ answer = true → config.Excludes formulas) := by
  apply keeps_of_run evolving_isSatisfiable
  intro answer after run few few'
  cases late : config.timeoutPasses with
  | true =>
      exact ((ensures_isSatisfiable_of_undecided ((holds few).undecided late)).of_run run).elim
  | false =>
      obtain ⟨serves, answered⟩ :=
        (keeps_isSatisfiable fun few => (holds few).serves late).of_run run few'
      refine ⟨serves.holds, fun unsat => ?_⟩
      rw [if_neg unsat] at answered
      exact serves.excludes few' workable answered plain

/-- A model is given only after a satisfiable answer. -/
theorem keeps_model_of_holds (fewLevels : Encoding.levelTotal config alphabet < 2147483648)
    (plain : ∀ formula ∈ formulas, formula.choosesTruth = false) :
    model.Keeps state fun model _ => config.Solves formulas model := by
  apply keeps_of_run evolving_model
  intro model after run few few'
  have given : state.session.model = .ok model := (ensures_perform_run _).of_run run |>.1
  have sat : state.session.status = some .sat := by
    by_contra other
    unfold Session.model at given
    rw [if_neg other] at given
    cases given
  cases late : config.timeoutPasses with
  | true =>
      obtain ⟨cause, unknown⟩ := ((holds few).undecided late).unknown sat
      cases unknown
  | false =>
      have serves := (holds few).serves late
      exact ((keeps_model fewLevels fun _ => ⟨serves, sat, plain⟩).of_run run few').2

end Holding

/-- The session that is opened for a query. -/
def opened (config : SolverConfig) (theme : SessionTheme) (statistics : SolverStatistics) :
    OpenSession :=
  ⟨.start config theme, { statistics with sessions := statistics.sessions + 1 }⟩

/-- The run of a query in a session of its own meets no resource limit: no deadline passes,
few nodes are allocated, and no answer is inconclusive. -/
structure MeetsNoLimit (config : SolverConfig) (theme : SessionTheme) (query : Query α)
    (statistics : SolverStatistics) : Prop where
  punctual : config.timeoutPasses = false
  calm : (query (opened config theme statistics)).2.Calm statistics.unknowns

theorem opened_serves (lawful : config.Lawful) (punctual : config.timeoutPasses = false)
    (theme : SessionTheme) (statistics : SolverStatistics) (alphabet : List Symbol) :
    (opened config theme statistics).Serves config alphabet [] :=
  ⟨Session.start_soundWithin lawful (Nat.le_refl _) punctual theme, rfl⟩

theorem opened_holds (lawful : config.Lawful) (theme : SessionTheme)
    (statistics : SolverStatistics) (alphabet : List Symbol) :
    (opened config theme statistics).Holds config alphabet [] where
  serves punctual := opened_serves lawful punctual theme statistics alphabet
  undecided late := ⟨rfl, late, by rintro _ ⟨⟩⟩

/-- What a query returns in a session of its own. -/
theorem of_inSession {theme : SessionTheme} {query : Query α} {returns : α → OpenSession → Prop}
    {statistics after : SolverStatistics} {result : α}
    (ensures : query.Ensures (opened config theme statistics) returns)
    (run : inSession config theme query statistics = (.ok result, after)) :
    returns result (query (opened config theme statistics)).2 := by
  have returned : (query (opened config theme statistics)).1 = .ok result := by
    by_cases tooLarge : ComputedTable.maxBits < config.cacheBits
    · have refused : inSession config theme query statistics = (.error (.tableTooLarge
          config.cacheBits), { statistics with sessions := statistics.sessions + 1 }) := by
        unfold inSession openSession
        rw [if_pos tooLarge]
        rfl
      rw [refused] at run
      cases run
    · have answered : inSession config theme query statistics =
          ((query (opened config theme statistics)).1,
            (query (opened config theme statistics)).2.statistics) := by
        unfold inSession openSession
        rw [if_neg tooLarge]
        rfl
      rw [answered] at run
      exact (Prod.mk.inj run).1
  exact ensures.of_run (Prod.ext returned rfl)

theorem Keeps.of_inSession {theme : SessionTheme} {query : Query α}
    {returns : α → OpenSession → Prop} {statistics after : SolverStatistics} {result : α}
    (keeps : query.Keeps (opened config theme statistics) returns)
    (few : (query (opened config theme statistics)).2.Few)
    (run : inSession config theme query statistics = (.ok result, after)) :
    returns result (query (opened config theme statistics)).2 :=
  (Query.of_inSession keeps run).2 few

end Query

end AbstractionRefinement
