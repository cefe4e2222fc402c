import AbstractionRefinement.Proofs.ModelProjections
import AbstractionRefinement.Proofs.SessionIndependence

/-!
# Outcomes of queries

A query ends in a result or in an error, and the session can be used afterwards in both
cases.  This file says which frames a query keeps however it ends, and which errors there
are while few nodes are allocated: a check may be inconclusive, and nothing else goes wrong.
-/

namespace AbstractionRefinement

open AbstractionRefinement.Computation

/-- The session arises from a new one by calls and holds the formulas. -/
structure OpenSession.InUse (state : OpenSession) (config : SolverConfig)
    (alphabet : List Symbol) (formulas : List Expr) : Prop where
  serves : state.Serves config alphabet formulas
  reached : state.session.Reached config

theorem OpenSession.Serves.mem_alphabet {state : OpenSession} {config : SolverConfig}
    {alphabet : List Symbol} {formulas : List Expr}
    (serves : state.Serves config alphabet formulas) (few : state.Few) :
    ∀ formula ∈ formulas, ∀ symbol ∈ formula.symbols, symbol ∈ alphabet := by
  rw [← serves.formulas_eq]
  exact (serves.within.sound few.nodes_le).occurs

namespace Query

open OpenSession

variable {config : SolverConfig} {alphabet : List Symbol} {formulas : List Expr}
  {state : OpenSession} {α β : Type}

/-- However it ends, the query leaves the assertions in all frames as they were. -/
def KeepsFrames (query : Query α) : Prop :=
  ∀ state : OpenSession, (query state).2.session.outer = state.session.outer ∧
    (query state).2.session.innermost = state.session.innermost

theorem KeepsFrames.live_eq {query : Query α} (keeps : query.KeepsFrames) (state : OpenSession) :
    (query state).2.session.live = state.session.live := by
  rw [Session.live, Session.live, (keeps state).1, (keeps state).2]

theorem keepsFrames_pure (result : α) : KeepsFrames (pure result : Query α) :=
  fun _ => ⟨rfl, rfl⟩

theorem keepsFrames_get : KeepsFrames (get : Query OpenSession) :=
  fun _ => ⟨rfl, rfl⟩

theorem keepsFrames_model : KeepsFrames model :=
  fun _ => ⟨rfl, rfl⟩

theorem KeepsFrames.bind {query : Query β} {next : β → Query α}
    (keeps : query.KeepsFrames) (continues : ∀ result, (next result).KeepsFrames) :
    KeepsFrames (query >>= next) := by
  intro state
  have first := keeps state
  rw [bind_run]
  rcases run : query state with ⟨error | result, after⟩ <;> rw [run] at first
  · exact first
  · have second := continues result after
    exact ⟨second.1.trans first.1, second.2.trans first.2⟩

theorem keepsFrames_isSatisfiable : isSatisfiable.KeepsFrames := by
  have checks : check.KeepsFrames := by
    intro state
    rw [check_run]
    cases answered : state.session.status with
    | some status =>
        rw [Session.check_of_status answered]
        exact ⟨rfl, rfl⟩
    | none =>
        obtain ⟨encoder, conjunction, same, -⟩ := Session.settleConjunction_state state.session
        rw [Session.check_of_none answered, Session.decideConjunction_run, same]
        exact ⟨rfl, rfl⟩
  refine checks.bind fun status => ?_
  cases status with
  | sat => exact keepsFrames_pure true
  | unsat => exact keepsFrames_pure false
  | unknown cause => exact fun _ => ⟨rfl, rfl⟩

theorem keepsFrames_inFrame {query : Query α} (evolving : query.Evolving) :
    (inFrame query).KeepsFrames := by
  intro state
  rw [inFrame_state evolving]
  exact ⟨rfl, rfl⟩

theorem keepsFrames_foldlM {step : β → α → Query β}
    (keeps : ∀ result item, (step result item).KeepsFrames) (items : List α) (start : β) :
    (items.foldlM step start).KeepsFrames := by
  induction items generalizing start with
  | nil => exact keepsFrames_pure start
  | cons item items ih =>
      rw [List.foldlM_cons]
      exact (keeps start item).bind ih

/-- If few nodes are allocated in the end, the outcome, a result or an error, and the state
after it are described by the condition. -/
def Settles (query : Query α) (state : OpenSession)
    (outcome : Except EngineError α → OpenSession → Prop) : Prop :=
  (query state).2.Few → outcome (query state).1 (query state).2

theorem settles_pure {result : α} {outcome : Except EngineError α → OpenSession → Prop}
    (holds : outcome (.ok result) state) : (pure result : Query α).Settles state outcome :=
  fun _ => holds

/-- A composed query ends with an error of its first part or as its second part ends. -/
theorem settles_bind {query : Query β} {next : β → Query α}
    {between : Except EngineError β → OpenSession → Prop}
    {outcome : Except EngineError α → OpenSession → Prop}
    (evolving : ∀ result, (next result).Evolving)
    (settles : state.Few → query.Settles state between) (evolvingFirst : query.Evolving)
    (fails : ∀ error after, between (.error error) after → outcome (.error error) after)
    (continues : ∀ result after, after.Few → between (.ok result) after →
      (next result).Settles after outcome) : (query >>= next : Query α).Settles state outcome := by
  intro few
  have first := evolvingFirst state
  rw [bind_run] at few ⊢
  rcases run : query state with ⟨error | result, after⟩ <;> rw [run] at few first
  · have settled := settles (few.of_evolves first)
    unfold Settles at settled
    rw [run] at settled
    exact fails error after (settled few)
  · have fewAfter : after.Few := few.of_evolves (evolving result after)
    have settled := settles (fewAfter.of_evolves first)
    unfold Settles at settled
    rw [run] at settled
    exact continues result after fewAfter (settled fewAfter) few

theorem settles_bind_ofFormula {construction : Except FormulaError β} {next : β → Query α}
    {result : β} {outcome : Except EngineError α → OpenSession → Prop}
    (built : construction = .ok result) (settles : (next result).Settles state outcome) :
    (ofFormula construction >>= next : Query α).Settles state outcome := by
  rw [built]
  exact settles

theorem reached_check (reached : state.session.Reached config) :
    (check state).2.session.Reached config :=
  reached.after [.check]

/-- A check is an error only if it is inconclusive, and then no other answer can be given to
formulas that do not choose between truth values, unless the manager is exhausted. -/
theorem settles_isSatisfiable (inUse : state.InUse config alphabet formulas)
    (lawful : config.Lawful) (punctual : config.timeoutPasses = false) :
    isSatisfiable.Settles state fun result after =>
      after.InUse config alphabet formulas ∧ after.session.outer = state.session.outer ∧
        after.session.live = state.session.live ∧
        after.session.status = some (Session.check state.session).1 ∧
        match result with
        | .ok answer => (Session.check state.session).1 = if answer then .sat else .unsat
        | .error error => ∃ cause, error = .solverUnknown cause ∧
            (Session.check state.session).1 = .unknown cause ∧
            ((∀ formula ∈ formulas, formula.choosesTruth = false) → after.session.Roomy →
              Session.answer config formulas = .unknown cause) := by
  intro few
  obtain ⟨answered, sameFormulas⟩ := Session.check_state state.session
  have ending : (isSatisfiable state).2 = (check state).2 := by
    unfold isSatisfiable
    rw [bind_run, check_run]
    dsimp only
    cases (Session.check state.session).1 <;> rfl
  have inUse' : (check state).2.InUse config alphabet formulas :=
    ⟨⟨inUse.serves.within.perform .check (by rintro _ ⟨⟩),
      sameFormulas.trans inUse.serves.formulas_eq⟩, reached_check inUse.reached⟩
  have sameLive := keepsFrames_isSatisfiable.live_eq state
  rw [ending] at sameLive ⊢
  refine ⟨inUse', (Session.nodes_le_check state.session).2, sameLive, answered, ?_⟩
  unfold isSatisfiable
  rw [bind_run, check_run]
  cases status : (Session.check state.session).1 with
  | sat => rfl
  | unsat => rfl
  | unknown cause =>
      refine ⟨cause, rfl, rfl, fun plain roomy => ?_⟩
      rw [← status, ← inUse.serves.formulas_eq]
      rw [← inUse.serves.formulas_eq] at plain
      exact (inUse.reached.check_eq_answer lawful punctual plain roomy).symm

theorem settles_model (serves : state.Serves config alphabet formulas)
    (fewLevels : Encoding.levelTotal config alphabet < 2147483648)
    (sat : state.session.status = some .sat) :
    model.Settles state fun result after =>
      after = state ∧ ∃ model, result = .ok model ∧ config.SolvesPlain formulas model := by
  intro few
  obtain ⟨found, given, solves⟩ := serves.exists_model_of_plain few fewLevels sat
  refine ⟨rfl, found, ?_, solves⟩
  show state.session.model.mapError EngineError.solver = .ok found
  rw [given]
  rfl

/-- A Boolean formula is asserted. -/
theorem settles_add (inUse : state.InUse config alphabet formulas) {formula : Expr}
    (boolean : formula.ty = .bool) (occurs : ∀ symbol ∈ formula.symbols, symbol ∈ alphabet) :
    (add formula).Settles state fun result after =>
      result = .ok () ∧ after.InUse config alphabet (formulas ++ [formula]) ∧
        after.session.outer = state.session.outer := by
  intro _
  have reached : (state.session.after [.add formula]).Reached config :=
    inUse.reached.after [.add formula]
  have performed : state.session.after [.add formula] =
      state.session.asserted false none formula := by
    show (Session.assertAs false none formula state.session).2 = _
    rw [Session.assertAs_run, if_pos boolean]
  rw [performed] at reached
  unfold add Session.add
  rw [assertAs_run, if_pos boolean]
  refine ⟨rfl, ⟨⟨inUse.serves.within.asserted false none boolean occurs, ?_⟩, reached⟩, rfl⟩
  rw [← inUse.serves.formulas_eq]
  exact Session.formulas_asserted ..

/-- The frame of a query holds the same formulas as the session before, and the query ends as in
the frame, if nothing that it ends with is about frames. -/
theorem settles_inFrame {query : Query α} {outcome : Except EngineError α → OpenSession → Prop}
    (evolving : query.Evolving) (inUse : state.InUse config alphabet formulas)
    (settles : ∀ framed : OpenSession, framed.InUse config alphabet formulas →
      framed.session.outer = state.session.innermost :: state.session.outer →
        query.Settles framed outcome)
    (discards : ∀ result (after : OpenSession) outer innermost, outcome result after →
      outcome result { after with
        session := { after.session with outer, innermost, status := none } }) :
    (inFrame query).Settles state outcome := by
  intro few
  have framed : (query { state with session := (Session.push state.session).2 }).2.Few := by
    rw [inFrame_state evolving] at few
    exact few
  have inUse' : OpenSession.InUse { state with session := (Session.push state.session).2 }
      config alphabet formulas :=
    ⟨⟨inUse.serves.within.push, (Session.formulas_push _).trans inUse.serves.formulas_eq⟩,
      inUse.reached.after [.push]⟩
  rw [inFrame_state evolving]
  exact discards _ _ _ _ (settles _ inUse' rfl framed)

end Query

end AbstractionRefinement
