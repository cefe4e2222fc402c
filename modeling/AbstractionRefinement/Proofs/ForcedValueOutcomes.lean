import AbstractionRefinement.Proofs.EnumerationTermination

/-!
# Outcomes of the search for forced values

The search for forced values fails only if its first check is inconclusive: what a model
assigns can be compared with the symbols, and an inconclusive comparison counts as no.
-/

namespace AbstractionRefinement

open AbstractionRefinement.Computation

namespace Query

open OpenSession

variable {config : SolverConfig} {alphabet symbols : List Symbol} {formulas : List Expr}
  {state : OpenSession}

theorem forcedValues_eq (symbols : List Symbol) : forcedValues symbols = (do
    if ← isSatisfiable then
      let model ← model
      symbols.foldlM (collectForced model) .empty
    else return .empty) :=
  rfl

theorem evolving_refutation (symbol : Symbol) (value : Value) : Evolving (do
    add (← ofFormula (Expr.mkNot (symbol.hasValue value)))
    return decide ((← check) = .unsat)) :=
  (evolving_ofFormula _).bind fun formula => (evolving_add formula).bind fun _ =>
    evolving_check.bind fun _ => evolving_pure _

theorem evolving_isForced (symbol : Symbol) (value : Value) : (isForced symbol value).Evolving :=
  evolving_inFrame (evolving_refutation symbol value)

theorem keepsFrames_isForced (symbol : Symbol) (value : Value) :
    (isForced symbol value).KeepsFrames :=
  keepsFrames_inFrame (evolving_refutation symbol value)

theorem evolving_collectForced (model forced : Valuation) (symbol : Symbol) :
    (collectForced model forced symbol).Evolving := by
  unfold collectForced
  split
  · exact evolving_pure _
  · refine (evolving_isForced symbol _).bind fun answer => ?_
    split <;> exact evolving_pure _

theorem keepsFrames_collectForced (model forced : Valuation) (symbol : Symbol) :
    (collectForced model forced symbol).KeepsFrames := by
  unfold collectForced
  split
  · exact keepsFrames_pure _
  · refine (keepsFrames_isForced symbol _).bind fun answer => ?_
    split <;> exact keepsFrames_pure _

theorem evolving_collection (model : Valuation) (symbols : List Symbol) (forced : Valuation) :
    (symbols.foldlM (collectForced model) forced).Evolving := by
  induction symbols generalizing forced with
  | nil => exact evolving_pure forced
  | cons symbol symbols ih =>
      rw [List.foldlM_cons]
      exact (evolving_collectForced model forced symbol).bind ih

theorem keepsFrames_forcedValues (symbols : List Symbol) :
    (forcedValues symbols).KeepsFrames := by
  rw [forcedValues_eq]
  refine keepsFrames_isSatisfiable.bind fun answer => ?_
  split
  · exact keepsFrames_model.bind fun model =>
      keepsFrames_foldlM (keepsFrames_collectForced model) symbols _
  · exact keepsFrames_pure _

/-- From every state the query ends with a result. -/
def Succeeds {α : Type} (query : Query α) : Prop :=
  ∀ state : OpenSession, ∃ result, (query state).1 = .ok result

theorem succeeds_pure {α : Type} (result : α) : Succeeds (pure result : Query α) :=
  fun _ => ⟨result, rfl⟩

theorem Succeeds.bind {α β : Type} {query : Query β} {next : β → Query α}
    (succeeds : query.Succeeds) (continues : ∀ result, (next result).Succeeds) :
    Succeeds (query >>= next) := by
  intro state
  obtain ⟨between, returned⟩ := succeeds state
  rw [bind_run]
  rcases run : query state with ⟨_ | result, after⟩ <;> rw [run] at returned
  · cases returned
  · exact continues result after

theorem succeeds_inFrame {α : Type} {query : Query α} (succeeds : query.Succeeds) :
    (inFrame query).Succeeds :=
  fun _ => succeeds _

theorem succeeds_add {formula : Expr} (boolean : formula.ty = .bool) : (add formula).Succeeds :=
  fun state => ⟨(), by rw [add, Session.add, assertAs_run, if_pos boolean]⟩

theorem succeeds_check : check.Succeeds :=
  fun _ => ⟨_, rfl⟩

/-- A symbol can be compared with every value of its type. -/
theorem succeeds_isForced {symbol : Symbol} {value : Value} (typed : value.HasType symbol.ty) :
    (isForced symbol value).Succeeds := by
  have built : Expr.mkNot (symbol.hasValue value) =
      .ok (.unary .not (symbol.hasValue value) .bool) := by
    rw [Expr.mkNot, Expr.expectType, if_pos (symbol.encodable_hasValue typed).2]
    rfl
  have refutes : Succeeds (do
      add (.unary .not (symbol.hasValue value) .bool)
      return decide ((← check) = .unsat)) :=
    (succeeds_add rfl).bind fun _ => succeeds_check.bind fun _ => succeeds_pure _
  unfold isForced
  rw [built]
  exact succeeds_inFrame refutes

theorem succeeds_collection {model : Valuation}
    (typed : ∀ symbol value, model.get? symbol = some value → value.HasType symbol.ty)
    (symbols : List Symbol) (forced : Valuation) :
    (symbols.foldlM (collectForced model) forced).Succeeds := by
  induction symbols generalizing forced with
  | nil => exact succeeds_pure forced
  | cons symbol symbols ih =>
      rw [List.foldlM_cons]
      refine Succeeds.bind ?_ ih
      unfold collectForced
      split
      case h_1 => exact succeeds_pure _
      case h_2 value found =>
        refine (succeeds_isForced (typed symbol value found)).bind fun answer => ?_
        split <;> exact succeeds_pure _

/-- How a search for forced values ends. -/
inductive Searched (config : SolverConfig) (formulas : List Expr) (state : OpenSession) :
    Except EngineError Valuation → Prop
  | inconclusive {cause : UnknownCause}
      (unknown : (Session.check state.session).1 = .unknown cause) :
      Searched config formulas state (.error (.solverUnknown cause))
  | unsatisfiable (unsat : (Session.check state.session).1 = .unsat) :
      Searched config formulas state (.ok .empty)
  | satisfiable {forced model : Valuation} (solves : config.SolvesPlain formulas model)
      (encoded : ∀ assertion ∈ state.session.live, ∃ edge, assertion.encoded = .ok edge) :
      Searched config formulas state (.ok forced)

/-- A search for forced values returns an empty valuation for unsatisfiable formulas, a
valuation for satisfiable ones, and an error only if its first check is inconclusive. -/
theorem settles_forcedValues (workable : config.Workable)
    (punctual : config.timeoutPasses = false)
    (fewLevels : Encoding.levelTotal config alphabet < 2147483648)
    (inUse : state.InUse config alphabet formulas) :
    (forcedValues symbols).Settles state fun result _ => Searched config formulas state result := by
  rw [forcedValues_eq]
  have rest (answer : Bool) : Evolving (if answer then do
      symbols.foldlM (collectForced (← model)) .empty
      else return .empty) := by
    split
    · exact evolving_model.bind fun model => evolving_collection model symbols .empty
    · exact evolving_pure _
  refine settles_bind rest (fun _ => settles_isSatisfiable inUse workable.lawful punctual)
    evolving_isSatisfiable ?_ ?_
  · rintro _ after ⟨-, -, -, -, cause, rfl, unknown, -⟩
    exact .inconclusive unknown
  · rintro answer after few ⟨inUse', -, sameLive, status, given⟩
    cases answer with
    | false => exact settles_pure (.unsatisfiable given)
    | true =>
        rw [given] at status
        refine settles_bind (fun model => evolving_collection model symbols .empty)
          (fun _ => settles_model inUse'.serves fewLevels status) evolving_model ?_ ?_
        · rintro error _ ⟨-, _, ⟨⟩, -⟩
        · rintro model _ - ⟨rfl, _, ⟨⟩, solves⟩
          intro _
          have typed : ∀ symbol value, model.get? symbol = some value →
              value.HasType symbol.ty := by
            obtain ⟨values, admits, -, assigned⟩ := solves
            intro symbol value found
            obtain ⟨⟨formula, member, occurs⟩, rfl⟩ := (assigned symbol value).mp found
            exact (admits formula member symbol occurs).1
          obtain ⟨forced, returned⟩ := succeeds_collection typed symbols .empty _
          rw [returned]
          refine .satisfiable solves fun assertion member => ?_
          exact inUse'.serves.within.encoded few.nodes_le status assertion
            (sameLive ▸ member)

end Query

end AbstractionRefinement
