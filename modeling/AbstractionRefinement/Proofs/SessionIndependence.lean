import AbstractionRefinement.Proofs.EncodingFailures
import AbstractionRefinement.Proofs.ReachedEncoders
import AbstractionRefinement.Proofs.SessionOutlines

/-!
# Independence of sessions

The answer of a check is determined by the configuration and the asserted formulas, whatever
was asserted, discarded, checked and interpolated before.  Formulas that are encoded have a
false diagram exactly if no values of their domains make them true, and which formulas are
encoded depends on nothing else, so levels, nodes and remembered results do not matter.  This
holds while at most `32767` nodes are allocated and the manager is not exhausted.

Once it is exhausted, it stays so, and a session whose assertions changed since then has no
answer any more.
-/

namespace AbstractionRefinement

/-- Some values of the domains of their symbols make all formulas true. -/
def SolverConfig.Satisfiable (config : SolverConfig) (formulas : List Expr) : Prop :=
  ∃ values : Symbol → Value,
    (∀ formula ∈ formulas, ∀ symbol ∈ formula.symbols, config.InDomain symbol (values symbol)) ∧
      Fulfills values formulas

namespace Encoder

variable {encoder : Encoder} {formulas : List Expr} {edge : Edge}

theorem Within.inDomain (wellFormed : encoder.WellFormed) {assignment : Nat → Bool}
    {symbol : Symbol} (within : encoder.Within assignment symbol) :
    ∃ value, encoder.interpret assignment symbol = some value ∧
      encoder.config.InDomain symbol value := by
  obtain ⟨encoded, found, small⟩ := within
  refine ⟨encoded.domain.value (encoded.offset assignment), by rw [interpret, found]; rfl, ?_⟩
  exact ⟨_, _, _, (wellFormed.places found).domain_eq, small, rfl⟩

/-- Where the diagram of formulas is true, the levels of their symbols give values of the
domains that fulfil them. -/
theorem Decides.exists_fulfilling (decides : encoder.Decides formulas edge)
    (wellFormed : encoder.WellFormed)
    (plain : ∀ formula ∈ formulas, formula.choosesTruth = false)
    (unexhausted : encoder.manager.exhaustion = none) {assignment : Nat → Bool}
    (holds : encoder.manager.value assignment edge = true) : ∃ values : Symbol → Value,
      (∀ formula ∈ formulas, ∀ symbol ∈ formula.symbols,
        encoder.interpret assignment symbol = some (values symbol) ∧
          encoder.config.InDomain symbol (values symbol)) ∧
      Fulfills values formulas := by
  have confirms := (decides.means.value unexhausted assignment).confirms holds
  let values (symbol : Symbol) : Value := (encoder.interpret assignment symbol).getD default
  have interpreted : ∀ formula ∈ formulas, ∀ symbol ∈ formula.symbols,
      encoder.interpret assignment symbol = some (values symbol) ∧
        encoder.config.InDomain symbol (values symbol) := by
    intro formula member symbol occurs
    obtain ⟨value, equal, inDomain⟩ := ((confirms formula member).1 symbol occurs).inDomain wellFormed
    have chosen : values symbol = value := by
      show (encoder.interpret assignment symbol).getD default = value
      rw [equal, Option.getD_some]
    rw [chosen]
    exact ⟨equal, inDomain⟩
  refine ⟨values, interpreted, fun formula member => ?_⟩
  rw [← (confirms formula member).2 (plain formula member)]
  exact Expr.truth_congr fun symbol occurs => (interpreted formula member symbol occurs).1.symm

theorem Decides.satisfiable (decides : encoder.Decides formulas edge)
    (wellFormed : encoder.WellFormed)
    (plain : ∀ formula ∈ formulas, formula.choosesTruth = false)
    (unexhausted : encoder.manager.exhaustion = none) {assignment : Nat → Bool}
    (holds : encoder.manager.value assignment edge = true) :
    encoder.config.Satisfiable formulas := by
  obtain ⟨values, interpreted, fulfills⟩ :=
    decides.exists_fulfilling wellFormed plain unexhausted holds
  exact ⟨values, fun formula member symbol occurs => (interpreted formula member symbol occurs).2,
    fulfills⟩

/-- At the bits of values that satisfy formulas, their diagram is true. -/
theorem Decides.exists_true (decides : encoder.Decides formulas edge)
    (wellFormed : encoder.WellFormed)
    (plain : ∀ formula ∈ formulas, formula.choosesTruth = false)
    (unexhausted : encoder.manager.exhaustion = none)
    (satisfiable : encoder.config.Satisfiable formulas) :
    ∃ assignment, encoder.manager.value assignment edge = true := by
  obtain ⟨values, inDomain, fulfills⟩ := satisfiable
  obtain ⟨bits, represented⟩ := exists_represents wellFormed fun symbol => some (values symbol)
  refine ⟨bits, (decides.means.value unexhausted bits).holds plain fun formula member => ?_⟩
  have represents (symbol : Symbol) (occurs : symbol ∈ formula.symbols) :=
    represented symbol (decides.enumerable member symbol occurs).knows
      ⟨_, rfl, inDomain formula member symbol occurs⟩
  refine ⟨fun symbol occurs => (represents symbol occurs).1, fun _ => ?_⟩
  rw [Expr.truth_congr fun symbol occurs => (represents symbol occurs).2]
  exact fulfills formula member

/-- Formulas have a false diagram exactly if they are unsatisfiable. -/
theorem Decides.isZero_iff (decides : encoder.Decides formulas edge)
    (wellFormed : encoder.WellFormed)
    (plain : ∀ formula ∈ formulas, formula.choosesTruth = false)
    (unexhausted : encoder.manager.exhaustion = none) :
    edge.isZero = true ↔ ¬ encoder.config.Satisfiable formulas := by
  have zero_iff : edge.isZero = true ↔ edge = .zero := by simp [Edge.isZero]
  rw [zero_iff]
  constructor
  · rintro rfl satisfiable
    obtain ⟨assignment, holds⟩ := decides.exists_true wellFormed plain unexhausted satisfiable
    rw [DiagramManager.value_zero] at holds
    cases holds
  · intro unsatisfiable
    have ordered := wellFormed.diagrams.toOrdered
    refine ordered.eq_of_value_eq decides.means.owns (DiagramManager.owns_zero ordered)
      fun assignment => ?_
    rw [DiagramManager.value_zero, Bool.eq_false_iff]
    exact fun holds => unsatisfiable (decides.satisfiable wellFormed plain unexhausted holds)

end Encoder

namespace Session

open DiagramManager (keyBudget)
open Encoding

variable {config : SolverConfig} {alphabet : List Symbol} {session : Session}

noncomputable def answer (config : SolverConfig) (formulas : List Expr) : SolverStatus :=
  open Classical in
  match formulas.findSome? (Encoder.assertionFailure config) with
  | some cause => .unknown cause
  | none => if config.Satisfiable formulas then .sat else confirmUnsat config formulas false

/-- The manager is not exhausted and holds few nodes. -/
structure Roomy (session : Session) : Prop where
  unexhausted : session.encoder.manager.exhaustion = none
  few : session.encoder.manager.size ≤ 32767

theorem Roomy.before {α : Type} {computation : Encoding α}
    (roomy : Roomy { session with encoder := (computation session.encoder).2 })
    (budgeted : Encoding.Budgeted computation) : session.Roomy where
  unexhausted := budgeted.unexhausted roomy.unexhausted
  few := Nat.le_trans (Nat.sub_le_sub_right (budgeted.nodes_le session.encoder) 1) roomy.few

/-- While a session has room, its assertions fail by their formulas alone, and if none chooses
between truth values, so is it answered. -/
structure Determined (config : SolverConfig) (session : Session) : Prop where
  failure_eq : session.Roomy → ∀ assertion ∈ session.live,
    failure? assertion.encoded = Encoder.assertionFailure config assertion.formula
  status_eq {status : SolverStatus} : session.Roomy →
    (∀ formula ∈ session.formulas, formula.choosesTruth = false) →
      session.status = some status → status = answer config session.formulas

theorem start_determined (theme : SessionTheme) : (start config theme).Determined config where
  failure_eq _ assertion member := by cases member
  status_eq _ _ answered := by cases answered

section Steps

variable (within : session.SoundWithin keyBudget config alphabet)
include within

/-- A small session has encoded its symbols over the configured domains. -/
theorem SoundWithin.hasDomains (few : session.encoder.manager.size ≤ 32767) :
    session.encoder.HasDomains config := by
  have sound := within.sound (Encoder.nodes_le_keyBudget few)
  have sameConfig : session.encoder.config.capped keyBudget = config.capped keyBudget := by
    rw [← within.config_eq]
    exact sound.config_eq
  have sameLimit := congrArg SolverConfig.maxAtomAssignments sameConfig
  have sameDomains (symbol : Symbol) :
      Encoder.domainOf session.encoder.config symbol = Encoder.domainOf config symbol := by
    have same := congrArg (Encoder.domainOf · symbol) sameConfig
    exact same
  exact ⟨sameLimit, sameDomains, fun {symbol encoded} found =>
    (sameDomains symbol).symm.trans (sound.encoder.places found).domain_eq⟩

/-- The conjunction of a small session is false exactly if its formulas are unsatisfiable. -/
theorem SoundWithin.isZero_conjoin {edge : Edge}
    (plain : ∀ formula ∈ session.formulas, formula.choosesTruth = false)
    (roomy : Roomy { session with encoder := (conjoin session.live session.encoder).2 })
    (conjoined : (conjoin session.live session.encoder).1 = .ok edge) :
    edge.isZero = true ↔ ¬ config.Satisfiable session.formulas := by
  have budgeted := budgeted_conjoin session.live
  have sound := within.sound (Encoder.nodes_le_keyBudget (roomy.before budgeted).few)
  have conjoins : Ensures alphabet (conjoin session.live) (session.encoder.capped keyBudget) _ :=
    ensures_conjoin sound.decides
  obtain ⟨wellFormed, grown, returned⟩ := budgeted.ensures within.early
    (Encoder.nodes_le_keyBudget roomy.few) conjoins sound.encoder
  obtain ⟨-, unexhausted, decides⟩ := returned edge conjoined
  have sameConfig := grown.config_eq.trans sound.config_eq
  rw [show (session.capped keyBudget).config = config.capped keyBudget from
    congrArg (SolverConfig.capped keyBudget) within.config_eq] at sameConfig
  have zero_iff := decides.isZero_iff wellFormed plain unexhausted
  rwa [sameConfig] at zero_iff

def settledBy (conjoined : Except UnknownCause Edge) : Option SolverStatus :=
  match conjoined with
  | .ok edge => if edge.isZero then none else some .sat
  | .error cause => some (.unknown cause)

omit within in
/-- Unless the manager is exhausted, the conjunction of the assertions settles the answer. -/
theorem settleConjunction_of_unexhausted (has : session.afterConjoin.encoder.HasDomains config)
    (unexhausted : (settleConjunction session).2.encoder.manager.exhaustion = none) :
    (settleConjunction session).1 = settledBy
        (conjoin session.live (session.encoder.timed session.config.timeoutPasses)).1 ∧
      session.afterConjoin.encoder.manager.exhaustion = none := by
  have concluded (answer : Option SolverStatus) (conjunction : Edge)
      (unexhausted : (conclude answer
        { session.afterConjoin with conjunction }).2.encoder.manager.exhaustion = none) :
      (conclude answer { session.afterConjoin with conjunction }).1 = answer ∧
        session.afterConjoin.encoder.manager.exhaustion = none := by
    obtain ⟨-, -, refused⟩ := fails_checkExhausted session.afterConjoin.encoder has
    obtain ⟨before, passed⟩ := refused unexhausted
    obtain ⟨_, passed⟩ := exists_of_failure?_eq_none passed
    refine ⟨?_, before⟩
    show unlessExhausted answer (Encoder.checkExhausted session.afterConjoin.encoder).1 = answer
    rw [passed]
    rfl
  rw [settleConjunction_run] at unexhausted ⊢
  cases conjoined : (conjoin session.live
      (session.encoder.timed session.config.timeoutPasses)).1 with
  | error cause =>
      rw [conjoined] at unexhausted
      exact concluded _ session.conjunction unexhausted
  | ok edge =>
      rw [conjoined] at unexhausted
      exact concluded _ edge unexhausted

/-- The conjunction of the assertions settles the answer of a session that has room after
it. -/
theorem SoundWithin.settleConjunction_eq (roomy : (settleConjunction session).2.Roomy) :
    (settleConjunction session).1 = settledBy (conjoin session.live session.encoder).1 ∧
      Roomy { session with encoder := (conjoin session.live session.encoder).2 } := by
  have punctual : session.config.timeoutPasses = false := by
    rw [within.config_eq, within.punctual]
  have untimed : session.encoder.timed session.config.timeoutPasses = session.encoder := by
    rw [punctual, ← within.early]
    rfl
  have conjoins : session.afterConjoin =
      { session with encoder := (conjoin session.live session.encoder).2 } := by
    rw [afterConjoin, untimed]
  have fewer := Nat.le_trans
    (Nat.sub_le_sub_right (nodes_le_settleConjunction session) 1) roomy.few
  have has := (fails_conjoin session.live session.encoder (within.hasDomains fewer)).1
  obtain ⟨settled, between⟩ :=
    settleConjunction_of_unexhausted (by rw [conjoins]; exact has) roomy.unexhausted
  rw [untimed] at settled
  rw [← conjoins]
  refine ⟨settled, between, Nat.le_trans (Nat.sub_le_sub_right ?_ 1) roomy.few⟩
  rw [settleConjunction_run]
  exact nodes_le_concludeConjunction _ session.afterConjoin

/-- A new answer is that of the formulas. -/
theorem SoundWithin.decideConjunction_eq (determined : session.Determined config)
    (plain : ∀ formula ∈ session.formulas, formula.choosesTruth = false)
    (roomy : (settleConjunction session).2.Roomy) :
    (decideConjunction session).1 = answer config session.formulas := by
  obtain ⟨settled, roomy⟩ := within.settleConjunction_eq roomy
  have before := roomy.before (budgeted_conjoin session.live)
  have failures : session.live.findSome? (fun assertion => failure? assertion.encoded) =
      session.formulas.findSome? (Encoder.assertionFailure config) := by
    rw [formulas, List.findSome?_map]
    exact findSome?_congr (determined.failure_eq before)
  have failed := ((fails_conjoin session.live session.encoder
    (within.hasDomains before.few)).2.2 roomy.unexhausted).2
  rw [failures] at failed
  rw [decideConjunction_run, settled, within.config_eq, within.punctual, answer]
  cases refusal : session.formulas.findSome? (Encoder.assertionFailure config) with
  | some cause =>
      rw [refusal] at failed
      rw [eq_error_of_failure? failed]
      rfl
  | none =>
      rw [refusal] at failed
      obtain ⟨edge, conjoined⟩ := exists_of_failure?_eq_none failed
      have isZero := within.isZero_conjoin plain roomy conjoined
      rw [conjoined, settledBy]
      by_cases satisfiable : config.Satisfiable session.formulas
      · rw [if_neg fun zero => isZero.mp zero satisfiable]
        exact (if_pos satisfiable).symm
      · rw [if_pos (isZero.mpr satisfiable)]
        exact (if_neg satisfiable).symm

theorem SoundWithin.failure_assertionEncoding {formula : Expr}
    (roomy : Roomy { session with encoder := (assertionEncoding formula session.encoder).2 }) :
    failure? (assertionEncoding formula session.encoder).1 =
      Encoder.assertionFailure config formula := by
  have before := roomy.before (budgeted_assertionEncoding formula)
  exact ((fails_assertionEncoding formula session.encoder (within.hasDomains before.few)).2.2
    roomy.unexhausted).2

/-- Every call keeps a session determined. -/
theorem Determined.perform (determined : session.Determined config) (call : SessionCall) :
    (call.perform session).Determined config := by
  have effect := call.effect_perform session
  generalize call.perform session = after at effect ⊢
  -- An encoding after an unsatisfiable answer keeps the answer and the assertions.
  have encoded {α : Type} {computation : Encoding α} (budgeted : Encoding.Budgeted computation) :
      Determined config { session with encoder := (computation session.encoder).2 } :=
    ⟨fun roomy => determined.failure_eq (roomy.before budgeted),
      fun roomy => determined.status_eq (roomy.before budgeted)⟩
  cases effect with
  | unchanged => exact determined
  | @asserted _ formula asserts boolean tracked marker =>
      refine ⟨fun roomy => ?_, by rintro _ _ _ ⟨⟩⟩
      have roomy : Roomy
          { session with encoder := (assertionEncoding formula session.encoder).2 } :=
        ⟨roomy.unexhausted, roomy.few⟩
      rw [live_asserted, List.forall_mem_append, List.forall_mem_singleton]
      exact ⟨determined.failure_eq (roomy.before (budgeted_assertionEncoding formula)),
        within.failure_assertionEncoding roomy⟩
  | pushed =>
      refine ⟨fun roomy => ?_, fun roomy => ?_⟩
      · rw [live_push]
        exact determined.failure_eq ⟨roomy.unexhausted, roomy.few⟩
      · rw [formulas_push]
        exact determined.status_eq ⟨roomy.unexhausted, roomy.few⟩
  | popped kept =>
      exact ⟨fun roomy assertion member => determined.failure_eq ⟨roomy.unexhausted, roomy.few⟩
        assertion (kept assertion member), by rintro _ _ _ ⟨⟩⟩
  | answered =>
      obtain ⟨encoder, conjunction, state, -⟩ := settleConjunction_state session
      have settled : (decideConjunction session).2 = { session with encoder, conjunction } := by
        rw [decideConjunction_run, state]
      have roomyAfter {status : Option SolverStatus}
          (roomy : Roomy { (decideConjunction session).2 with status }) :
          (settleConjunction session).2.Roomy := by
        rw [decideConjunction_run] at roomy
        exact ⟨roomy.unexhausted, roomy.few⟩
      refine ⟨fun roomy => ?_, fun roomy => ?_⟩
      · have before := (within.settleConjunction_eq (roomyAfter roomy)).2.before
          (budgeted_conjoin session.live)
        rw [settled]
        exact determined.failure_eq before
      · have answered := within.decideConjunction_eq determined
        rw [settled]
        rintro plain ⟨⟩
        exact answered plain (roomyAfter roomy)
  | minimized => exact encoded (budgeted_coreEncoding session.live)
  | marked => exact ⟨fun roomy => determined.failure_eq ⟨roomy.unexhausted, roomy.few⟩,
      fun roomy => determined.status_eq ⟨roomy.unexhausted, roomy.few⟩⟩
  | interpolated => exact encoded (budgeted_interpolationEncoding _ _)

end Steps

theorem Determined.after (determined : session.Determined config)
    (within : session.SoundWithin keyBudget config alphabet) (calls : List SessionCall)
    (occurs : ∀ call ∈ calls, ∀ formula ∈ call.formula?, ∀ symbol ∈ formula.symbols,
      symbol ∈ alphabet) : (session.after calls).Determined config := by
  induction calls generalizing session with
  | nil => exact determined
  | cons call calls ih =>
      exact ih (determined.perform within call)
        (within.perform call (occurs call List.mem_cons_self))
        fun call' member => occurs call' (List.mem_cons_of_mem _ member)

/-- The session arises from a new one by calls. -/
def Reached (config : SolverConfig) (session : Session) : Prop :=
  ∃ theme calls, session = (start config theme).after calls

theorem Reached.after (reached : session.Reached config) (calls : List SessionCall) :
    (session.after calls).Reached config := by
  obtain ⟨theme, before, rfl⟩ := reached
  exact ⟨theme, before ++ calls, List.foldl_append.symm⟩

/-- What is known of a session in use holds of a reached one, and it is determined. -/
theorem Reached.soundWithin (reached : session.Reached config) (lawful : config.Lawful)
    (punctual : config.timeoutPasses = false) :
    ∃ alphabet, session.SoundWithin keyBudget config alphabet ∧ session.Determined config := by
  obtain ⟨theme, calls, rfl⟩ := reached
  have within : (start config theme).SoundWithin keyBudget config (assertedSymbols calls) :=
    start_soundWithin lawful (Nat.le_refl _) punctual theme
  have occurs : ∀ call ∈ calls, ∀ formula ∈ call.formula?, ∀ symbol ∈ formula.symbols,
      symbol ∈ assertedSymbols calls :=
    fun call member formula asserts symbol => mem_assertedSymbols member asserts
  exact ⟨_, within.after calls occurs, (start_determined theme).after within calls occurs⟩

theorem Reached.check_eq_answer (reached : session.Reached config) (lawful : config.Lawful)
    (punctual : config.timeoutPasses = false)
    (plain : ∀ formula ∈ session.formulas, formula.choosesTruth = false)
    (roomy : (check session).2.Roomy) : (check session).1 = answer config session.formulas := by
  obtain ⟨answered, sameFormulas⟩ := check_state session
  rw [← sameFormulas] at plain ⊢
  obtain ⟨_, within, determined⟩ := reached.soundWithin lawful punctual
  exact (determined.perform within .check).status_eq roomy plain answered

theorem Reached.check_congr {session' : Session} (reached : session.Reached config)
    (reached' : session'.Reached config) (lawful : config.Lawful)
    (punctual : config.timeoutPasses = false) (same : session.formulas = session'.formulas)
    (plain : ∀ formula ∈ session.formulas, formula.choosesTruth = false)
    (roomy : (check session).2.Roomy) (roomy' : (check session').2.Roomy) :
    (check session).1 = (check session').1 := by
  rw [reached.check_eq_answer lawful punctual plain roomy, same,
    reached'.check_eq_answer lawful punctual (by rwa [← same]) roomy']

/-- The manager is exhausted, and nothing was answered since the assertions changed. -/
structure Spent (session : Session) : Prop where
  exhausted : session.encoder.manager.exhaustion.isSome = true
  unknown {status : SolverStatus} : session.status = some status → ∃ cause, status = .unknown cause

theorem exhausted_afterConjoin (exhausted : session.encoder.manager.exhaustion.isSome = true) :
    session.afterConjoin.encoder.manager.exhaustion.isSome = true := by
  have timed : (session.encoder.timed session.config.timeoutPasses).manager.exhaustion.isSome =
      true := exhausted
  exact (budgeted_conjoin session.live).exhausted timed

theorem exhausted_settleConjunction
    (exhausted : session.encoder.manager.exhaustion.isSome = true) :
    (settleConjunction session).2.encoder.manager.exhaustion.isSome = true := by
  have conjoined := exhausted_afterConjoin exhausted
  rw [settleConjunction_run]
  cases (conjoin session.live (session.encoder.timed session.config.timeoutPasses)).1 with
  | error cause => exact budgeted_checkExhausted.exhausted conjoined
  | ok edge => exact budgeted_checkExhausted.exhausted conjoined

theorem decideConjunction_of_exhausted
    (exhausted : session.encoder.manager.exhaustion.isSome = true) :
    ∃ cause, (decideConjunction session).1 = .unknown cause := by
  have noticed : session.afterConjoin.encoder.manager.noticeDeadline.exhaustion.isSome = true :=
    DiagramManager.budgeted_noticeDeadline.lasts (exhausted_afterConjoin exhausted)
  obtain ⟨cause, settled⟩ := settleConjunction_of_refused
    (checkExhausted_of_exhausted (Option.isSome_iff_ne_none.mp noticed))
  refine ⟨cause, ?_⟩
  rw [decideConjunction_run, settled]
  rfl

theorem exhausted_perform (call : SessionCall)
    (exhausted : session.encoder.manager.exhaustion.isSome = true) :
    (call.perform session).encoder.manager.exhaustion.isSome = true := by
  have effect := call.effect_perform session
  generalize call.perform session = after at effect ⊢
  cases effect with
  | unchanged | pushed | popped | marked => exact exhausted
  | asserted => exact (budgeted_assertionEncoding _).exhausted exhausted
  | answered =>
      show (decideConjunction session).2.encoder.manager.exhaustion.isSome = true
      rw [decideConjunction_run]
      exact exhausted_settleConjunction exhausted
  | minimized => exact (budgeted_coreEncoding session.live).exhausted exhausted
  | interpolated => exact (budgeted_interpolationEncoding _ _).exhausted exhausted

theorem Spent.perform (spent : session.Spent) (call : SessionCall) :
    (call.perform session).Spent := by
  refine ⟨exhausted_perform call spent.exhausted, fun {status} => ?_⟩
  have effect := call.effect_perform session
  generalize call.perform session = after at effect ⊢
  cases effect with
  | unchanged | pushed | marked | minimized | interpolated => exact spent.unknown
  | asserted | popped => rintro ⟨⟩
  | answered =>
      rintro ⟨⟩
      exact decideConjunction_of_exhausted spent.exhausted

theorem Spent.after (spent : session.Spent) (calls : List SessionCall) :
    (session.after calls).Spent := by
  induction calls generalizing session with
  | nil => exact spent
  | cons call calls ih => exact ih (spent.perform call)

theorem Spent.check (spent : session.Spent) :
    ∃ cause, (Session.check session).1 = .unknown cause :=
  (spent.perform .check).unknown (check_state session).1

theorem status_of_live_ne {call : SessionCall} (changes : (call.perform session).live ≠ session.live) :
    (call.perform session).status = none := by
  have effect := call.effect_perform session
  generalize call.perform session = after at effect changes ⊢
  cases effect with
  | asserted | popped => rfl
  | unchanged | marked | minimized | interpolated => exact absurd rfl changes
  | pushed => exact absurd (live_push session) changes
  | answered =>
      obtain ⟨encoder, conjunction, state, -⟩ := settleConjunction_state session
      refine absurd ?_ changes
      rw [decideConjunction_run, state]
      rfl

theorem check_of_exhausted (exhausted : session.encoder.manager.exhaustion ≠ none)
    {call : SessionCall} (changes : (call.perform session).live ≠ session.live)
    (later : List SessionCall) :
    ∃ cause, (check ((call.perform session).after later)).1 = .unknown cause := by
  have spent : (call.perform session).Spent := by
    refine ⟨exhausted_perform call (Option.isSome_iff_ne_none.mpr exhausted), ?_⟩
    rw [status_of_live_ne changes]
    rintro _ ⟨⟩
  exact (spent.after later).check

def crampedConfig : SolverConfig :=
  { narrowConfig with nodeLimit := 5 }

def plainSession : Session :=
  (start crampedConfig .plain).after [.add (amountIs 1)]

def partitionedSession : Session :=
  (start crampedConfig .forInterpolation).after [.createMarker, .addTo 0 (amountIs 1)]

def contradiction : List SessionCall :=
  [.track (amountIs 0), .check, .unsatCore]

def overfullSession : Session :=
  (start crampedConfig .plain).after [.add (amountIs 1), .add (amountIs 0), .add (amountIs 2)]

def firstFlag : Expr :=
  .sym ⟨⟨"a", .bool⟩, none⟩

def secondFlag : Expr :=
  .sym ⟨⟨"b", .bool⟩, none⟩

/-- Only the second variable is true, where the choice between the first variable and the
disjunction by the second one is false. -/
def flagChoice : Expr :=
  .nary .and [.unary .not (.ternary .ite secondFlag firstFlag
    (.nary .or [firstFlag, secondFlag] .bool) .bool) .bool, secondFlag,
    .unary .not firstFlag .bool] .bool

end Session

end AbstractionRefinement
