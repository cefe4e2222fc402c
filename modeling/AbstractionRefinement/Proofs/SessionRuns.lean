import AbstractionRefinement.Proofs.ArithmeticOverflow
import AbstractionRefinement.Proofs.SessionBudgets

/-!
# Runs of sessions

A session is used by a sequence of calls.  While its diagrams stay small, its encoder is
sound under the lowered node limit after every call: this is an invariant of runs, kept
by each of the calls.  So answers are right for every sequence of calls, and for every
node limit as long as at most `32767` nodes are allocated.
-/

namespace AbstractionRefinement

/-- The values lie in the configured intervals or, with a positive margin, in the widened
ones. -/
def SolverConfig.Considers (config : SolverConfig) (formulas : List Expr)
    (values : Symbol → Value) : Prop :=
  config.AdmitsAll values formulas ∨ 0 < config.margin ∧
    (config.widened (Expr.literalBoundsAll none formulas)).AdmitsAll values formulas

theorem SolverConfig.Considers.not_fulfills {config : SolverConfig} {formulas : List Expr}
    {values : Symbol → Value} (considers : config.Considers formulas values)
    (exact_ : config.Exact) (plain : ∀ formula ∈ formulas, formula.choosesTruth = false)
    (excludes : config.AdmitsAll values formulas → ¬ Fulfills values formulas)
    (confined : Session.escapesRange config formulas false = .ok false) :
    ¬ Fulfills values formulas := by
  rcases considers with admits | ⟨positive, admits⟩
  · exact excludes admits
  · by_cases integer : formulas.any Expr.hasIntSymbol
    · exact Session.not_fulfills_of_escapesRange exact_ (Int.le_of_lt positive) plain confined
        (Int.ne_of_gt positive) integer admits
    · exact excludes (admits.of_any_hasIntSymbol integer rfl)

/-- A call that may change a session.  Asking for a model does not. -/
inductive SessionCall where
  | add (formula : Expr)
  | track (formula : Expr)
  | addTo (marker : Nat) (formula : Expr)
  | push
  | pop
  | check
  | unsatCore
  | createMarker
  | interpolant (markers : List Nat)

namespace SessionCall

/-- The session after the call, whatever the call answers. -/
def perform : SessionCall → Session → Session
  | add formula, session => (Session.add formula session).2
  | track formula, session => (Session.track formula session).2
  | addTo marker formula, session => (Session.addTo marker formula session).2
  | push, session => (Session.push session).2
  | pop, session => (Session.pop session).2
  | check, session => (Session.check session).2
  | unsatCore, session => (Session.unsatCore session).2
  | createMarker, session => (Session.createMarker session).2
  | interpolant markers, session => (Session.interpolant markers session).2

/-- The formula that the call asserts. -/
def formula? : SessionCall → Option Expr
  | add formula | track formula | addTo _ formula => some formula
  | _ => none

/-- What a call may do to a session. -/
inductive Effect (session : Session) : SessionCall → Session → Prop
  | unchanged {call : SessionCall} : Effect session call session
  | asserted {call : SessionCall} {formula : Expr} (asserts : call.formula? = some formula)
      (boolean : formula.ty = .bool) (tracked : Bool) (marker : Option Nat) :
      Effect session call (session.asserted tracked marker formula)
  | pushed : Effect session push (Session.push session).2
  | popped {outer : List (List Assertion)} {innermost : List Assertion}
      (kept : ∀ assertion ∈ outer.reverse.flatten ++ innermost, assertion ∈ session.live) :
      Effect session pop { session with outer, innermost, status := none }
  | answered (unanswered : session.status = none) :
      Effect session check { (Session.decideConjunction session).2 with
        status := some (Session.decideConjunction session).1 }
  | minimized (unsat : session.status = some .unsat) :
      Effect session unsatCore { session with
        encoder := (Session.coreEncoding session.config session.live session.encoder).2 }
  | marked (markers : Nat) : Effect session createMarker { session with markers }
  | interpolated (unsat : session.status = some .unsat) (markers : List Nat)
      (condition : Assertion → Bool) (symbols : List Symbol) :
      Effect session (interpolant markers) { session with
        encoder := (Session.interpolationEncoding (session.live.filter condition) symbols
          session.encoder).2 }

theorem effect_assertAs {session : Session} {call : SessionCall} {formula : Expr}
    (asserts : call.formula? = some formula) (tracked : Bool) (marker : Option Nat) :
    Effect session call (Session.assertAs tracked marker formula session).2 := by
  rw [Session.assertAs_run]
  split
  case isTrue boolean => exact .asserted asserts boolean tracked marker
  case isFalse => exact .unchanged

theorem effect_addTo (session : Session) (marker : Nat) (formula : Expr) :
    Effect session (addTo marker formula) (Session.addTo marker formula session).2 := by
  unfold Session.addTo
  rw [SessionState.bind_run, SessionState.get_run]
  dsimp only
  split
  · exact .unchanged
  · rw [SessionState.bind_run, SessionState.get_run]
    dsimp only
    split
    · exact .unchanged
    · exact effect_assertAs rfl false (some marker)

theorem effect_pop (session : Session) : Effect session pop (Session.pop session).2 := by
  generalize run : Session.pop session = outcome
  unfold Session.pop at run
  rw [SessionState.bind_run, SessionState.get_run] at run
  dsimp only at run
  cases frames : session.outer with
  | nil =>
      rw [frames] at run
      rw [← run]
      exact .unchanged
  | cons frame outer =>
      rw [frames] at run
      rw [← run]
      apply Effect.popped
      intro assertion member
      rw [Session.live, frames, List.reverse_cons, List.flatten_append, List.flatten_singleton]
      exact List.mem_append_left _ member

theorem effect_check (session : Session) : Effect session check (Session.check session).2 := by
  unfold Session.check
  rw [SessionState.bind_run, SessionState.get_run]
  dsimp only
  cases known : session.status with
  | some status => exact .unchanged
  | none => exact .answered known

/-- Every call has one of these effects. -/
theorem effect_perform (call : SessionCall) (session : Session) :
    Effect session call (call.perform session) := by
  cases call with
  | add formula | track formula => exact effect_assertAs rfl _ none
  | addTo marker formula => exact effect_addTo session marker formula
  | push => exact .pushed
  | pop => exact effect_pop session
  | check => exact effect_check session
  | unsatCore =>
      rw [perform, Session.unsatCore_state]
      split
      case isTrue unsat => exact .minimized unsat
      case isFalse => exact .unchanged
  | createMarker =>
      show Effect session createMarker (Session.createMarker session).2
      unfold Session.createMarker
      rw [SessionState.bind_run, SessionState.get_run]
      dsimp only
      split
      · exact .marked _
      · exact .unchanged
  | interpolant markers =>
      rw [perform]
      rcases Session.interpolant_state markers session with same | ⟨unsat, condition, symbols, same⟩
      · rw [same]
        exact .unchanged
      · rw [same]
        exact .interpolated unsat markers condition symbols

end SessionCall

namespace Session

open Encoding

/-- The session after a sequence of calls. -/
def after (session : Session) (calls : List SessionCall) : Session :=
  calls.foldl (fun session call => call.perform session) session

/-- What is known of a session in use.  While it has few nodes, it is sound under a
lowered node limit, and its last answer is right, an unsatisfiable one if no formula chooses
between truth values, and beyond the configured intervals if its confirmation had few nodes,
too. -/
structure SoundWithin (budget : Nat) (config : SolverConfig) (alphabet : List Symbol)
    (session : Session) : Prop where
  config_eq : session.config = config
  punctual : config.timeoutPasses = false
  early : session.encoder.manager.deadlinePassed = false
  boolean : ∀ assertion ∈ session.live, assertion.formula.ty = .bool
  current : ∀ assertion ∈ session.live, ∀ edge, assertion.encoded = .ok edge →
    assertion.formula.hasPrime = false
  sound : session.encoder.manager.nodes.size ≤ budget → (session.capped budget).Sound alphabet
  encoded : session.encoder.manager.nodes.size ≤ budget → session.status = some .sat →
    ∀ assertion ∈ session.live, ∃ edge, assertion.encoded = .ok edge
  refutes : session.encoder.manager.nodes.size ≤ budget → session.status = some .unsat →
    confirmationSize config session.formulas < budget → (config.capped budget).Exact →
      (∀ formula ∈ session.formulas, formula.choosesTruth = false) →
        ∀ values, config.Considers session.formulas values → ¬ Fulfills values session.formulas
  excludes : session.encoder.manager.nodes.size ≤ budget → session.status = some .unsat →
    (config.capped budget).Exact → (∀ formula ∈ session.formulas, formula.choosesTruth = false) →
      ∀ values, config.AdmitsAll values session.formulas → ¬ Fulfills values session.formulas

variable {budget : Nat} {config : SolverConfig} {alphabet : List Symbol} {session : Session}

theorem start_soundWithin (lawful : config.Lawful) (few : budget ≤ 32768)
    (punctual : config.timeoutPasses = false) (theme : SessionTheme) :
    (start config theme).SoundWithin budget config alphabet where
  config_eq := rfl
  punctual := punctual
  early := rfl
  boolean assertion member := by cases member
  current assertion member := by cases member
  sound _ :=
    have lawful' : (config.capped budget).Lawful := lawful
    start_sound lawful' (DiagramManager.distinctKeys_of_le
      (Nat.le_trans (Nat.min_le_right _ _) few)) theme alphabet
  encoded _ answered := by cases answered
  refutes _ answered := by cases answered
  excludes _ answered := by cases answered

namespace SoundWithin

/-- Asserting a formula. -/
theorem asserted (within : session.SoundWithin budget config alphabet) (tracked : Bool)
    (marker : Option Nat) {formula : Expr} (boolean : formula.ty = .bool)
    (occurs : ∀ symbol ∈ formula.symbols, symbol ∈ alphabet) :
    (session.asserted tracked marker formula).SoundWithin budget config alphabet where
  config_eq := within.config_eq
  punctual := within.punctual
  early := ((budgeted_assertionEncoding formula).late_eq session.encoder).trans within.early
  boolean := by
    rw [live_asserted, List.forall_mem_append, List.forall_mem_singleton]
    exact ⟨within.boolean, boolean⟩
  current := by
    rw [live_asserted, List.forall_mem_append, List.forall_mem_singleton]
    refine ⟨within.current, fun edge encoded => ?_⟩
    obtain ⟨_, _, encoded, -⟩ := exists_of_bind encoded
    obtain ⟨_, _, encoded, -⟩ := exists_of_bind encoded
    exact hasPrime_of_encode encoded
  sound few := by
    rw [← asserted_capped tracked marker formula within.early few]
    have fewer := Nat.le_trans
      ((budgeted_assertionEncoding formula).nodes_le session.encoder) few
    exact asserted_sound (within.sound fewer) tracked marker occurs
  encoded _ answered := by cases answered
  refutes _ answered := by cases answered
  excludes _ answered := by cases answered

theorem discard (within : session.SoundWithin budget config alphabet)
    {outer : List (List Assertion)} {innermost : List Assertion}
    (kept : ∀ assertion ∈ outer.reverse.flatten ++ innermost, assertion ∈ session.live) :
    { session with outer, innermost, status := none }.SoundWithin budget config alphabet where
  config_eq := within.config_eq
  punctual := within.punctual
  early := within.early
  boolean assertion member := within.boolean assertion (kept assertion member)
  current assertion member := within.current assertion (kept assertion member)
  sound few := (within.sound few).discard kept
  encoded _ answered := by cases answered
  refutes _ answered := by cases answered
  excludes _ answered := by cases answered

theorem push (within : session.SoundWithin budget config alphabet) :
    (Session.push session).2.SoundWithin budget config alphabet where
  config_eq := within.config_eq
  punctual := within.punctual
  early := within.early
  boolean := by
    rw [live_push]
    exact within.boolean
  current := by
    rw [live_push]
    exact within.current
  sound few := push_sound (within.sound few)
  encoded few answered := by
    rw [live_push]
    exact within.encoded few answered
  refutes few answered := by
    rw [formulas_push]
    exact within.refutes few answered
  excludes few answered := by
    rw [formulas_push]
    exact within.excludes few answered

/-- Encoding more after an unsatisfiable answer. -/
theorem withEncoding {α : Type} (within : session.SoundWithin budget config alphabet)
    (unsat : session.status = some .unsat) {computation : Encoding α}
    (budgeted : Encoding.Budgeted computation)
    (ensures : (session.capped budget).Sound alphabet →
      Ensures alphabet computation (session.encoder.capped budget) fun _ _ => True) :
    { session with encoder := (computation session.encoder).2 }.SoundWithin budget config
      alphabet := by
  have fewer (few : (computation session.encoder).2.manager.nodes.size ≤ budget) :=
    Nat.le_trans (budgeted.nodes_le session.encoder) few
  refine ⟨within.config_eq, within.punctual, (budgeted.late_eq session.encoder).trans within.early,
    within.boolean, within.current, fun few => ?_, fun _ answered => ?_,
    fun few => within.refutes (fewer few), fun few => within.excludes (fewer few)⟩
  · have sound := within.sound (fewer few)
    obtain ⟨wellFormed, grown, -⟩ :=
      budgeted.ensures within.early few (ensures sound) sound.encoder
    refine sound.withEncoder ?_ wellFormed grown
    show (if session.status = some .unsat then none else session.status) ≠ some .sat
    rw [if_pos unsat]
    rintro ⟨⟩
  · rw [show session.status = some .sat from answered] at unsat
    cases unsat

theorem settles (within : session.SoundWithin budget config alphabet)
    (unanswered : session.status = none)
    (few : (settleConjunction session).2.encoder.manager.nodes.size ≤ budget) :
    (session.capped budget).Settles alphabet (settleConjunction session).1
      ((settleConjunction session).2.capped budget) := by
  have punctual : session.config.timeoutPasses = false := by
    rw [within.config_eq, within.punctual]
  have fewer := Nat.le_trans (nodes_le_settleConjunction session) few
  have settles := (within.sound fewer).settleConjunction (status_capped_of_none unanswered)
  unfold SessionState.Ensures at settles
  rwa [settleConjunction_capped punctual few] at settles

/-- A new answer. -/
theorem answered (within : session.SoundWithin budget config alphabet)
    (unanswered : session.status = none) :
    { (decideConjunction session).2 with status := some (decideConjunction session).1 }.SoundWithin
      budget config alphabet := by
  have settles := within.settles unanswered
  obtain ⟨encoder, conjunction, state, early⟩ := settleConjunction_state session
  rw [decideConjunction_run, within.config_eq, within.punctual]
  rw [state] at settles ⊢
  generalize (settleConjunction session).1 = answer at settles ⊢
  dsimp only at settles ⊢
  refine ⟨within.config_eq, within.punctual, early, within.boolean, within.current, fun few => ?_,
    fun few sat => ?_, fun few unsat confirmed exact_ plain values considers => ?_,
    fun few unsat exact_ plain values admits => ?_⟩
  · exact capped_withStatus_sound (settles few).sound unanswered fun sat =>
      ((settles few).satisfiable (eq_sat_of_confirmed sat)).2
  · exact ((settles few).satisfiable (eq_sat_of_confirmed (Option.some.inj sat))).1
  · obtain ⟨unsettled, confined⟩ :=
      eq_none_of_confirmed (settles few).unconfirmed (Option.some.inj unsat)
    have confined : escapesRange (config.capped budget) session.formulas false = .ok false :=
      (escapesRange_capped confirmed).trans confined
    rw [← within.config_eq] at considers exact_ confined
    have considers' : (session.config.capped budget).Considers session.formulas values :=
      considers
    exact considers'.not_fulfills exact_ plain
      ((settles few).excludes unsettled exact_ plain) confined
  · obtain ⟨unsettled, -⟩ :=
      eq_none_of_confirmed (settles few).unconfirmed (Option.some.inj unsat)
    rw [← within.config_eq] at exact_ admits
    exact (settles few).excludes unsettled exact_ plain admits

/-- Every call keeps what is known of a session. -/
theorem perform (within : session.SoundWithin budget config alphabet) (call : SessionCall)
    (occurs : ∀ formula ∈ call.formula?, ∀ symbol ∈ formula.symbols, symbol ∈ alphabet) :
    (call.perform session).SoundWithin budget config alphabet := by
  have effect := call.effect_perform session
  generalize call.perform session = after at effect ⊢
  cases effect with
  | unchanged => exact within
  | asserted asserts boolean tracked marker =>
      exact within.asserted tracked marker boolean (occurs _ asserts)
  | pushed => exact within.push
  | popped kept => exact within.discard kept
  | answered unanswered => exact within.answered unanswered
  | minimized unsat =>
      exact within.withEncoding unsat (budgeted_coreEncoding session.live)
        fun sound => (ensures_coreEncoding sound.decides).mono fun _ _ _ _ _ => trivial
  | marked markers => exact { within with sound := fun few => { within.sound few with } }
  | interpolated unsat markers condition symbols =>
      exact within.withEncoding unsat (budgeted_interpolationEncoding _ symbols)
        fun sound => ensures_interpolationEncoding symbols fun assertion member =>
          sound.decides assertion (List.mem_filter.mp member).1

theorem after (within : session.SoundWithin budget config alphabet) (calls : List SessionCall)
    (occurs : ∀ call ∈ calls, ∀ formula ∈ call.formula?, ∀ symbol ∈ formula.symbols,
      symbol ∈ alphabet) :
    (session.after calls).SoundWithin budget config alphabet := by
  induction calls generalizing session with
  | nil => exact within
  | cons call calls ih =>
      exact ih (within.perform call (occurs call List.mem_cons_self))
        fun call' member => occurs call' (List.mem_cons_of_mem _ member)

end SoundWithin

/-- The configuration lets every check run out of time, and nothing was answered. -/
structure Undecided (config : SolverConfig) (session : Session) : Prop where
  config_eq : session.config = config
  late : config.timeoutPasses = true
  unknown {status : SolverStatus} : session.status = some status → ∃ cause, status = .unknown cause

theorem Undecided.decideConjunction (undecided : session.Undecided config) :
    ∃ cause, (decideConjunction session).1 = .unknown cause := by
  obtain ⟨cause, settled⟩ := settleConjunction_of_timeoutPasses
    (undecided.config_eq ▸ undecided.late : session.config.timeoutPasses = true)
  refine ⟨cause, ?_⟩
  rw [decideConjunction_run, settled]
  rfl

theorem Undecided.of_status (undecided : session.Undecided config) {after : Session}
    (sameConfig : after.config = session.config)
    (kept : after.status = session.status ∨ after.status = none) : after.Undecided config := by
  refine ⟨sameConfig.trans undecided.config_eq, undecided.late, fun {status} answered => ?_⟩
  rcases kept with same | forgotten
  · exact undecided.unknown (same ▸ answered)
  · rw [forgotten] at answered
    cases answered

theorem Undecided.perform (undecided : session.Undecided config) (call : SessionCall) :
    (call.perform session).Undecided config := by
  have effect := call.effect_perform session
  generalize call.perform session = after at effect ⊢
  cases effect with
  | unchanged => exact undecided
  | asserted | popped => exact undecided.of_status rfl (.inr rfl)
  | pushed | minimized | marked | interpolated => exact undecided.of_status rfl (.inl rfl)
  | answered =>
      obtain ⟨encoder, conjunction, state, -⟩ := settleConjunction_state session
      have sameConfig : (Session.decideConjunction session).2.config = session.config := by
        rw [decideConjunction_run, state]
      refine ⟨sameConfig.trans undecided.config_eq, undecided.late, ?_⟩
      rintro status ⟨⟩
      exact undecided.decideConjunction

theorem Undecided.after (undecided : session.Undecided config) (calls : List SessionCall) :
    (session.after calls).Undecided config := by
  induction calls generalizing session with
  | nil => exact undecided
  | cons call calls ih => exact ih (undecided.perform call)

end Session

end AbstractionRefinement
