import AbstractionRefinement.SolverSessions
import AbstractionRefinement.Proofs.ConjunctionEncoding
import AbstractionRefinement.Proofs.SatisfyingPaths

/-!
# Verdicts of sessions

The diagrams of a session's assertions describe the asserted formulas at any time.
So after an unsatisfiable answer no admitted values make all assertions true, neither
over the configured intervals nor over the widened ones, and after a satisfiable
answer the model consists of admitted values that do.
-/

namespace AbstractionRefinement

theorem OrderedMap.find?_map {κ β γ : Type} [Ord κ] (key : κ) (change : β → γ)
    (entries : List (κ × β)) :
    OrderedMap.find? key (entries.map fun (other, value) => (other, change value)) =
      (OrderedMap.find? key entries).map change := by
  induction entries with
  | nil => rfl
  | cons entry entries ih =>
      rw [List.map_cons, OrderedMap.find?, OrderedMap.find?]
      split <;> simp_all

namespace SolverConfig

variable {config : SolverConfig} {formulas : List Expr}

theorem rangeOf_widened (literals : Option (Int × Int)) (name : String) :
    (config.widened literals).rangeOf name =
      widenRange config.margin literals (config.rangeOf name) := by
  unfold rangeOf widened
  simp only [OrderedMap.find?_map]
  cases OrderedMap.find? name config.ranges <;> rfl

theorem Lawful.widened (lawful : config.Lawful) (positive : 0 ≤ config.margin)
    (literals : Option (Int × Int)) : (config.widened literals).Lawful := by
  intro name
  obtain ⟨fitsLow, fitsHigh, ordered⟩ := lawful name
  rw [rangeOf_widened]
  unfold widenRange saturateInt64
  unfold FitsInt64 minInt64 maxInt64 at *
  cases literals <;> dsimp only <;> omega

theorem Exact.widened (exact_ : config.Exact) (positive : 0 ≤ config.margin)
    (literals : Option (Int × Int)) : (config.widened literals).Exact :=
  ⟨exact_.lawful.widened positive literals, exact_.countable, exact_.distinct⟩

theorem AdmitsAll.of_any_hasIntSymbol {config' : SolverConfig} {values : Symbol → Value}
    (admits : config.AdmitsAll values formulas) (none : ¬ formulas.any Expr.hasIntSymbol)
    (sameWidth : config'.maxBitVecWidth = config.maxBitVecWidth) :
    config'.AdmitsAll values formulas := by
  intro formula member symbol occurs
  obtain ⟨typed, -, inVector⟩ := admits formula member symbol occurs
  refine ⟨typed, fun number isNumber => ?_, sameWidth ▸ inVector⟩
  rw [isNumber] at typed
  refine absurd (List.any_eq_true.mpr ⟨formula, member, List.any_eq_true.mpr
    ⟨symbol, occurs, ?_⟩⟩) none
  rw [decide_eq_true_iff]
  exact typed.ty_eq.symm

/-- No admitted values make all formulas true, and if the configured intervals are not
trusted, no values of the widened intervals do. -/
structure Refutes (config : SolverConfig) (formulas : List Expr) : Prop where
  configured {values : Symbol → Value} : config.AdmitsAll values formulas →
    ¬ Fulfills values formulas
  widened {values : Symbol → Value} : config.margin ≠ 0 → formulas.any Expr.hasIntSymbol →
    (config.widened (Expr.literalBoundsAll none formulas)).AdmitsAll values formulas →
      ¬ Fulfills values formulas

/-- The settings and the formulas are such that the diagrams of the formulas are exact. -/
structure Captures (config : SolverConfig) (formulas : List Expr) : Prop where
  exact : config.Exact
  margin_nonneg : 0 ≤ config.margin
  encodable : ∀ formula ∈ formulas, formula.Encodable

end SolverConfig

namespace Session

variable {alphabet : List Symbol} {session : Session}

/-- The diagrams of the session describe its assertions, and so does the last answer,
an unsatisfiable one if the diagrams are exact. -/
structure Sound (session : Session) (alphabet : List Symbol) : Prop where
  lawful : session.config.Lawful
  encoder : session.encoder.WellFormed
  usesOnly : session.encoder.UsesOnly alphabet
  config_eq : session.encoder.config = session.config
  occurs : ∀ formula ∈ session.formulas, ∀ symbol ∈ formula.symbols, symbol ∈ alphabet
  decides : ∀ assertion ∈ session.live, ∀ edge, assertion.encoded = .ok edge →
    session.encoder.Decides [assertion.formula] edge
  satisfiable : session.status = some .sat →
    session.encoder.manager.exhaustion = none ∧ session.conjunction ≠ .zero ∧
      session.encoder.Decides session.formulas session.conjunction
  unsatisfiable : session.status = some .unsat →
    session.config.Captures session.formulas → session.config.Refutes session.formulas

theorem start_sound {config : SolverConfig} (lawful : config.Lawful)
    (distinct : DiagramManager.DistinctKeys config.nodeLimit) (theme : SessionTheme)
    (alphabet : List Symbol) : (start config theme).Sound alphabet where
  lawful := lawful
  encoder := Encoder.wellFormed_new distinct
  usesOnly := Nat.le_add_right 1 _
  config_eq := rfl
  occurs formula member := by cases member
  decides assertion member := by cases member
  satisfiable answered := by cases answered
  unsatisfiable answered := by cases answered

theorem Sound.withEncoder (sound : session.Sound alphabet)
    (unanswered : session.status ≠ some .sat) {encoder : Encoder}
    (wellFormed : encoder.WellFormed) (grown : session.encoder.Extends alphabet encoder) :
    { session with encoder }.Sound alphabet :=
  { sound with
    encoder := wellFormed
    usesOnly := grown.usesOnly sound.usesOnly
    config_eq := grown.config_eq.trans sound.config_eq
    decides := fun assertion member edge encoded =>
      (sound.decides assertion member edge encoded).grow sound.encoder grown
    satisfiable := fun answered => absurd answered unanswered }

def assertionEncoding (formula : Expr) : Encoding Edge := do
  let edge ← Encoder.encodeValid formula
  Encoder.checkExhausted
  return edge

def asserted (session : Session) (tracked : Bool) (marker : Option Nat) (formula : Expr) :
    Session :=
  { session with
    encoder := (assertionEncoding formula session.encoder).2
    status := none
    innermost := session.innermost ++
      [⟨formula, (assertionEncoding formula session.encoder).1, tracked, marker⟩] }

theorem assertAs_run (session : Session) (tracked : Bool) (marker : Option Nat)
    (formula : Expr) : assertAs tracked marker formula session =
      if formula.ty = .bool then (.ok (), session.asserted tracked marker formula)
      else (.error (.formula (.typeMismatch "assert" Ty.bool.display formula.ty)), session) := by
  unfold assertAs
  split <;> rfl

theorem live_asserted (session : Session) (tracked : Bool) (marker : Option Nat)
    (formula : Expr) : (session.asserted tracked marker formula).live =
      session.live ++
        [⟨formula, (assertionEncoding formula session.encoder).1, tracked, marker⟩] := by
  simp [asserted, live]

theorem formulas_asserted (session : Session) (tracked : Bool) (marker : Option Nat)
    (formula : Expr) :
    (session.asserted tracked marker formula).formulas = session.formulas ++ [formula] := by
  rw [formulas, live_asserted, List.map_append]
  rfl

theorem ensures_assertionEncoding {encoder : Encoder} {formula : Expr}
    (occurs : ∀ symbol ∈ formula.symbols, symbol ∈ alphabet) :
    Encoding.Ensures alphabet (assertionEncoding formula) encoder fun edge after =>
      after.Decides [formula] edge := by
  refine (Encoding.ensures_encodeValid occurs).bind ?_
  intro edge middle _ wellFormed decides
  refine Encoding.ensures_checkExhausted.bind ?_
  intro _ after grown _ _
  exact Encoding.ensures_pure fun _ => decides.grow wellFormed grown

theorem asserted_sound (sound : session.Sound alphabet) (tracked : Bool) (marker : Option Nat)
    {formula : Expr} (occurs : ∀ symbol ∈ formula.symbols, symbol ∈ alphabet) :
    (session.asserted tracked marker formula).Sound alphabet := by
  obtain ⟨wellFormed, grown, decides⟩ := ensures_assertionEncoding occurs sound.encoder
  refine ⟨sound.lawful, wellFormed, grown.usesOnly sound.usesOnly,
    grown.config_eq.trans sound.config_eq, ?_, ?_, by rintro ⟨⟩, by rintro ⟨⟩⟩
  · rw [formulas_asserted]
    simpa only [List.forall_mem_append, List.forall_mem_singleton] using
      And.intro sound.occurs occurs
  · rw [live_asserted, List.forall_mem_append, List.forall_mem_singleton]
    refine ⟨fun assertion member edge encoded =>
      (sound.decides assertion member edge encoded).grow sound.encoder grown, ?_⟩
    exact fun edge encoded => decides edge encoded

theorem live_push (session : Session) : (push session).2.live = session.live := by
  show (session.innermost :: session.outer).reverse.flatten ++ [] = _
  simp [live]

theorem formulas_push (session : Session) : (push session).2.formulas = session.formulas := by
  rw [formulas, live_push, formulas]

theorem push_sound (sound : session.Sound alphabet) : (push session).2.Sound alphabet := by
  refine ⟨sound.lawful, sound.encoder, sound.usesOnly, sound.config_eq,
    ?_, ?_, ?_, ?_⟩
  · rw [formulas_push]
    exact sound.occurs
  · rw [live_push]
    exact sound.decides
  · rw [formulas_push]
    exact sound.satisfiable
  · rw [formulas_push]
    exact sound.unsatisfiable

theorem Sound.discard (sound : session.Sound alphabet) {outer : List (List Assertion)}
    {innermost : List Assertion}
    (kept : ∀ assertion ∈ outer.reverse.flatten ++ innermost, assertion ∈ session.live) :
    { session with outer, innermost, status := none }.Sound alphabet :=
  have formulas {formula : Expr} (member : formula ∈
      { session with outer, innermost, status := none }.formulas) :
      formula ∈ session.formulas := by
    obtain ⟨assertion, listed, rfl⟩ := List.mem_map.mp member
    exact List.mem_map_of_mem (kept assertion listed)
  { sound with
    occurs := fun formula member => sound.occurs formula (formulas member)
    decides := fun assertion member => sound.decides assertion (kept assertion member)
    satisfiable := by rintro ⟨⟩
    unsatisfiable := by rintro ⟨⟩ }

/-- A conjunction of assertions with diagrams. -/
theorem ensures_conjoin {encoder : Encoder} {assertions : List Assertion}
    (decides : ∀ assertion ∈ assertions, ∀ edge, assertion.encoded = .ok edge →
      encoder.Decides [assertion.formula] edge) :
    Encoding.Ensures alphabet (conjoin assertions) encoder fun edge after =>
      (∀ assertion ∈ assertions, ∃ edge, assertion.encoded = .ok edge) ∧
        after.manager.exhaustion = none ∧
          after.Decides (assertions.map Assertion.formula) edge := by
  apply Encoding.ensures_of_wellFormed
  intro wellFormed
  refine (Encoding.ensures_foldlM (fun done total after =>
    (∀ assertion ∈ done, ∃ edge, assertion.encoded = .ok edge) ∧
      after.Decides (done.map Assertion.formula) total) assertions
    (fun wellFormed => ⟨List.forall_mem_nil _, Encoder.decides_nil wellFormed⟩)
    ?_).bind ?_
  · intro done assertion rest total middle split grown wellFormed' ⟨encodedDone, decidesDone⟩
    refine Encoding.ensures_lift.bind ?_
    rintro edge _ - - ⟨encoded, rfl⟩
    have decidesLast : middle.Decides [assertion.formula] edge :=
      (decides assertion (by simp [split]) edge encoded).grow wellFormed grown
    rw [List.map_append]
    refine (Encoding.ensures_conj (fun _ => decidesDone) fun _ => decidesLast).mono ?_
    intro total' after' _ _ decides'
    refine ⟨?_, decides'⟩
    rw [List.forall_mem_append, List.forall_mem_singleton]
    exact ⟨encodedDone, edge, encoded⟩
  · intro total after _ wellFormed ⟨encoded, decides⟩
    refine Encoding.ensures_checkExhausted.bind ?_
    intro _ last grown _ unexhausted
    exact Encoding.ensures_pure fun _ => ⟨encoded, unexhausted, decides.grow wellFormed grown⟩

theorem widenedEncoder_eq {config : SolverConfig} {formulas : List Expr}
    (untrusted : config.margin ≠ 0) (integer : formulas.any Expr.hasIntSymbol)
    (deadlinePassed : Bool) : widenedEncoder config formulas deadlinePassed =
      some ((Encoder.new (config.widened (Expr.literalBoundsAll none formulas))).timed
        deadlinePassed) := by
  unfold widenedEncoder
  rw [if_neg (by simp [untrusted, integer])]
  rfl

/-- Formulas that do not escape have a false diagram over the widened intervals. -/
theorem encodeAllValid_of_escapesRange {config : SolverConfig} {formulas : List Expr}
    {deadlinePassed : Bool} {encoder : Encoder}
    (widened : widenedEncoder config formulas deadlinePassed = some encoder)
    (confined : escapesRange config formulas deadlinePassed = .ok false) :
    (Encoder.encodeAllValid formulas encoder).1 = .ok .zero := by
  unfold escapesRange at confined
  rw [widened] at confined
  dsimp only at confined
  rcases run : Encoder.encodeAllValid formulas encoder with ⟨cause | edge, after⟩
  · rw [run] at confined
    cases confined
  · rw [run] at confined
    have isZero : edge = .zero := by simpa [Edge.isZero] using confined
    rw [isZero]

/-- Formulas that do not escape the configured intervals have no widened solution. -/
theorem not_fulfills_of_escapesRange {config : SolverConfig} (exact_ : config.Exact)
    (positive : 0 ≤ config.margin) {formulas : List Expr}
    (plain : ∀ formula ∈ formulas, formula.choosesTruth = false) {deadlinePassed : Bool}
    (confined : escapesRange config formulas deadlinePassed = .ok false)
    (untrusted : config.margin ≠ 0) (integer : formulas.any Expr.hasIntSymbol)
    {values : Symbol → Value}
    (admits : (config.widened (Expr.literalBoundsAll none formulas)).AdmitsAll values formulas) :
    ¬ Fulfills values formulas := by
  have exactWidened : (config.widened (Expr.literalBoundsAll none formulas)).Exact :=
    exact_.widened positive _
  have wellFormed := (Encoder.wellFormed_new exactWidened.distinct).timed deadlinePassed
  obtain ⟨wellFormed', grown, decides⟩ := Encoding.ensures_encodeAllValid
    (fun formula member symbol occurs =>
      (Expr.mem_collectSymbolsAll formulas []).mpr (.inr ⟨formula, member, occurs⟩)) wellFormed
  obtain ⟨unexhausted, decides⟩ := decides .zero
    (encodeAllValid_of_escapesRange (widenedEncoder_eq untrusted integer deadlinePassed) confined)
  rw [← show _ = config.widened (Expr.literalBoundsAll none formulas) from grown.config_eq]
    at exactWidened admits
  exact decides.not_fulfills wellFormed' exactWidened plain unexhausted admits

theorem confirmUnsat_ne_sat (config : SolverConfig) (formulas : List Expr)
    (deadlinePassed : Bool) : confirmUnsat config formulas deadlinePassed ≠ .sat := by
  unfold confirmUnsat
  split <;> rintro ⟨⟩

theorem escapesRange_of_confirmUnsat {config : SolverConfig} {formulas : List Expr}
    {deadlinePassed : Bool} (unsat : confirmUnsat config formulas deadlinePassed = .unsat) :
    escapesRange config formulas deadlinePassed = .ok false := by
  unfold confirmUnsat at unsat
  split at unsat
  · assumption
  · cases unsat
  · cases unsat

end Session

namespace SessionState

variable {α β : Type} {session : Session} {returns : α → Session → Prop}

/-- What is returned and the session afterwards are described by the condition. -/
def Ensures (computation : SessionState α) (session : Session)
    (returns : α → Session → Prop) : Prop :=
  returns (computation session).1 (computation session).2

theorem ensures_bind (first : SessionState β) (next : β → SessionState α) :
    Ensures (first >>= next) session returns ↔
      Ensures first session fun result after => Ensures (next result) after returns :=
  Iff.rfl

theorem ensures_pure (result : α) :
    Ensures (pure result) session returns ↔ returns result session :=
  Iff.rfl

theorem bind_run (first : SessionState β) (next : β → SessionState α) (session : Session) :
    (first >>= next) session = next (first session).1 (first session).2 :=
  rfl

theorem pure_run (result : α) (session : Session) :
    (pure result : SessionState α) session = (result, session) :=
  rfl

theorem get_run (session : Session) :
    (get : SessionState Session) session = (session, session) :=
  rfl

theorem modify_run (change : Session → Session) (session : Session) :
    (modify change : SessionState PUnit) session = (⟨⟩, change session) :=
  rfl

theorem encoding_run (computation : Encoding α) (session : Session) :
    Session.encoding computation session = ((computation session.encoder).1,
      { session with encoder := (computation session.encoder).2 }) :=
  rfl

theorem ensures_get {returns : Session → Session → Prop} :
    Ensures get session returns ↔ returns session session :=
  Iff.rfl

theorem ensures_modify (change : Session → Session) {returns : PUnit → Session → Prop} :
    Ensures (modify change) session returns ↔ returns ⟨⟩ (change session) :=
  Iff.rfl

/-- An encoding that keeps a session without a model sound. -/
theorem ensures_encoding {alphabet : List Symbol} (sound : session.Sound alphabet)
    (unanswered : session.status ≠ some .sat) {computation : Encoding α}
    {describes : α → Encoder → Prop}
    (ensures : Encoding.Ensures alphabet computation session.encoder describes)
    {returns : Except UnknownCause α → Session → Prop}
    (failure : ∀ cause encoder, { session with encoder }.Sound alphabet →
      returns (.error cause) { session with encoder })
    (success : ∀ result encoder, session.encoder.Extends alphabet encoder →
      { session with encoder }.Sound alphabet → describes result encoder →
        returns (.ok result) { session with encoder }) :
    Ensures (Session.encoding computation) session returns := by
  obtain ⟨wellFormed, grown, described⟩ := ensures sound.encoder
  have sound' := sound.withEncoder unanswered wellFormed grown
  show returns (computation session.encoder).1
    { session with encoder := (computation session.encoder).2 }
  cases outcome : (computation session.encoder).1 with
  | error cause => exact failure cause _ sound'
  | ok result => exact success result _ grown sound' (described result outcome)

end SessionState

namespace Session

variable {alphabet : List Symbol} {session : Session}

theorem Sound.withStatus (sound : session.Sound alphabet) {status : SolverStatus}
    (satisfiable : status = .sat → session.encoder.manager.exhaustion = none ∧
      session.conjunction ≠ .zero ∧ session.encoder.Decides session.formulas session.conjunction)
    (unsatisfiable : status = .unsat → session.config.Captures session.formulas →
      session.config.Refutes session.formulas) :
    { session with status := some status }.Sound alphabet :=
  { sound with
    satisfiable := fun answered => satisfiable (Option.some.inj answered)
    unsatisfiable := fun answered => unsatisfiable (Option.some.inj answered) }

theorem Sound.withConjunction (sound : session.Sound alphabet)
    (unanswered : session.status ≠ some .sat) (conjunction : Edge) :
    { session with conjunction }.Sound alphabet :=
  { sound with satisfiable := fun answered => absurd answered unanswered }

def unlessExhausted (answer : Option SolverStatus) : Except UnknownCause Unit → Option SolverStatus
  | .ok _ => answer
  | .error cause => some (.unknown cause)

/-- The end of a check: an exhausted manager makes the answer inconclusive, and the
deadline is removed. -/
def conclude (answer : Option SolverStatus) : SessionState (Option SolverStatus) := do
  let checked ← encoding Encoder.checkExhausted
  modify fun session => { session with encoder := session.encoder.timed false }
  return unlessExhausted answer checked

def concludeConjunction : Except UnknownCause Edge → SessionState (Option SolverStatus)
  | .ok edge => do
      modify fun session => { session with conjunction := edge }
      conclude (if edge.isZero then none else some .sat)
  | .error cause => conclude (some (.unknown cause))

/-- The part of a check that works on the session: the answer, unless the conjunction is
false and has to be confirmed. -/
def settleConjunction : SessionState (Option SolverStatus) := do
  modify fun session =>
    { session with encoder := session.encoder.timed session.config.timeoutPasses }
  concludeConjunction (← encoding (conjoin (← get).live))

/-- A new answer is the one that is settled, or that of the confirmation. -/
theorem decideConjunction_run (session : Session) : decideConjunction session =
    ((settleConjunction session).1.getD
        (confirmUnsat session.config session.formulas session.config.timeoutPasses),
      (settleConjunction session).2) := by
  unfold decideConjunction settleConjunction
  simp only [SessionState.bind_run, SessionState.get_run, SessionState.modify_run,
    SessionState.encoding_run, Encoder.timed]
  generalize conjoin _ _ = conjoined
  rcases conjoined with ⟨cause | edge, encoder⟩
  · unfold concludeConjunction conclude
    simp only [SessionState.bind_run, SessionState.encoding_run, SessionState.pure_run]
    generalize Encoder.checkExhausted encoder = checked
    rcases checked with ⟨_ | _, _⟩ <;> rfl
  · unfold concludeConjunction conclude
    by_cases isZero : edge.isZero = true
    · simp only [isZero, if_true, SessionState.bind_run, SessionState.get_run,
        SessionState.modify_run, SessionState.encoding_run, SessionState.pure_run]
      generalize Encoder.checkExhausted encoder = checked
      rcases checked with ⟨_ | _, _⟩ <;> rfl
    · simp only [isZero, Bool.false_eq_true, if_false, SessionState.bind_run,
        SessionState.modify_run, SessionState.encoding_run, SessionState.pure_run]
      generalize Encoder.checkExhausted encoder = checked
      rcases checked with ⟨_ | _, _⟩ <;> rfl

theorem eq_sat_of_confirmed {config : SolverConfig} {formulas : List Expr}
    {deadlinePassed : Bool} {answer : Option SolverStatus}
    (sat : answer.getD (confirmUnsat config formulas deadlinePassed) = .sat) :
    answer = some .sat := by
  cases answer with
  | none => exact absurd sat (confirmUnsat_ne_sat config formulas deadlinePassed)
  | some status => exact congrArg some sat

theorem eq_none_of_confirmed {config : SolverConfig} {formulas : List Expr}
    {deadlinePassed : Bool} {answer : Option SolverStatus} (unconfirmed : answer ≠ some .unsat)
    (unsat : answer.getD (confirmUnsat config formulas deadlinePassed) = .unsat) :
    answer = none ∧ escapesRange config formulas deadlinePassed = .ok false := by
  cases answer with
  | none => exact ⟨rfl, escapesRange_of_confirmUnsat unsat⟩
  | some status => exact absurd (congrArg some unsat) unconfirmed

/-- What is settled about the conjunction of the assertions: it has a solution, or there
is none over the configured intervals, or nothing is known. -/
structure Settles (session : Session) (alphabet : List Symbol) (answer : Option SolverStatus)
    (after : Session) : Prop where
  live_eq : after.live = session.live
  config_eq : after.config = session.config
  status_eq : after.status = session.status
  sound : after.Sound alphabet
  satisfiable : answer = some .sat →
    (∀ assertion ∈ session.live, ∃ edge, assertion.encoded = .ok edge) ∧
      after.encoder.manager.exhaustion = none ∧ after.conjunction ≠ .zero ∧
        after.encoder.Decides after.formulas after.conjunction
  unconfirmed : answer ≠ some .unsat
  excludes {values : Symbol → Value} : answer = none → after.config.Exact →
    (∀ formula ∈ after.formulas, formula.choosesTruth = false) →
      after.config.AdmitsAll values after.formulas → ¬ Fulfills values after.formulas

theorem Sound.conclude (sound : session.Sound alphabet) (unanswered : session.status = none)
    (answer : Option SolverStatus)
    (satisfiable : answer = some .sat →
      (∀ assertion ∈ session.live, ∃ edge, assertion.encoded = .ok edge) ∧
        session.conjunction ≠ .zero ∧
          session.encoder.Decides session.formulas session.conjunction)
    (unconfirmed : answer ≠ some .unsat)
    (excludes : answer = none → session.config.Exact →
      (∀ formula ∈ session.formulas, formula.choosesTruth = false) →
      ∀ {values : Symbol → Value}, session.config.AdmitsAll values session.formulas →
        ¬ Fulfills values session.formulas) :
    SessionState.Ensures (Session.conclude answer) session fun answer after =>
      session.Settles alphabet answer after := by
  have silent : session.status ≠ some .sat := by
    rw [unanswered]
    rintro ⟨⟩
  unfold Session.conclude
  simp only [SessionState.ensures_bind, SessionState.ensures_modify]
  refine SessionState.ensures_encoding sound silent Encoding.ensures_checkExhausted ?_ ?_
  · intro cause encoder sound'
    have sound'' := sound'.withEncoder silent (sound'.encoder.timed false)
      (sound'.encoder.extends_timed false)
    exact ⟨rfl, rfl, rfl, sound'', by rintro ⟨⟩, by rintro ⟨⟩, by rintro _ ⟨⟩⟩
  · intro _ encoder grown sound' unexhausted
    have sound'' := sound'.withEncoder silent (sound'.encoder.timed false)
      (sound'.encoder.extends_timed false)
    refine ⟨rfl, rfl, rfl, sound'', fun sat => ?_, unconfirmed,
      fun zero exact_ plain => excludes zero exact_ plain⟩
    obtain ⟨encoded, notZero, decides⟩ := satisfiable sat
    exact ⟨encoded, unexhausted, notZero, (decides.grow sound.encoder grown).grow sound'.encoder
      (sound'.encoder.extends_timed false : Encoder.Extends alphabet _ _)⟩

/-- What is settled about the conjunction is right. -/
theorem Sound.settleConjunction (sound : session.Sound alphabet)
    (unanswered : session.status = none) :
    SessionState.Ensures settleConjunction session fun answer after =>
      session.Settles alphabet answer after := by
  have silent : session.status ≠ some .sat := by
    rw [unanswered]
    rintro ⟨⟩
  have sound' := sound.withEncoder silent (sound.encoder.timed session.config.timeoutPasses)
    (sound.encoder.extends_timed _)
  unfold Session.settleConjunction
  simp only [SessionState.ensures_bind, SessionState.ensures_get, SessionState.ensures_modify]
  refine SessionState.ensures_encoding sound' silent
    (ensures_conjoin sound'.decides) ?_ ?_
  · intro cause encoder sound''
    have settles : Session.Settles _ alphabet _ _ := sound''.conclude unanswered
      (some (.unknown cause)) (by rintro ⟨⟩) (by rintro ⟨⟩) (by rintro ⟨⟩)
    exact { settles with }
  · intro edge encoder _ sound'' ⟨encoded, unexhausted, decides⟩
    have conjoined := sound''.withConjunction silent edge
    unfold concludeConjunction
    simp only [SessionState.ensures_bind, SessionState.ensures_modify]
    by_cases isZero : edge = .zero
    · rw [if_pos (by simp [Edge.isZero, isZero])]
      have sameConfig : encoder.config = session.config := sound''.config_eq
      rw [isZero] at decides
      have settles : Session.Settles _ alphabet _ _ := conjoined.conclude unanswered none
        (by rintro ⟨⟩) (by rintro ⟨⟩) fun _ exact_ plain values admits =>
          decides.not_fulfills sound''.encoder (by rwa [sameConfig]) plain unexhausted
            (by rwa [sameConfig])
      exact { settles with }
    · rw [if_neg (by simp [Edge.isZero, isZero])]
      have settles : Session.Settles _ alphabet _ _ := conjoined.conclude unanswered
        (some .sat) (fun _ => ⟨encoded, isZero, decides⟩) (by rintro ⟨⟩) (by rintro ⟨⟩)
      exact { settles with }

/-- A symbol has a value in the model of a path exactly when it is listed and encoded,
and it is the value that the path gives. -/
theorem get?_modelOfPath {encoder : Encoder} {path : List Int} {symbols : List Symbol}
    {symbol : Symbol} {value : Value} :
    (encoder.modelOfPath path symbols).get? symbol = some value ↔
      symbol ∈ symbols ∧
        encoder.interpret (DiagramManager.pathAssignment path) symbol = some value := by
  have listed {other : Symbol} {value : Value} :
      (other, value) ∈ (symbols.filterMap fun symbol =>
        (OrderedMap.find? symbol encoder.symbols).map fun encoded =>
          (symbol, encoded.domain.value (Encoder.offsetOnPath path encoded))) ↔
        other ∈ symbols ∧
          encoder.interpret (DiagramManager.pathAssignment path) other = some value := by
    simp only [List.mem_filterMap, Option.map_eq_some_iff, Prod.mk.injEq]
    constructor
    · rintro ⟨_, member, encoded, found, rfl, rfl⟩
      exact ⟨member, by rw [Encoder.interpret, found]; rfl⟩
    · rintro ⟨member, interpreted⟩
      obtain ⟨encoded, found, valued⟩ := Option.map_eq_some_iff.mp interpreted
      exact ⟨other, member, encoded, found, rfl, valued⟩
  constructor
  · intro found
    exact listed.mp (OrderedMap.mem_of_find?_ofList found)
  · intro interpreted
    have stored := OrderedMap.isSome_find?_ofList
      (List.mem_map.mpr ⟨_, listed.mpr interpreted, rfl⟩)
    obtain ⟨value', found⟩ := Option.isSome_iff_exists.mp stored
    have interpreted' := (listed.mp (OrderedMap.mem_of_find?_ofList found)).2
    rw [interpreted.2] at interpreted'
    cases interpreted'
    exact found

/-- A satisfiable session has a model, and it consists of admitted values that make all
assertions true that do not choose between truth values. -/
theorem Sound.exists_model (sound : session.Sound alphabet)
    (few : session.encoder.nextLevel ≤ 2147483648) (sat : session.status = some .sat) :
    ∃ model values, session.model = .ok model ∧
      session.config.AdmitsAll values session.formulas ∧
      (∀ formula ∈ session.formulas, formula.choosesTruth = false →
        formula.truth (fun symbol => some (values symbol)) = true) ∧
      ∀ symbol value, model.get? symbol = some value ↔
        (∃ formula ∈ session.formulas, symbol ∈ formula.symbols) ∧ values symbol = value := by
  obtain ⟨unexhausted, notZero, decides⟩ := sound.satisfiable sat
  obtain ⟨path, found⟩ : ∃ path,
      session.encoder.manager.onePath? session.conjunction = some path :=
    ⟨_, if_neg (by simpa [Edge.isZero] using notZero)⟩
  have given : session.model =
      .ok (session.encoder.modelOfPath path (symbolsOf session.live)) := by
    rw [Session.model, if_pos sat, found]
  have holds := DiagramManager.value_onePath sound.encoder.diagrams.toOrdered few
    decides.means.owns found
  have lawful : session.encoder.config.Lawful := by
    rw [sound.config_eq]
    exact sound.lawful
  obtain ⟨values, admits, fulfills, interpreted⟩ :=
    decides.exists_values sound.encoder lawful unexhausted holds
  rw [sound.config_eq] at admits
  refine ⟨_, values, given, admits, fulfills, fun symbol value => ?_⟩
  rw [get?_modelOfPath, symbolsOf, Expr.mem_collectSymbolsAll]
  simp only [List.not_mem_nil, false_or]
  constructor
  · rintro ⟨⟨formula, member, occurs⟩, valued⟩
    rw [interpreted formula member symbol occurs] at valued
    exact ⟨⟨formula, member, occurs⟩, Option.some.inj valued⟩
  · rintro ⟨⟨formula, member, occurs⟩, rfl⟩
    exact ⟨⟨formula, member, occurs⟩, interpreted formula member symbol occurs⟩

end Session

end AbstractionRefinement
