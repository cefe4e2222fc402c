import AbstractionRefinement.Proofs.EncodingBudgets
import AbstractionRefinement.Proofs.SessionVerdicts

/-!
# Node budgets of sessions

What a session encodes, it encodes in the same way under a lowered node limit, as long
as it stays within the budget.  The confirmation of an unsatisfiable answer has an
encoder of its own with a budget of its own.
-/

namespace AbstractionRefinement

/-- Within a budget, an encoding is as described under the lowered limit. -/
theorem Encoding.Budgeted.ensures {α : Type} {alphabet : List Symbol} {computation : Encoding α}
    {encoder : Encoder} {budget : Nat} {returns : α → Encoder → Prop}
    (budgeted : Encoding.Budgeted computation) (early : encoder.manager.deadlinePassed = false)
    (within : (computation encoder).2.manager.nodes.size ≤ budget)
    (ensures : Encoding.Ensures alphabet computation (encoder.capped budget) returns)
    (wellFormed : (encoder.capped budget).WellFormed) :
    ((computation encoder).2.capped budget).WellFormed ∧
      (encoder.capped budget).Extends alphabet ((computation encoder).2.capped budget) ∧
      ∀ result, (computation encoder).1 = .ok result →
        returns result ((computation encoder).2.capped budget) := by
  have same : computation (encoder.capped budget) =
      ((computation encoder).1, (computation encoder).2.capped budget) :=
    budgeted.capped_eq early within
  have outcome := ensures wellFormed
  rwa [same] at outcome

namespace Encoding

variable {alphabet : List Symbol} {encoder : Encoder}

theorem ensures_noticeDeadline : Ensures alphabet
    (modify fun encoder => { encoder with manager := encoder.manager.noticeDeadline }) encoder
    fun _ _ => True := by
  intro wellFormed
  obtain ⟨diagrams, grown⟩ := wellFormed.diagrams.noticeDeadline
  obtain ⟨wellFormed', grown'⟩ := wellFormed.withManager diagrams grown
  exact ⟨wellFormed', grown', fun _ _ => trivial⟩

end Encoding

/-- Under the settings the conjunction of the formulas was found to be false. -/
def SolverConfig.Falsifies (config : SolverConfig) (formulas : List Expr) : Prop :=
  ∃ encoder : Encoder, encoder.WellFormed ∧ encoder.config = config ∧
    encoder.manager.exhaustion = none ∧ encoder.Decides formulas .zero

namespace Session

open Encoding

variable {alphabet : List Symbol} {config : SolverConfig} {encoder : Encoder}

def coreEncoding (config : SolverConfig) (assertions : List Assertion) :
    Encoding (List (Expr × Edge)) := do
  let untracked := assertions.filter fun assertion => !assertion.tracked
  let base ← conjoin untracked
  let tracked ← (assertions.filter Assertion.tracked).mapM fun assertion => do
    let edge ← (assertion.encoded : Except UnknownCause Edge)
    return (assertion.formula, edge)
  minimizeCore config (untracked.map Assertion.formula) base [] tracked

theorem unsatCore_state (session : Session) : (unsatCore session).2 =
    if session.status = some .unsat then
      { session with
        encoder := (coreEncoding session.config session.live session.encoder).2 }
    else session := by
  unfold unsatCore
  rw [SessionState.bind_run, SessionState.get_run]
  split <;> rfl

theorem budgeted_conjoin (assertions : List Assertion) : Encoding.Budgeted (conjoin assertions) := by
  refine Encoding.Budgeted.bind ?_ fun total => budgeted_checkExhausted.bind fun _ => budgeted_pure total
  exact budgeted_foldlM (fun total assertion _ =>
    (budgeted_lift assertion.encoded).bind fun edge => budgeted_conj total edge) _

theorem budgeted_minimizeCore (untracked : List Expr) (base : Edge)
    (kept candidates : List (Expr × Edge)) :
    Encoding.Budgeted (minimizeCore config untracked base kept candidates) := by
  induction candidates generalizing kept with
  | nil => exact budgeted_pure kept
  | cons candidate candidates ih =>
      rw [minimizeCore]
      refine Encoding.Budgeted.bind
        (budgeted_foldlM (fun total other _ => budgeted_conj total other.2) _) fun rest => ?_
      refine budgeted_noticeDeadline.bind fun _ => ?_
      refine budgeted_get (fun _ _ => rfl) fun encoder => ?_
      have either (removable : Bool) : Encoding.Budgeted
          (if removable then minimizeCore config untracked base kept candidates
            else minimizeCore config untracked base (kept ++ [candidate]) candidates) := by
        split
        · exact ih kept
        · exact ih (kept ++ [candidate])
      dsimp only
      split
      · exact budgeted_pure _
      · exact either _

theorem budgeted_coreEncoding (assertions : List Assertion) :
    Encoding.Budgeted (coreEncoding config assertions) := by
  refine (budgeted_conjoin _).bind fun base => ?_
  refine Encoding.Budgeted.bind (budgeted_mapM (fun assertion => ?_) _) fun tracked =>
    budgeted_minimizeCore _ base [] tracked
  exact (budgeted_lift assertion.encoded).bind fun edge => budgeted_pure (assertion.formula, edge)

/-- Either no candidate was dropped, or what is left was found to be false together with the
other formulas, also over the widened intervals. -/
def Minimized (config : SolverConfig) (encoder : Encoder) (untracked given core : List Expr) :
    Prop :=
  core = given ∨ encoder.config.Falsifies (untracked ++ core) ∧
    escapesRange config (untracked ++ core) false = .ok false

/-- A core is all that was given or was itself found to be false. -/
theorem ensures_minimizeCore {untracked : List Expr} {base : Edge}
    {kept candidates : List (Expr × Edge)} (decidesBase : encoder.Decides untracked base)
    (decides : ∀ pair ∈ kept ++ candidates, encoder.Decides [pair.1] pair.2) :
    Ensures alphabet (minimizeCore config untracked base kept candidates) encoder
      fun core _ => Minimized config encoder untracked ((kept ++ candidates).map Prod.fst)
        (core.map Prod.fst) := by
  induction candidates generalizing kept encoder with
  | nil =>
      rw [List.append_nil]
      exact ensures_pure fun _ => .inl rfl
  | cons candidate candidates ih =>
      rw [minimizeCore]
      apply ensures_of_wellFormed
      intro wellFormed
      refine (ensures_foldlM (fun (done : List (Expr × Edge)) total after =>
        after.Decides (untracked ++ done.map Prod.fst) total) _ ?_ ?_).bind ?_
      · intro _
        rwa [List.map_nil, List.append_nil]
      · intro done other rest total after split grown wellFormed' decidesDone
        have member : other ∈ kept ++ candidate :: candidates := by
          have member : other ∈ kept ++ candidates := by simp [split]
          simp only [List.mem_append, List.mem_cons] at member ⊢
          exact member.imp_right Or.inr
        rw [List.map_append, ← List.append_assoc]
        exact ensures_conj (fun _ => decidesDone) fun _ =>
          (decides other member).grow wellFormed grown
      · intro rest after grown wellFormed' decidesRest
        refine ensures_noticeDeadline.bind ?_
        intro _ after' grown' wellFormed'' _
        refine ensures_get.bind ?_
        rintro _ _ - - ⟨rfl, rfl⟩
        have sameConfig : after'.config = encoder.config :=
          grown'.config_eq.trans grown.config_eq
        have decidesBase' := (decidesBase.grow wellFormed grown).grow wellFormed' grown'
        have decides' (pair : Expr × Edge) (member : pair ∈ kept ++ candidate :: candidates) :=
          ((decides pair member).grow wellFormed grown).grow wellFormed' grown'
        dsimp only
        split
        case isTrue => exact ensures_pure fun _ => .inl rfl
        case isFalse unexhausted =>
          have either (removable : Bool) (removes : removable = true → rest.isZero = true ∧
              escapesRange config (untracked ++ (kept ++ candidates).map Prod.fst) false =
                .ok false) : Ensures alphabet
              (if removable then minimizeCore config untracked base kept candidates
                else minimizeCore config untracked base (kept ++ [candidate]) candidates) after'
              fun core _ => Minimized config encoder untracked
                ((kept ++ candidate :: candidates).map Prod.fst) (core.map Prod.fst) := by
            split
            case isTrue removable =>
              -- What is left without the candidate is false, and so is a core of it.
              obtain ⟨isZero, confined⟩ := removes removable
              obtain rfl : rest = .zero := by simpa [Edge.isZero] using isZero
              have falsifies : encoder.config.Falsifies
                  (untracked ++ (kept ++ candidates).map Prod.fst) :=
                ⟨after', wellFormed'', sameConfig, by simpa using unexhausted,
                  decidesRest.grow wellFormed' grown'⟩
              refine (ih decidesBase' fun pair member => decides' pair ?_).mono ?_
              · simp only [List.mem_append, List.mem_cons] at member ⊢
                exact member.imp_right Or.inr
              · rintro core _ - - (same | found)
                · rw [← same] at falsifies confined
                  exact .inr ⟨falsifies, confined⟩
                · exact .inr (sameConfig ▸ found)
            case isFalse =>
              have regrouped : kept ++ candidate :: candidates =
                  kept ++ [candidate] ++ candidates := by
                simp
              rw [regrouped] at decides' ⊢
              refine (ih decidesBase' decides').mono ?_
              rintro core _ - - (same | found)
              · exact .inl same
              · exact .inr (sameConfig ▸ found)
          refine either _ fun removable => ?_
          rw [Bool.and_eq_true] at removable
          obtain ⟨isZero, confirmed⟩ := removable
          refine ⟨isZero, ?_⟩
          generalize escapesRange config _ false = escapes at confirmed ⊢
          cases escapes with
          | error cause => cases confirmed
          | ok escapes => simpa using confirmed

/-- The core of a session is all its tracked formulas or was itself found to be false. -/
theorem ensures_coreEncoding {assertions : List Assertion}
    (decides : ∀ assertion ∈ assertions, ∀ edge, assertion.encoded = .ok edge →
      encoder.Decides [assertion.formula] edge) :
    Ensures alphabet (coreEncoding config assertions) encoder fun core _ =>
      Minimized config encoder
        ((assertions.filter fun assertion => !assertion.tracked).map Assertion.formula)
        ((assertions.filter Assertion.tracked).map Assertion.formula) (core.map Prod.fst) := by
  have among {condition : Assertion → Bool} {assertion : Assertion}
      (member : assertion ∈ assertions.filter condition) := (List.mem_filter.mp member).1
  apply ensures_of_wellFormed
  intro wellFormed
  refine (ensures_conjoin fun assertion member => decides assertion (among member)).bind ?_
  intro base after grown wellFormed' ⟨_, _, decidesBase⟩
  refine (ensures_mapM (fun done results last => results.map Prod.fst =
    done.map Assertion.formula ∧ ∀ pair ∈ results, last.Decides [pair.1] pair.2) _
    (fun _ => ⟨rfl, List.forall_mem_nil _⟩) ?_).bind ?_
  · intro done assertion rest results middle split grown' _ ⟨same, decidesDone⟩
    have member : assertion ∈ assertions.filter Assertion.tracked := by simp [split]
    refine ensures_lift.bind ?_
    rintro edge _ - - ⟨encoded, rfl⟩
    refine ensures_pure fun _ => ?_
    have decidesLast := ((decides assertion (among member) edge encoded).grow wellFormed
      grown).grow wellFormed' grown'
    rw [List.forall_mem_append, List.forall_mem_singleton, List.map_append, List.map_append, same]
    exact ⟨rfl, decidesDone, decidesLast⟩
  · intro tracked last grown' _ ⟨same, decidesTracked⟩
    have sameConfig : last.config = encoder.config := grown'.config_eq.trans grown.config_eq
    refine (ensures_minimizeCore (decidesBase.grow wellFormed' grown') decidesTracked).mono ?_
    intro core _ _ _ minimized
    rw [List.nil_append, same] at minimized
    exact minimized.imp_right (sameConfig ▸ ·)

/-- The encodings that an interpolant over the configured intervals takes. -/
def interpolationEncoding (first : List Assertion) (symbols : List Symbol) : Encoding Expr := do
  let edge ← conjoin first
  projectAway symbols edge

/-- An interpolant changes the encoder of an unsatisfiable session only. -/
theorem interpolant_state (markers : List Nat) (session : Session) :
    (interpolant markers session).2 = session ∨
      session.status = some .unsat ∧ ∃ condition symbols, (interpolant markers session).2 =
        { session with
          encoder := (interpolationEncoding (session.live.filter condition) symbols
            session.encoder).2 } := by
  generalize run : interpolant markers session = outcome
  unfold interpolant at run
  rw [SessionState.bind_run, SessionState.get_run] at run
  dsimp only at run
  split at run
  case isTrue =>
    rw [← run]
    exact .inl rfl
  case isFalse =>
    rw [SessionState.bind_run, SessionState.get_run] at run
    dsimp only at run
    generalize markers.find? (fun marker => session.markers ≤ marker) = unknown at run
    cases unknown with
    | some marker =>
        rw [← run]
        exact .inl rfl
    | none =>
        dsimp only at run
        rw [SessionState.bind_run, SessionState.get_run] at run
        dsimp only at run
        split at run
        case isTrue =>
          rw [← run]
          exact .inl rfl
        case isFalse answered =>
          rw [SessionState.bind_run, SessionState.get_run] at run
          dsimp only at run
          rw [SessionState.bind_run, SessionState.get_run] at run
          dsimp only at run
          generalize (widenedEncoder session.config _ false).bind _ = overWidened at run
          cases overWidened with
          | some result =>
              rw [← run]
              exact .inl rfl
          | none =>
              rw [← run]
              exact .inr ⟨not_not.mp answered, _, _, rfl⟩

theorem budgeted_projectAway (symbols : List Symbol) (edge : Edge) :
    Encoding.Budgeted (projectAway symbols edge) := by
  refine budgeted_get (fun _ _ => rfl) fun encoder => ?_
  refine Encoding.Budgeted.bind (budgeted_diagram (DiagramManager.budgeted_quantify _ edge))
    fun projected => ?_
  refine budgeted_checkExhausted.bind fun _ => ?_
  refine budgeted_get (fun encoder budget => ?_) fun encoder => budgeted_lift _
  rw [Encoder.decode_capped]

theorem budgeted_interpolationEncoding (first : List Assertion) (symbols : List Symbol) :
    Encoding.Budgeted (interpolationEncoding first symbols) :=
  (budgeted_conjoin first).bind fun edge => budgeted_projectAway symbols edge

/-- The encodings of an interpolant leave the encoder well formed. -/
theorem ensures_interpolationEncoding {first : List Assertion} (symbols : List Symbol)
    (decides : ∀ assertion ∈ first, ∀ edge, assertion.encoded = .ok edge →
      encoder.Decides [assertion.formula] edge) :
    Ensures alphabet (interpolationEncoding first symbols) encoder fun _ _ => True := by
  refine (ensures_conjoin decides).bind ?_
  intro edge after _ _ ⟨_, _, decides⟩
  refine ensures_get.bind ?_
  rintro _ _ - - ⟨rfl, rfl⟩
  refine (ensures_diagram fun wellFormed => DiagramManager.quantify_delivers wellFormed.diagrams
    wellFormed.distinct decides.means.owns _).bind ?_
  intro projected last _ _ _
  refine ensures_checkExhausted.bind ?_
  intro _ last' _ _ _
  refine ensures_get.bind ?_
  rintro _ _ - - ⟨rfl, rfl⟩
  exact ensures_lift.mono fun _ _ _ _ _ => trivial

/-- Number of nodes that the confirmation of an unsatisfiable answer takes. -/
def confirmationSize (config : SolverConfig) (formulas : List Expr) : Nat :=
  match widenedEncoder config formulas false with
  | none => 0
  | some encoder => (Encoder.encodeAllValid formulas encoder).2.manager.size

theorem widenedEncoder_capped (config : SolverConfig) (budget : Nat) (formulas : List Expr) :
    widenedEncoder (config.capped budget) formulas false =
      (widenedEncoder config formulas false).map (Encoder.capped budget) := by
  unfold widenedEncoder
  rw [show (config.capped budget).margin = config.margin from rfl]
  split <;> rfl

theorem early_of_widenedEncoder {formulas : List Expr}
    (widened : widenedEncoder config formulas false = some encoder) :
    encoder.manager.deadlinePassed = false := by
  unfold widenedEncoder at widened
  split at widened
  · cases widened
  · cases widened
    rfl

/-- A small confirmation does not notice the node limit. -/
theorem escapesRange_capped {formulas : List Expr} {budget : Nat}
    (within : confirmationSize config formulas < budget) :
    escapesRange (config.capped budget) formulas false = escapesRange config formulas false := by
  unfold confirmationSize at within
  unfold escapesRange
  rw [widenedEncoder_capped]
  cases widened : widenedEncoder config formulas false with
  | none => rfl
  | some encoder =>
      rw [widened] at within
      have same : Encoder.encodeAllValid formulas (encoder.capped budget) = _ :=
        (budgeted_encodeAllValid formulas).capped_eq (early_of_widenedEncoder widened)
          (by unfold DiagramManager.size at within
              show (Encoder.encodeAllValid formulas encoder).2.manager.nodes.size ≤ budget
              dsimp only at within
              omega)
      rw [Option.map_some]
      dsimp only
      rw [same]
      rcases Encoder.encodeAllValid formulas encoder with ⟨_ | _, _⟩ <;> rfl

/-- The session with its node limit lowered to a budget.  An unsatisfiable answer is
forgotten, because it rests on a confirmation with nodes of its own. -/
def capped (budget : Nat) (session : Session) : Session :=
  { session with
    config := session.config.capped budget
    encoder := session.encoder.capped budget
    status := if session.status = some .unsat then none else session.status }

section Capped

variable {session : Session} {budget : Nat}

theorem status_capped_of_none (unanswered : session.status = none) :
    (session.capped budget).status = none := by
  unfold capped
  dsimp only
  rw [unanswered]
  rfl

theorem status_capped_of_sat (sat : session.status = some .sat) :
    (session.capped budget).status = some .sat := by
  unfold capped
  dsimp only
  rw [sat]
  rfl

/-- The session may remember an answer that is right if it is satisfiable. -/
theorem capped_withStatus_sound (sound : (session.capped budget).Sound alphabet)
    (unanswered : session.status = none) {status : SolverStatus}
    (satisfiable : status = .sat → (session.capped budget).encoder.manager.exhaustion = none ∧
      (session.capped budget).conjunction ≠ .zero ∧ (session.capped budget).encoder.Decides
        (session.capped budget).formulas (session.capped budget).conjunction) :
    ({ session with status := some status }.capped budget).Sound alphabet := by
  unfold capped at sound ⊢
  dsimp only at sound ⊢
  rw [unanswered, if_neg (by rintro ⟨⟩)] at sound
  by_cases unsat : status = .unsat
  · rw [unsat, if_pos rfl]
    exact sound
  · rw [if_neg (mt Option.some.inj unsat)]
    exact sound.withStatus satisfiable fun isUnsat => absurd isUnsat unsat

theorem budgeted_assertionEncoding (formula : Expr) :
    Encoding.Budgeted (assertionEncoding formula) :=
  (budgeted_encodeValid formula).bind fun edge =>
    budgeted_checkExhausted.bind fun _ => budgeted_pure edge

/-- Within a budget, a formula is asserted in the same way under a lowered limit. -/
theorem asserted_capped (tracked : Bool) (marker : Option Nat) (formula : Expr)
    (early : session.encoder.manager.deadlinePassed = false)
    (within : (session.asserted tracked marker formula).encoder.manager.nodes.size ≤ budget) :
    (session.capped budget).asserted tracked marker formula =
      (session.asserted tracked marker formula).capped budget := by
  have same : assertionEncoding formula (session.encoder.capped budget) =
      ((assertionEncoding formula session.encoder).1,
        (assertionEncoding formula session.encoder).2.capped budget) :=
    (budgeted_assertionEncoding formula).capped_eq early within
  unfold asserted capped
  dsimp only
  rw [same]
  rfl

theorem conclude_capped (answer : Option SolverStatus)
    (early : session.encoder.manager.deadlinePassed = false)
    (within : (conclude answer session).2.encoder.manager.nodes.size ≤ budget) :
    conclude answer (session.capped budget) =
      ((conclude answer session).1, (conclude answer session).2.capped budget) := by
  have same : Encoder.checkExhausted (session.encoder.capped budget) =
      ((Encoder.checkExhausted session.encoder).1,
        (Encoder.checkExhausted session.encoder).2.capped budget) :=
    budgeted_checkExhausted.capped_eq early within
  unfold conclude capped
  simp only [SessionState.bind_run, SessionState.encoding_run, SessionState.modify_run,
    SessionState.pure_run]
  rw [same]
  rfl

theorem nodes_le_conclude (answer : Option SolverStatus) (session : Session) :
    session.encoder.manager.nodes.size ≤
      (conclude answer session).2.encoder.manager.nodes.size :=
  budgeted_checkExhausted.nodes_le session.encoder

theorem concludeConjunction_capped (conjoined : Except UnknownCause Edge)
    (early : session.encoder.manager.deadlinePassed = false)
    (within : (concludeConjunction conjoined session).2.encoder.manager.nodes.size ≤ budget) :
    concludeConjunction conjoined (session.capped budget) =
      ((concludeConjunction conjoined session).1,
        (concludeConjunction conjoined session).2.capped budget) := by
  cases conjoined with
  | error cause => exact conclude_capped _ early within
  | ok edge =>
      exact @conclude_capped { session with conjunction := edge } budget
        (if edge.isZero then none else some .sat) early within

theorem nodes_le_concludeConjunction (conjoined : Except UnknownCause Edge) (session : Session) :
    session.encoder.manager.nodes.size ≤
      (concludeConjunction conjoined session).2.encoder.manager.nodes.size := by
  cases conjoined with
  | error cause => exact nodes_le_conclude _ session
  | ok edge => exact nodes_le_conclude _ { session with conjunction := edge }

def afterConjoin (session : Session) : Session :=
  { session with
    encoder :=
      (conjoin session.live (session.encoder.timed session.config.timeoutPasses)).2 }

theorem settleConjunction_run (session : Session) : settleConjunction session =
    concludeConjunction
      (conjoin session.live (session.encoder.timed session.config.timeoutPasses)).1
      session.afterConjoin :=
  rfl

theorem settleConjunction_state (session : Session) : ∃ encoder conjunction,
    (settleConjunction session).2 = { session with encoder, conjunction } ∧
      encoder.manager.deadlinePassed = false := by
  rw [settleConjunction_run]
  cases (conjoin session.live (session.encoder.timed session.config.timeoutPasses)).1 with
  | error cause => exact ⟨_, _, rfl, rfl⟩
  | ok edge => exact ⟨_, _, rfl, rfl⟩

/-- Within a budget, the same is settled under a lowered limit. -/
theorem settleConjunction_capped (punctual : session.config.timeoutPasses = false)
    (within : (settleConjunction session).2.encoder.manager.nodes.size ≤ budget) :
    settleConjunction (session.capped budget) =
      ((settleConjunction session).1, (settleConjunction session).2.capped budget) := by
  have early : (session.encoder.timed session.config.timeoutPasses).manager.deadlinePassed =
      false := punctual
  rw [settleConjunction_run] at within
  have same : conjoin session.live
      ((session.encoder.timed session.config.timeoutPasses).capped budget) =
        ((conjoin session.live (session.encoder.timed session.config.timeoutPasses)).1,
          session.afterConjoin.encoder.capped budget) :=
    (budgeted_conjoin session.live).capped_eq early
      (Nat.le_trans (nodes_le_concludeConjunction _ session.afterConjoin) within)
  have same' : conjoin (session.capped budget).live ((session.capped budget).encoder.timed
      (session.capped budget).config.timeoutPasses) = _ := same
  have after : (session.capped budget).afterConjoin = session.afterConjoin.capped budget := by
    unfold afterConjoin
    rw [same']
    rfl
  rw [settleConjunction_run, settleConjunction_run, same', after]
  exact concludeConjunction_capped _
    (((budgeted_conjoin session.live).late_eq _).trans early) within

theorem nodes_le_settleConjunction (session : Session) : session.encoder.manager.nodes.size ≤
    (settleConjunction session).2.encoder.manager.nodes.size :=
  Nat.le_trans ((budgeted_conjoin session.live).nodes_le
      (session.encoder.timed session.config.timeoutPasses))
    (nodes_le_concludeConjunction _ session.afterConjoin)

theorem checkExhausted_of_exhausted {encoder : Encoder}
    (exhausted : encoder.manager.noticeDeadline.exhaustion ≠ none) :
    ∃ cause, (Encoder.checkExhausted encoder).1 = .error cause := by
  unfold Encoder.checkExhausted
  dsimp only
  rcases found : encoder.manager.noticeDeadline.exhaustion with _ | _ | _
  · exact absurd found exhausted
  · exact ⟨_, rfl⟩
  · exact ⟨_, rfl⟩

theorem checkExhausted_of_late {encoder : Encoder}
    (late : encoder.manager.deadlinePassed = true) :
    ∃ cause, (Encoder.checkExhausted encoder).1 = .error cause := by
  apply checkExhausted_of_exhausted
  unfold DiagramManager.noticeDeadline
  cases known : encoder.manager.exhaustion <;> simp [late, known]

/-- When the manager is refused after the conjunction, nothing is settled. -/
theorem settleConjunction_of_refused
    (refused : ∃ cause, (Encoder.checkExhausted session.afterConjoin.encoder).1 = .error cause) :
    ∃ cause, (settleConjunction session).1 = some (.unknown cause) := by
  obtain ⟨cause, refused⟩ := refused
  have concluded (answer : Option SolverStatus) (conjunction : Edge) :
      (conclude answer { session.afterConjoin with conjunction }).1 = some (.unknown cause) := by
    show unlessExhausted answer (Encoder.checkExhausted session.afterConjoin.encoder).1 = _
    rw [refused]
    rfl
  rw [settleConjunction_run]
  cases (conjoin session.live (session.encoder.timed session.config.timeoutPasses)).1 with
  | error cause' => exact ⟨cause, concluded _ session.conjunction⟩
  | ok edge => exact ⟨cause, concluded _ edge⟩

theorem settleConjunction_of_timeoutPasses (late : session.config.timeoutPasses = true) :
    ∃ cause, (settleConjunction session).1 = some (.unknown cause) :=
  settleConjunction_of_refused
    (checkExhausted_of_late (((budgeted_conjoin session.live).late_eq _).trans late))

end Capped

end Session

end AbstractionRefinement
