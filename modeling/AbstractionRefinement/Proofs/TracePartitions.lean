import AbstractionRefinement.Proofs.SessionInterpolants
import AbstractionRefinement.Proofs.TraceVerdicts

/-!
# Traces in partitions

The checker by interpolants over all prefixes asserts every formula of a trace into a
partition of its own.  All it does with its session is a sequence of calls, and what it
gives for a state is an interpolant between the formulas up to the state and the later
ones, folded back to unindexed variables.
-/

namespace AbstractionRefinement

open AbstractionRefinement.Computation

theorem Assertion.isIn_eq (markers : List Nat) :
    Assertion.isIn markers = fun assertion => assertion.marker.any markers.contains := by
  funext assertion
  unfold isIn
  cases assertion.marker <;> rfl

namespace Session

variable {session : Session}

def labels (session : Session) : List (Expr × Option Nat) :=
  session.live.map fun assertion => (assertion.formula, assertion.marker)

theorem labels_asserted (session : Session) (tracked : Bool) (marker : Option Nat)
    (formula : Expr) : (session.asserted tracked marker formula).labels =
      session.labels ++ [(formula, marker)] := by
  rw [labels, live_asserted, List.map_append]
  rfl

/-- Formulas in partitions that are numbered from the given number on. -/
def numbered (steps : List Expr) (first : Nat) : List (Expr × Option Nat) :=
  (steps.zipIdx first).map (Prod.map id some)

theorem formulas_of_labels {steps : List Expr} {first : Nat}
    (labelled : session.labels = numbered steps first) : session.formulas = steps := by
  have formulas := congrArg (List.map Prod.fst) labelled
  rw [labels, numbered, List.map_map, List.map_map] at formulas
  exact formulas.trans (List.zipIdx_map_fst first steps)

/-- The assertions in the first partitions are the first formulas. -/
theorem divided_of_labels {steps : List Expr} (labelled : session.labels = numbered steps 0)
    (count : Nat) :
    session.inside ((List.range steps.length).take count) = steps.take count ∧
      session.outside ((List.range steps.length).take count) = steps.drop count := by
  have divided (condition : Option Nat → Bool) :
      (session.live.filter fun assertion => condition assertion.marker).map Assertion.formula =
        ((steps.zipIdx 0).filter fun step => condition (some step.2)).map Prod.fst := by
    have filtered := congrArg (fun labels : List (Expr × Option Nat) =>
      (labels.filter fun label => condition label.2).map Prod.fst) labelled
    unfold labels numbered at filtered
    rwa [List.filter_map, List.map_map, List.filter_map, List.map_map] at filtered
  have early : ∀ step ∈ (steps.take count).zipIdx 0,
      ((List.range steps.length).take count).contains step.2 = true := by
    rintro ⟨step, position⟩ member
    have := List.snd_lt_add_of_mem_zipIdx member
    rw [List.length_take] at this
    rw [List.contains_iff_mem, List.take_range, List.mem_range]
    omega
  have late : ∀ step ∈ (steps.drop count).zipIdx (0 + (steps.take count).length),
      ((List.range steps.length).take count).contains step.2 = false := by
    rintro ⟨step, position⟩ member
    have le := List.le_snd_of_mem_zipIdx member
    have lt := List.snd_lt_add_of_mem_zipIdx member
    rw [List.length_take] at le lt
    rw [List.length_drop] at lt
    rw [← Bool.not_eq_true, List.contains_iff_mem, List.take_range, List.mem_range]
    omega
  have split : steps.zipIdx 0 = (steps.take count).zipIdx 0 ++
      (steps.drop count).zipIdx (0 + (steps.take count).length) := by
    rw [← List.zipIdx_append, List.take_append_drop]
  unfold inside outside
  simp only [Assertion.isIn_eq]
  rw [divided fun marker => marker.any ((List.range steps.length).take count).contains,
    divided fun marker => !marker.any ((List.range steps.length).take count).contains, split,
    List.filter_append, List.filter_append]
  simp only [Option.any_some]
  constructor
  · rw [List.filter_eq_self.mpr early, List.filter_eq_nil_iff.mpr, List.append_nil,
      List.zipIdx_map_fst]
    intro step member
    rw [late step member]
    decide
  · rw [List.filter_eq_nil_iff.mpr, List.nil_append, List.filter_eq_self.mpr, List.zipIdx_map_fst]
    · intro step member
      rw [late step member]
      rfl
    · intro step member
      rw [early step member]
      decide

/-- Checks and interpolants keep the assertions. -/
theorem labels_perform {call : SessionCall}
    (quiet : call = .check ∨ ∃ markers, call = .interpolant markers) :
    (call.perform session).labels = session.labels := by
  have effect := call.effect_perform session
  generalize call.perform session = after at effect ⊢
  rcases quiet with rfl | ⟨markers, rfl⟩
  · cases effect with
    | unchanged => rfl
    | asserted asserts => cases asserts
    | answered =>
        obtain ⟨encoder, conjunction, state, -⟩ := settleConjunction_state session
        rw [decideConjunction_run, state]
        rfl
  · cases effect with
    | unchanged => rfl
    | asserted asserts => cases asserts
    | interpolated => rfl

theorem labels_after {calls : List SessionCall}
    (quiet : ∀ call ∈ calls, call = .check ∨ ∃ markers, call = .interpolant markers) :
    (session.after calls).labels = session.labels := by
  induction calls generalizing session with
  | nil => rfl
  | cons call calls ih =>
      exact (ih fun later member => quiet later (List.mem_cons_of_mem _ member)).trans
        (labels_perform (quiet call List.mem_cons_self))

theorem after_append (session : Session) (first second : List SessionCall) :
    session.after (first ++ second) = (session.after first).after second :=
  List.foldl_append

end Session

namespace TraceChecker

open Query

variable {config : SolverConfig} {state : OpenSession}

/-- The calls that assert formulas into new partitions, numbered from the given one on. -/
def partitionCalls : Nat → List Expr → List SessionCall
  | _, [] => []
  | first, step :: steps => .createMarker :: .addTo first step :: partitionCalls (first + 1) steps

/-- The calls that ask for interpolants of the partitions up to the given numbers of them
and more. -/
def interpolantCalls (markers : List Nat) (first count : Nat) : List SessionCall :=
  (List.range count).map fun position => .interpolant (markers.take (first + position))

/-- The partitions of the formulas of a trace up to a state. -/
def leading (path : PathFormula) (position : Nat) : List Nat :=
  (List.range path.steps.length).take (position + 1)

/-- The session of a trace after it was refuted and a number of interpolants were given. -/
def refutedSession (config : SolverConfig) (steps : List Expr) (count : Nat) : Session :=
  (Session.start config .forInterpolation).after
    (partitionCalls 0 steps ++ .check :: interpolantCalls (List.range steps.length) 1 count)

/-- Asserting a formula into a new partition. -/
theorem ensures_addStep_run (formula : Expr) :
    (addStep formula).Ensures state fun marker after =>
      marker = state.session.markers ∧
      after.session = state.session.after (partitionCalls state.session.markers [formula]) ∧
      after.session.labels = state.session.labels ++ [(formula, some state.session.markers)] ∧
      after.session.markers = state.session.markers + 1 := by
  unfold addStep
  rw [ensures_bind]
  apply (ensures_perform_run _).mono
  rintro marker _ ⟨created, rfl⟩
  rw [ensures_bind]
  apply (ensures_perform_run _).mono
  rintro _ _ ⟨added, rfl⟩
  obtain ⟨rfl, opened⟩ := Session.createMarker_state created
  have asserted := Session.addTo_state added
  rw [ensures_pure]
  refine ⟨rfl, rfl, ?_, ?_⟩
  · dsimp only
    rw [asserted, Session.labels_asserted, opened]
    rfl
  · dsimp only
    rw [asserted, opened]
    rfl

/-- Asserting all formulas of a trace. -/
theorem ensures_addSteps_run (steps : List Expr) :
    Computation.Ensures (steps.mapM addStep) state fun markers after =>
      markers = List.range' state.session.markers steps.length ∧
      after.session = state.session.after (partitionCalls state.session.markers steps) ∧
      after.session.labels =
        state.session.labels ++ Session.numbered steps state.session.markers := by
  induction steps generalizing state with
  | nil =>
      rw [List.mapM_nil, ensures_pure]
      exact ⟨rfl, rfl, (List.append_nil _).symm⟩
  | cons step steps ih =>
      rw [List.mapM_cons, ensures_bind]
      apply (ensures_addStep_run step).mono
      rintro _ after ⟨rfl, sameSession, labels, next⟩
      rw [ensures_bind]
      apply ih.mono
      rintro _ after' ⟨rfl, sameSession', labels'⟩
      rw [ensures_pure]
      rw [next] at sameSession' labels'
      refine ⟨?_, ?_, ?_⟩
      · rw [next]
        rfl
      · rw [sameSession', sameSession]
        rfl
      · rw [labels', labels, List.append_assoc]
        rfl

theorem ensures_isSatisfiable_run : isSatisfiable.Ensures state fun _ after =>
    after.session = SessionCall.check.perform state.session := by
  unfold isSatisfiable
  rw [ensures_bind]
  have checked : Query.check.Ensures state fun _ after =>
      after.session = SessionCall.check.perform state.session := rfl
  apply checked.mono
  intro status after same
  cases status with
  | unknown cause => trivial
  | _ => exact same

/-- What is given for the states from one on are interpolants of the sessions that the
earlier ones left. -/
theorem ensures_prefixInterpolants_run (markers : List Nat) (first : Nat)
    (indexings : List Indexing) :
    (prefixInterpolants markers first indexings).Ensures state fun interpolants _ =>
      interpolants.length = indexings.length ∧
      ∀ position indexing, indexings[position]? = some indexing → ∃ interpolant,
        (Session.interpolant (markers.take (first + position))
          (state.session.after (interpolantCalls markers first position))).1 = .ok interpolant ∧
        interpolants[position]? = some (interpolant.fold indexing) := by
  induction indexings generalizing state first with
  | nil =>
      rw [prefixInterpolants, ensures_pure]
      exact ⟨rfl, by rintro position indexing ⟨⟩⟩
  | cons indexing indexings ih =>
      rw [prefixInterpolants, ensures_bind]
      apply (ensures_perform_run _).mono
      rintro interpolant _ ⟨given, rfl⟩
      rw [ensures_bind]
      apply (ih (first + 1)).mono
      rintro interpolants after ⟨sameLength, rest⟩
      rw [ensures_pure]
      refine ⟨by rw [List.length_cons, List.length_cons, sameLength], ?_⟩
      intro position later isLater
      cases position with
      | zero =>
          cases isLater
          exact ⟨interpolant, given, rfl⟩
      | succ position =>
          obtain ⟨interpolant', given', same⟩ := rest position later isLater
          refine ⟨interpolant', ?_, same⟩
          have shifted : interpolantCalls markers first (position + 1) =
              .interpolant (markers.take first) :: interpolantCalls markers (first + 1) position := by
            unfold interpolantCalls
            rw [List.range_succ_eq_map, List.map_cons, List.map_map]
            refine congrArg _ (List.map_congr_left fun other _ => ?_)
            show SessionCall.interpolant (markers.take (first + (other + 1))) = _
            rw [Nat.add_right_comm, ← Nat.add_assoc]
          rw [shifted]
          rwa [Nat.add_right_comm, Nat.add_assoc] at given'

/-- What the checker gives for the states of a trace: interpolants between the formulas up
to the state and the later ones, folded back. -/
structure GivesInterpolants (config : SolverConfig) (path : PathFormula)
    (interpolants : List Expr) : Prop where
  length_eq : interpolants.length = path.indexings.length
  given {position : Nat} {indexing : Indexing} : path.indexings[position]? = some indexing →
    ∃ interpolant, (Session.interpolant (leading path position)
        (refutedSession config path.steps position)).1 = .ok interpolant ∧
      interpolants[position]? = some (interpolant.fold indexing)
  labels (position : Nat) :
    (refutedSession config path.steps position).labels = Session.numbered path.steps 0

theorem ensures_checkBySequence_run (path : PathFormula) (statistics : SolverStatistics) :
    (checkBySequence path).Ensures ⟨.start config .forInterpolation, statistics⟩
      fun outcome _ => ∀ interpolants, outcome = .inr interpolants →
        GivesInterpolants config path interpolants := by
  unfold checkBySequence
  rw [ensures_bind]
  apply (ensures_addSteps_run path.steps).mono
  rintro _ after ⟨rfl, sameSession, labels⟩
  rw [ensures_bind]
  apply ensures_isSatisfiable_run.mono
  intro answer after' sameSession'
  split
  case isTrue =>
    rw [ensures_bind]
    apply ensures_of_run
    intro model _ _
    rw [ensures_pure]
    rintro _ ⟨⟩
  case isFalse =>
    rw [ensures_bind]
    apply (ensures_prefixInterpolants_run _ 1 path.indexings).mono
    rintro interpolants after'' ⟨sameLength, given⟩
    rw [ensures_pure]
    rintro _ ⟨⟩
    dsimp only at sameSession labels given
    have reached (position : Nat) : after'.session.after
        (interpolantCalls (List.range' 0 path.steps.length) 1 position) =
          refutedSession config path.steps position := by
      rw [refutedSession, Session.after_append, sameSession', sameSession, List.range_eq_range']
      rfl
    refine ⟨sameLength, fun {position indexing} isIndexing => ?_, fun position => ?_⟩
    · obtain ⟨interpolant, returned, same⟩ := given position indexing isIndexing
      refine ⟨interpolant, ?_, same⟩
      rw [leading, ← reached, List.range_eq_range', Nat.add_comm position]
      exact returned
    · have first : (Session.start config .forInterpolation).markers = 0 := rfl
      rw [first] at sameSession
      rw [refutedSession, Session.after_append, ← sameSession, Session.labels_after, labels]
      · rfl
      · rintro call member
        rcases List.mem_cons.mp member with rfl | member
        · exact .inl rfl
        · obtain ⟨position, -, rfl⟩ := List.mem_map.mp member
          exact .inr ⟨_, rfl⟩

theorem ensures_inSession_run {α : Type} (theme : SessionTheme) {query : Query α}
    {statistics : SolverStatistics} {returns : α → Prop}
    (answers : ∀ statistics : SolverStatistics,
      query.Ensures ⟨.start config theme, statistics⟩ fun result _ => returns result) :
    (inSession config theme query).Ensures statistics fun result _ => returns result := by
  unfold inSession openSession
  simp only [ensures_bind, ensures_modify]
  split
  case isTrue => trivial
  case isFalse =>
    rw [ensures_pure]
    exact ensures_runIn (answers _)

/-- A refutation by the checker consists of interpolants of the trace. -/
theorem ensures_check_run {σ α : Type} [ExprState σ] [ExprAction α] {initial target : Expr}
    {trace : Trace σ α} {path : PathFormula}
    (written : PathFormula.ofTrace initial target trace = .ok path)
    (statistics : SolverStatistics) :
    (sequenceInterpolation.check config initial target trace).Ensures statistics fun outcome _ =>
      ∀ refutation, outcome = .infeasible (.interpolants refutation) →
        GivesInterpolants config path refutation.interpolants := by
  unfold check
  rw [written, ensures_bind, ensures_ofFormula]
  rintro _ ⟨⟩
  rw [ensures_bind]
  apply (ensures_inSession_run .forInterpolation
    (ensures_checkBySequence_run path)).mono
  rintro (concrete | interpolants) after given
  · rw [ensures_pure]
    rintro _ ⟨⟩
  · unfold refuteByInterpolants
    rw [ensures_bind]
    apply ensures_of_run
    intro pruneIndex _ _
    rw [ensures_pure]
    rintro _ ⟨⟩
    exact given interpolants rfl

end TraceChecker

end AbstractionRefinement
