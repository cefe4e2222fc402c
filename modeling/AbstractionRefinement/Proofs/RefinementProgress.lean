import AbstractionRefinement.Proofs.RefinementRounds

/-!
# Progress of the refinement loop

Between two changes of the precision every round leaves fewer nodes of older versions.  If the
precisions are sets that only grow, within a finite set, the number of missing items and the
number of nodes of older versions decrease lexicographically from round to round, and the loop
ends.
-/

namespace AbstractionRefinement

open AbstractionRefinement.Computation

namespace Verifier

open ReachabilityGraph

variable {ω σ α π : Type} {verifier : Verifier ω σ α π} {budget : Budget ω}

section Stages

variable [Precision π] [DecidableEq π] (verifier budget)

/-- The loop at the beginning of a round. -/
structure Stage (ω σ α π : Type) where
  precision : π
  version : Nat
  state : RunState ω σ α

/-- The counterexample of the round is found spurious. -/
def Answers (stage : Stage ω σ α π) (answer : SpuriousAnswer π) (after : RunState ω σ α) : Prop :=
  SettlesOn (fun fuel => verifier.examine budget fuel stage.precision stage.version stage.state)
    (.ok (.inr answer), after)

/-- A round leads on to another one. -/
def Advances (stage next : Stage ω σ α π) : Prop :=
  ∃ answer after, verifier.Answers budget stage answer after ∧
    verifier.react stage.precision stage.version answer after =
      (.ok (next.precision, next.version), next.state)

/-- The stages of a run, with the number of changes of the precision before them. -/
inductive ReachedAfter (start : Stage ω σ α π) : Nat → Stage ω σ α π → Prop where
  | start : ReachedAfter start 0 start
  | same {changes : Nat} {stage next : Stage ω σ α π} (reached : ReachedAfter start changes stage)
      (advances : verifier.Advances budget stage next) (same : next.precision = stage.precision) :
      ReachedAfter start changes next
  | changed {changes : Nat} {stage next : Stage ω σ α π}
      (reached : ReachedAfter start changes stage) (advances : verifier.Advances budget stage next)
      (changed : next.precision ≠ stage.precision) : ReachedAfter start (changes + 1) next

/-- The run from the stage ends, and with this result, if it is not cut off. -/
def Concludes (stage : Stage ω σ α π) (result : Except EngineError (SafetyOutcome σ α π))
    (last : RunState ω σ α) : Prop :=
  ∃ enough, ∀ explorationFuel fuel, enough ≤ explorationFuel → enough ≤ fuel →
    verifier.loop budget explorationFuel fuel stage.precision stage.version stage.state =
      (result, last)

variable {verifier budget} {start stage next : Stage ω σ α π}

/-- The round goes as its first part does for large bounds. -/
theorem loop_of_settles {examined : SafetyOutcome σ α π ⊕ SpuriousAnswer π}
    {after : RunState ω σ α}
    (settles : SettlesOn (fun fuel =>
      verifier.examine budget fuel stage.precision stage.version stage.state)
        (.ok examined, after)) :
    ∃ enough, ∀ explorationFuel fuel, enough ≤ explorationFuel →
      verifier.loop budget explorationFuel (fuel + 1) stage.precision stage.version stage.state =
        verifier.resume budget explorationFuel fuel stage.precision stage.version examined
          after := by
  obtain ⟨enough, gives⟩ := settles
  refine ⟨enough, fun explorationFuel fuel large => ?_⟩
  have examines := gives explorationFuel large
  dsimp only at examines
  rw [loop_succ, bind_run, examines]

theorem Concludes.of_loop {result : Except EngineError (SafetyOutcome σ α π)}
    {last : RunState ω σ α}
    (ends : ∃ enough, ∀ explorationFuel fuel, enough ≤ explorationFuel → enough ≤ fuel →
      verifier.loop budget explorationFuel (fuel + 1) stage.precision stage.version stage.state =
        (result, last)) : verifier.Concludes budget stage result last := by
  obtain ⟨enough, gives⟩ := ends
  refine ⟨enough + 1, fun explorationFuel fuel largeExploration large => ?_⟩
  obtain ⟨fuel, rfl⟩ : ∃ rest, fuel = rest + 1 := ⟨fuel - 1, by omega⟩
  exact gives explorationFuel fuel (by omega) (by omega)

theorem Advances.concludes {result : Except EngineError (SafetyOutcome σ α π)}
    {last : RunState ω σ α} (advances : verifier.Advances budget stage next)
    (ends : verifier.Concludes budget next result last) :
    verifier.Concludes budget stage result last := by
  obtain ⟨answer, after, answers, reacts⟩ := advances
  obtain ⟨enough, rounds⟩ := loop_of_settles answers
  obtain ⟨enough', ends⟩ := ends
  refine .of_loop ⟨max enough enough', fun explorationFuel fuel largeExploration large => ?_⟩
  rw [rounds explorationFuel fuel (by omega), resume, bind_run, reacts]
  exact ends explorationFuel fuel (by omega) (by omega)

theorem ReachedAfter.concludes {changes : Nat} {result : Except EngineError (SafetyOutcome σ α π)}
    {last : RunState ω σ α} (reached : verifier.ReachedAfter budget start changes stage)
    (ends : verifier.Concludes budget stage result last) :
    verifier.Concludes budget start result last := by
  induction reached with
  | start => exact ends
  | same _ advances _ ih => exact ih (advances.concludes ends)
  | changed _ advances _ ih => exact ih (advances.concludes ends)

theorem Answers.concludes {answer : SpuriousAnswer π} {after last : RunState ω σ α}
    {error : EngineError} (answers : verifier.Answers budget stage answer after)
    (fails : verifier.react stage.precision stage.version answer after = (.error error, last)) :
    verifier.Concludes budget stage (.error error) last := by
  obtain ⟨enough, rounds⟩ := loop_of_settles answers
  refine .of_loop ⟨enough, fun explorationFuel fuel largeExploration _ => ?_⟩
  rw [rounds explorationFuel fuel largeExploration, resume, bind_run, fails]

/-- A round with a terminating abstraction step leads on to another one or ends the run. -/
theorem advances_or_concludes {result : Except EngineError ExplorationStatus × RunState ω σ α}
    (terminates : SettlesOn (fun fuel =>
      verifier.abstractionStep budget fuel stage.precision stage.version stage.state) result) :
    (∃ next, verifier.Advances budget stage next) ∨
      (∀ next, ¬ verifier.Advances budget stage next) ∧
        ∃ result last, verifier.Concludes budget stage result last := by
  obtain ⟨enough, gives⟩ := terminates
  have settles : SettlesOn (fun fuel =>
      verifier.examine budget fuel stage.precision stage.version stage.state)
      (verifier.examine budget enough stage.precision stage.version stage.state) :=
    ⟨enough, fun fuel large =>
      examine_congr ((gives fuel large).trans (gives enough (Nat.le_refl enough)).symm)⟩
  rcases examined : verifier.examine budget enough stage.precision stage.version stage.state with
    ⟨error | outcome | answer, after⟩ <;> rw [examined] at settles
  · refine .inr ⟨?_, .error error, after, ?_⟩
    · rintro next ⟨answer, other, answers, -⟩
      cases answers.unique settles
    · obtain ⟨enough, gives⟩ := settles
      refine .of_loop ⟨enough, fun explorationFuel fuel large _ => ?_⟩
      have examines := gives explorationFuel large
      dsimp only at examines
      rw [loop_succ, bind_run, examines]
  · refine .inr ⟨?_, .ok outcome, after, ?_⟩
    · rintro next ⟨answer, other, answers, -⟩
      cases answers.unique settles
    · obtain ⟨enough, rounds⟩ := loop_of_settles settles
      exact .of_loop ⟨enough, fun explorationFuel fuel large _ => rounds explorationFuel fuel large⟩
  · rcases reacts : verifier.react stage.precision stage.version answer after with
      ⟨error | ⟨refined, version⟩, last⟩
    · refine .inr ⟨?_, .error error, last, Answers.concludes settles reacts⟩
      rintro next ⟨answer', after', answers, reacts'⟩
      obtain ⟨⟩ := answers.unique settles
      cases reacts.symm.trans reacts'
    · exact .inl ⟨⟨refined, version, last⟩, answer, after, settles, reacts⟩

omit [DecidableEq π] in
theorem Answers.examined {answer : SpuriousAnswer π} {after : RunState ω σ α}
    (answers : verifier.Answers budget stage answer after)
    (reached : verifier.HasReached (fun _ => True) stage.state) :
    verifier.Examined stage.precision stage.version stage.state answer after := by
  obtain ⟨enough, gives⟩ := answers
  exact examined_of_examine reached (gives enough (Nat.le_refl enough))

theorem Advances.hasReached (advances : verifier.Advances budget stage next)
    (reached : verifier.HasReached (fun _ => True) stage.state) :
    verifier.HasReached (fun _ => True) next.state := by
  obtain ⟨answer, after, answers, reacts⟩ := advances
  exact (reached_react _ _ answer after (answers.examined reached).reached).of_run reacts

theorem ReachedAfter.hasReached {changes : Nat}
    (reached : verifier.ReachedAfter budget start changes stage)
    (empty : start.state.exploration.graph = .empty) :
    verifier.HasReached (fun _ => True) stage.state := by
  induction reached with
  | start =>
      unfold HasReached
      rw [empty]
      exact .empty
  | same _ advances _ ih => exact advances.hasReached ih
  | changed _ advances _ ih => exact advances.hasReached ih

/-- A round that leads on leaves fewer stale nodes, or comes to a refined precision. -/
theorem Advances.cases (advances : verifier.Advances budget stage next)
    (reached : verifier.HasReached (fun _ => True) stage.state) :
    (next.precision = stage.precision ∧ next.version = stage.version ∧
      next.state.exploration.graph.staleCount stage.version <
        stage.state.exploration.graph.staleCount stage.version) ∨
    (next.precision ≠ stage.precision ∧ next.version = stage.version + 1 ∧
      ∃ answer after, verifier.Answers budget stage answer after ∧
        next.precision = answer.refined) := by
  obtain ⟨answer, after, answers, reacts⟩ := advances
  have examined := answers.examined reached
  by_cases same : answer.refined = stage.precision
  · left
    have fewer := staleCount_le examined.staleFrom
    rcases react_same examined.reached.wellFormed.1 same with ⟨-, stalls⟩ | ⟨_, last, -, -, goesOn, less⟩
    · cases stalls.symm.trans reacts
    · obtain ⟨equal, rfl⟩ := Prod.mk.inj (goesOn.symm.trans reacts)
      obtain ⟨precision_eq, version_eq⟩ := Prod.mk.inj (Except.ok.inj equal)
      exact ⟨precision_eq.symm, version_eq.symm, Nat.lt_of_lt_of_le less fewer⟩
  · obtain ⟨refined, following⟩ := react_changed same reacts
    exact .inr ⟨fun equal => same (refined ▸ equal), following, answer, after, answers, refined⟩

theorem ReachedAfter.version_eq {changes : Nat}
    (reached : verifier.ReachedAfter budget start changes stage)
    (empty : start.state.exploration.graph = .empty) :
    stage.version = start.version + changes := by
  induction reached with
  | start => rfl
  | same reached advances same ih =>
      rcases advances.cases (reached.hasReached empty) with ⟨-, current, -⟩ | ⟨changed, -⟩
      · exact current.trans ih
      · exact absurd same changed
  | changed reached advances changed ih =>
      rcases advances.cases (reached.hasReached empty) with ⟨same, -⟩ | ⟨-, following, -⟩
      · exact absurd same changed
      · rw [following, ih, Nat.add_assoc]

end Stages

section Growth

variable [Precision π] [DecidableEq π] {ι : Type}

/-- Precisions are sets of items, and what the refiner makes of them in the run is greater, within
a finite set. -/
structure GrowsWithin (verifier : Verifier ω σ α π) (budget : Budget ω) (start : Stage ω σ α π)
    (items : π → Finset ι) (everything : Finset ι) : Prop where
  injective : Function.Injective items
  initial : items start.precision ⊆ everything
  grows {changes : Nat} {stage : Stage ω σ α π} {answer : SpuriousAnswer π}
    {after : RunState ω σ α} : verifier.ReachedAfter budget start changes stage →
      verifier.Answers budget stage answer after →
        items stage.precision ⊆ items answer.refined ∧ items answer.refined ⊆ everything

variable {start stage next : Stage ω σ α π} {items : π → Finset ι} {everything : Finset ι}
  {changes : Nat}

theorem GrowsWithin.within (growsWithin : verifier.GrowsWithin budget start items everything)
    (empty : start.state.exploration.graph = .empty)
    (reached : verifier.ReachedAfter budget start changes stage) :
    items stage.precision ⊆ everything := by
  induction reached with
  | start => exact growsWithin.initial
  | same _ _ same ih => exact same ▸ ih
  | changed reached advances changed _ =>
      rcases advances.cases (reached.hasReached empty) with
        ⟨same, -⟩ | ⟨-, -, answer, after, answers, refined⟩
      · exact absurd same changed
      · exact refined ▸ (growsWithin.grows reached answers).2

theorem GrowsWithin.card_lt (growsWithin : verifier.GrowsWithin budget start items everything)
    (empty : start.state.exploration.graph = .empty)
    (reached : verifier.ReachedAfter budget start changes stage)
    (advances : verifier.Advances budget stage next) (changed : next.precision ≠ stage.precision) :
    (items stage.precision).card < (items next.precision).card := by
  rcases advances.cases (reached.hasReached empty) with
    ⟨same, -⟩ | ⟨-, -, answer, after, answers, refined⟩
  · exact absurd same changed
  · refine Finset.card_lt_card (Finset.ssubset_iff_subset_ne.mpr ⟨?_, fun equal => ?_⟩)
    · exact refined ▸ (growsWithin.grows reached answers).1
    · exact changed (growsWithin.injective equal).symm

theorem GrowsWithin.changes_le (growsWithin : verifier.GrowsWithin budget start items everything)
    (empty : start.state.exploration.graph = .empty)
    (reached : verifier.ReachedAfter budget start changes stage) :
    changes ≤ (items stage.precision).card := by
  induction reached with
  | start => exact Nat.zero_le _
  | same _ _ same ih => exact same ▸ ih
  | changed reached advances changed ih =>
      exact Nat.lt_of_le_of_lt ih (growsWithin.card_lt empty reached advances changed)

def remaining (items : π → Finset ι) (everything : Finset ι) (stage : Stage ω σ α π) : Nat × Nat :=
  (everything.card - (items stage.precision).card,
    stage.state.exploration.graph.staleCount stage.version)

theorem GrowsWithin.remaining_lt (growsWithin : verifier.GrowsWithin budget start items everything)
    (empty : start.state.exploration.graph = .empty)
    (reached : verifier.ReachedAfter budget start changes stage)
    (advances : verifier.Advances budget stage next) :
    Prod.Lex (· < ·) (· < ·) (remaining items everything next)
      (remaining items everything stage) := by
  unfold remaining
  rcases advances.cases (reached.hasReached empty) with ⟨same, current, fewer⟩ | ⟨changed, -⟩
  · rw [same, current]
    exact .right _ fewer
  · have more := growsWithin.card_lt empty reached advances changed
    have bounded := Finset.card_le_card
      (growsWithin.within empty (.changed reached advances changed))
    exact .left _ _ (by omega)

/-- What holds of a reached stage if it holds of those that follow it holds of all of them. -/
theorem GrowsWithin.induction (growsWithin : verifier.GrowsWithin budget start items everything)
    (empty : start.state.exploration.graph = .empty) {motive : Stage ω σ α π → Prop}
    (step : ∀ changes stage, verifier.ReachedAfter budget start changes stage →
      (∀ next, verifier.Advances budget stage next → motive next) → motive stage)
    (reached : verifier.ReachedAfter budget start changes stage) : motive stage := by
  have wellFounded : WellFounded (Prod.Lex (· < ·) (· < ·) : Nat × Nat → Nat × Nat → Prop) :=
    (Prod.lex ⟨_, wellFounded_lt⟩ ⟨_, wellFounded_lt⟩).wf
  induction left : remaining items everything stage using wellFounded.induction
    generalizing changes stage with
  | h left ih =>
      subst left
      refine step changes stage reached fun next advances => ?_
      have less := growsWithin.remaining_lt empty reached advances
      by_cases same : next.precision = stage.precision
      · exact ih _ less (.same reached advances same) rfl
      · exact ih _ less (.changed reached advances same) rfl

/-- The stage that a bounded round leads to. -/
def Stage.following? (verifier : Verifier ω σ α π) (budget : Budget ω) (fuel : Nat)
    (stage : Stage ω σ α π) : Option (Stage ω σ α π) :=
  match verifier.examine budget fuel stage.precision stage.version stage.state with
  | (.ok (.inr answer), after) =>
      match verifier.react stage.precision stage.version answer after with
      | (.ok (precision, version), state) => some { precision, version, state }
      | _ => none
  | _ => none

/-- Bounded abstraction steps are not cut off in any round from the stage on. -/
def Stage.finishes (verifier : Verifier ω σ α π) (budget : Budget ω) (fuel : Nat) :
    Nat → Stage ω σ α π → Bool
  | 0, _ => false
  | rounds + 1, stage =>
      decide ((verifier.abstractionStep budget fuel stage.precision stage.version stage.state).1 ≠
        .error .outOfFuel) &&
        (stage.following? verifier budget fuel).all (Stage.finishes verifier budget fuel rounds)

theorem Advances.following?_eq {fuel : Nat} (advances : verifier.Advances budget stage next)
    (notCut : (verifier.abstractionStep budget fuel stage.precision stage.version
      stage.state).1 ≠ .error .outOfFuel) :
    stage.following? verifier budget fuel = some next := by
  obtain ⟨answer, after, ⟨enough, gives⟩, reacts⟩ := advances
  obtain ⟨enough', settles⟩ :=
    (persistent_abstractionStep stage.precision stage.version).settlesOn notCut
  have examined := gives (max enough enough') (Nat.le_max_left ..)
  dsimp only at examined
  rw [examine_congr (settles (max enough enough') (Nat.le_max_right ..))] at examined
  simp only [Stage.following?, examined, reacts]

/-- A run that is seen to finish consists of terminating abstraction steps. -/
theorem terminates_of_finishes {fuel rounds : Nat}
    (finishes : start.finishes verifier budget fuel rounds = true)
    (reached : verifier.ReachedAfter budget start changes stage) :
    ∃ result, SettlesOn (fun fuel =>
      verifier.abstractionStep budget fuel stage.precision stage.version stage.state) result := by
  -- Every reached stage finishes as well.
  have goesOn {rounds : Nat} {stage next : Stage ω σ α π}
      (finishes : stage.finishes verifier budget fuel rounds = true)
      (advances : verifier.Advances budget stage next) :
      ∃ rounds, next.finishes verifier budget fuel rounds = true := by
    cases rounds with
    | zero => cases finishes
    | succ rounds =>
        rw [Stage.finishes, Bool.and_eq_true, decide_eq_true_eq] at finishes
        obtain ⟨notCut, rest⟩ := finishes
        rw [advances.following?_eq notCut, Option.all_some] at rest
        exact ⟨rounds, rest⟩
  obtain ⟨rounds, finishes⟩ : ∃ rounds, stage.finishes verifier budget fuel rounds = true := by
    induction reached with
    | start => exact ⟨rounds, finishes⟩
    | same _ advances _ ih =>
        obtain ⟨_, finishes⟩ := ih
        exact goesOn finishes advances
    | changed _ advances _ ih =>
        obtain ⟨_, finishes⟩ := ih
        exact goesOn finishes advances
  cases rounds with
  | zero => cases finishes
  | succ rounds =>
      rw [Stage.finishes, Bool.and_eq_true, decide_eq_true_eq] at finishes
      exact ⟨_, (persistent_abstractionStep stage.precision stage.version).settlesOn finishes.1⟩

/-- The stage in which a verification starts. -/
def Stage.first (precision : π) (begin : ω × ExplorationStatus) : Stage ω σ α π where
  precision
  version := 0
  state := { exploration := { world := begin.1, graph := .empty, status := begin.2 }, statistics := {} }

variable {limits : ResourceLimits} {checks : ω → Nat} {precision : π}
  {begin : ω × ExplorationStatus}

theorem Concludes.settlesOn_verify {result : Except EngineError (SafetyOutcome σ α π)}
    {last : RunState ω σ α}
    (ends : verifier.Concludes (.start limits checks begin.1) (.first precision begin) result last) :
    ∃ ended, SettlesOn (fun fuel => verifier.verify limits checks fuel precision begin) ended ∧
      ∀ error, result = .error error → ended.1.outcome = .unknown (.ofError error) := by
  obtain ⟨world, status⟩ := begin
  obtain ⟨enough, gives⟩ := ends
  dsimp only [Stage.first] at gives
  refine ⟨verifier.verify limits checks enough precision (world, status),
    ⟨enough, fun fuel large => ?_⟩, ?_⟩
  · unfold Verifier.verify
    dsimp only
    rw [gives fuel fuel large large, gives enough enough (Nat.le_refl _) (Nat.le_refl _)]
  · rintro error rfl
    unfold Verifier.verify
    dsimp only
    rw [gives enough enough (Nat.le_refl _) (Nat.le_refl _)]

/-- What follows from an answer that teaches nothing new. -/
inductive StallsOrPrunes (verifier : Verifier ω σ α π) (limits : ResourceLimits)
    (checks : ω → Nat) (precision : π) (begin : ω × ExplorationStatus) (stage : Stage ω σ α π)
    (path : List Nat) (after : RunState ω σ α) : Prop where
  /-- Without a node of an older version on the path the run ends. -/
  | stalls {ended : SafetyResult σ α π × (ω × ExplorationStatus)}
      (fresh : Explorer.Fresh after.exploration.graph stage.version path)
      (settles : SettlesOn (fun fuel => verifier.verify limits checks fuel precision begin) ended)
      (stalled : ended.1.outcome =
        .unknown (.fatal (.refinementStalled after.statistics.iterations)))
  /-- The first such node is pruned, and fewer are left. -/
  | prunes {position : Nat} {next : RunState ω σ α}
      (first : IsFirstStale after.exploration.graph stage.version path position)
      (pruned : verifier.pruneAt path position (countRefinement after) = (.ok (), next))
      (advances : verifier.Advances (.start limits checks begin.1) stage
        ⟨stage.precision, stage.version, next⟩)
      (fewer : next.exploration.graph.staleCount stage.version <
        after.exploration.graph.staleCount stage.version)

theorem Answers.stallsOrPrunes {answer : SpuriousAnswer π} {after : RunState ω σ α}
    (reached : verifier.ReachedAfter (.start limits checks begin.1) (.first precision begin)
      changes stage)
    (answers : verifier.Answers (.start limits checks begin.1) stage answer after)
    (same : answer.refined = stage.precision) :
    verifier.StallsOrPrunes limits checks precision begin stage answer.path after := by
  have examined := answers.examined (reached.hasReached rfl)
  rcases react_same examined.reached.wellFormed.1 same with
    ⟨fresh, stalls⟩ | ⟨position, next, first, pruned, goesOn, fewer⟩
  · obtain ⟨ended, settles, outcome⟩ :=
      (reached.concludes (answers.concludes stalls)).settlesOn_verify
    exact .stalls fresh settles (outcome _ rfl)
  · exact .prunes first pruned ⟨answer, after, answers, goesOn⟩ fewer

/-- The loop makes progress.  If precisions are sets that only grow, within a finite set, the
precision changes at most as often as there are items.  Exploration builds no node of an older
version, and a spurious answer that leaves the precision unchanged ends the run as a stalled
refinement or prunes the first node of an older version on the path, after which fewer of them
are left.  So no run is endless, and a run whose abstraction steps terminate has a last round and
ends, whatever the limits are. -/
theorem refinement_makes_progress (verifier : Verifier ω σ α π) (limits : ResourceLimits)
    (checks : ω → Nat) (precision : π) (begin : ω × ExplorationStatus)
    (items : π → Finset ι) (everything : Finset ι)
    (growsWithin : verifier.GrowsWithin (.start limits checks begin.1) (.first precision begin)
      items everything) :
    (∀ changes stage,
      verifier.ReachedAfter (.start limits checks begin.1) (.first precision begin) changes stage →
        stage.version = changes ∧ changes ≤ everything.card) ∧
    (∀ changes stage answer after,
      verifier.ReachedAfter (.start limits checks begin.1) (.first precision begin) changes stage →
      verifier.Answers (.start limits checks begin.1) stage answer after →
        StaleFrom stage.version stage.state.exploration.graph after.exploration.graph ∧
        (answer.refined = stage.precision →
          verifier.StallsOrPrunes limits checks precision begin stage answer.path after)) ∧
    (¬ ∃ stages : Nat → Stage ω σ α π, stages 0 = .first precision begin ∧
      ∀ round, verifier.Advances (.start limits checks begin.1) (stages round)
        (stages (round + 1))) ∧
    ((∀ changes stage,
      verifier.ReachedAfter (.start limits checks begin.1) (.first precision begin) changes stage →
        ∃ result, SettlesOn (fun fuel => verifier.abstractionStep (.start limits checks begin.1)
          fuel stage.precision stage.version stage.state) result) →
      (∃ changes last,
        verifier.ReachedAfter (.start limits checks begin.1) (.first precision begin) changes
          last ∧ ∀ next, ¬ verifier.Advances (.start limits checks begin.1) last next) ∧
      ∃ ended, SettlesOn (fun fuel => verifier.verify limits checks fuel precision begin)
        ended) := by
  refine ⟨fun changes stage reached => ⟨?_, ?_⟩, fun changes stage answer after reached answers =>
    ⟨(answers.examined (reached.hasReached rfl)).staleFrom, answers.stallsOrPrunes reached⟩,
    ?endless, fun terminates => ?ends⟩
  · rw [reached.version_eq rfl]
    exact Nat.zero_add changes
  · exact Nat.le_trans (growsWithin.changes_le rfl reached)
      (Finset.card_le_card (growsWithin.within rfl reached))
  case endless =>
    refine growsWithin.induction rfl (motive := fun stage => ¬ ∃ stages : Nat → Stage ω σ α π,
      stages 0 = stage ∧ ∀ round, verifier.Advances _ (stages round) (stages (round + 1)))
      (fun _ _ _ ih => ?_) .start
    rintro ⟨stages, rfl, advances⟩
    exact ih (stages 1) (advances 0)
      ⟨fun round => stages (round + 1), rfl, fun round => advances (round + 1)⟩
  case ends =>
    have concluded : (∃ changes last,
        verifier.ReachedAfter (.start limits checks begin.1) (.first precision begin) changes
          last ∧ ∀ next, ¬ verifier.Advances (.start limits checks begin.1) last next) ∧
        ∃ result last, verifier.Concludes (.start limits checks begin.1) (.first precision begin)
          result last := by
      refine growsWithin.induction rfl (motive := fun stage => _ ∧ ∃ result last,
        verifier.Concludes (.start limits checks begin.1) stage result last)
        (fun changes stage reached ih => ?_) .start
      obtain ⟨_, settles⟩ := terminates changes stage reached
      rcases advances_or_concludes settles with ⟨next, advances⟩ | ⟨none, ends⟩
      · obtain ⟨hasLast, result, last, ends⟩ := ih next advances
        exact ⟨hasLast, result, last, advances.concludes ends⟩
      · exact ⟨⟨changes, stage, reached, none⟩, ends⟩
    obtain ⟨hasLast, result, last, ends⟩ := concluded
    obtain ⟨ended, settles, -⟩ := ends.settlesOn_verify
    exact ⟨hasLast, ended, settles⟩

end Growth

section Stubborn

/-- A counter advances from zero to two, where it is a target.  Every counterexample is found
spurious, for want of the one item that there is. -/
def stubbornVerifier : Verifier Unit Nat Unit ParityPrecision where
  explorer :=
    { analysis :=
        { top := fun _ => 0
          isBottom := fun _ => false
          leq := fun _ first second => first = second
          join := fun _ _ _ => none
          hasExactJoin := false
          initialStates := fun _ => return [0]
          successors := fun _ count _ => return [count + 1] }
      enabled := fun _ => [()]
      target := fun count => return count = 2
      projection := fun _ => 0
      strategy := .depthFirst
      stop := .firstTarget
      coverage := .single }
  refiner := fun _ _ => return .spurious .fine 2
  prune := .lazy

def ParityPrecision.items : ParityPrecision → Finset Unit
  | .coarse => ∅
  | .fine => {()}

theorem stubbornVerifier_growsWithin :
    stubbornVerifier.GrowsWithin (.start {} (fun _ => 0) ()) (.first .coarse ((), .idle))
      ParityPrecision.items {()} where
  injective := by
    rintro (_ | _) (_ | _) equal
    · rfl
    · exact absurd equal.symm (Finset.singleton_ne_empty ())
    · exact absurd equal (Finset.singleton_ne_empty ())
    · rfl
  initial := Finset.empty_subset _
  grows {changes stage answer after} reached answers := by
    obtain ⟨_, _, _, answered⟩ := (answers.examined (reached.hasReached rfl)).answered
    obtain ⟨refined, -⟩ := RefinementResult.spurious.inj (Except.ok.inj (Prod.mk.inj answered).1)
    rw [← refined]
    refine ⟨?_, Finset.Subset.refl _⟩
    cases stage.precision
    · exact Finset.empty_subset _
    · exact Finset.Subset.refl _

/-- The first counterexample changes the precision, the second one is pruned where it is old, and
the third one ends the run. -/
theorem stubbornVerifier_ends :
    (stubbornVerifier.verify {} (fun _ => 0) 9 .coarse ((), .idle)).1.outcome.reason =
        some (.fatal (.refinementStalled 3)) ∧
      stubbornVerifier.GrowsWithin (.start {} (fun _ => 0) ()) (.first .coarse ((), .idle))
        ParityPrecision.items {()} ∧
      ∃ ended, SettlesOn (fun fuel =>
        stubbornVerifier.verify {} (fun _ => 0) fuel .coarse ((), .idle)) ended := by
  obtain ⟨-, -, -, ends⟩ := refinement_makes_progress stubbornVerifier {} (fun _ => 0) .coarse
    ((), .idle) ParityPrecision.items {()} stubbornVerifier_growsWithin
  have finishes : Stage.finishes stubbornVerifier (.start {} (fun _ => 0) ()) 9 9
      (.first .coarse ((), .idle)) = true := by
    decide +kernel
  exact ⟨by decide +kernel, stubbornVerifier_growsWithin,
    (ends fun _ _ reached => terminates_of_finishes finishes reached).2⟩

end Stubborn

end Verifier

end AbstractionRefinement
