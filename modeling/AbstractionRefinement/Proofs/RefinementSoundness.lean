import AbstractionRefinement.Proofs.ExplorationSoundness

/-!
# A safe verdict excludes bad runs

The refinement loop alternates exploration with arbitrary changes of precision
and with pruning at arbitrary nodes.  All of this keeps the graph sound, so the
complete graph behind a safe verdict excludes every run into a bad state,
whatever the refiner answers and whatever shapes the exploration.
-/

namespace AbstractionRefinement

/-- An explorer that is sound for a concretization: its analysis covers the
concrete initial states and steps under every precision, only states without
concrete states are bottom, the order and the joins agree with inclusion and
union, and every state that stands for a bad state is a target. -/
structure Explorer.SoundAbstraction {ω σ α π κ : Type} (explorer : Explorer ω σ α π)
    (system : ConcreteSystem κ α) (concretizes : σ → κ → Prop) (bad : κ → Prop) : Prop where
  initial_covers {precision : π} {world after : ω} {states : List σ} {state : κ} :
    explorer.analysis.initialStates precision world = (.ok states, after) →
      system.initial state → ∃ s ∈ states, concretizes s state
  enabled_covers {s : σ} {state next : κ} {action : α} :
    concretizes s state → system.step state action next → action ∈ explorer.enabled s
  successors_cover {precision : π} {s : σ} {action : α} {world after : ω} {states : List σ}
    {state next : κ} :
    explorer.analysis.successors precision s action world = (.ok states, after) →
      concretizes s state → system.step state action next →
        ∃ t ∈ states, concretizes t next
  bottom_empty {s : σ} {state : κ} :
    explorer.analysis.isBottom s = true → ¬ concretizes s state
  leq_subsumes {precision : π} {first second : σ} {state : κ} :
    explorer.analysis.leq precision first second = true →
      concretizes first state → concretizes second state
  join_exact {precision : π} {first second union : σ} {state : κ} :
    explorer.analysis.join precision first second = some union →
      (concretizes union state ↔ concretizes first state ∨ concretizes second state)
  target_marks {s : σ} {world after : ω} {answer : Bool} {state : κ} :
    explorer.target s world = (.ok answer, after) → concretizes s state → bad state →
      answer = true

theorem Explorer.SoundAbstraction.soundFor {ω σ α π κ : Type} {explorer : Explorer ω σ α π}
    {system : ConcreteSystem κ α} {concretizes : σ → κ → Prop} {bad : κ → Prop}
    (abstraction : explorer.SoundAbstraction system concretizes bad) :
    explorer.SoundFor system concretizes (fun _ => True) bad where
  initial_covers := abstraction.initial_covers
  initial_admissible _ _ _ := trivial
  enabled_covers _ := abstraction.enabled_covers
  successors_cover _ := abstraction.successors_cover
  successors_admissible _ _ _ _ _ := trivial
  bottom_empty := abstraction.bottom_empty
  leq_subsumes _ _ := abstraction.leq_subsumes
  join_admissible _ _ _ := trivial
  join_exact _ _ joined := (abstraction.join_exact joined).mp
  target_marks := abstraction.target_marks

namespace Verifier

open AbstractionRefinement.Computation ReachabilityGraph

variable {ω σ α π κ : Type} {verifier : Verifier ω σ α π} {system : ConcreteSystem κ α}
  {concretizes : σ → κ → Prop} {admissible : σ → Prop} {bad : κ → Prop}

theorem ensures_pruneAt (path : List Nat) (position : Nat) (state : RunState ω σ α)
    (sound : state.exploration.graph.Sound system concretizes admissible bad) :
    (verifier.pruneAt path position).Ensures state fun _ after =>
      after.exploration.graph.Sound system concretizes admissible bad := by
  unfold pruneAt
  rw [ensures_explore, ensures_onGraph]
  cases verifier.prune with
  | full => exact sound_pruneAll _
  | lazy => exact sound.ensures_prune _

/-- An abstraction step keeps the graph sound, and completes it if it exhausts the
exploration. -/
theorem ensures_abstractionStep [Precision π]
    (soundFor : verifier.explorer.SoundFor system concretizes admissible bad)
    (budget : Budget ω) (fuel : Nat) (precision : π) (version : Nat)
    (state : RunState ω σ α)
    (sound : state.exploration.graph.Sound system concretizes admissible bad) :
    (verifier.abstractionStep budget fuel precision version).Ensures state
      fun status after =>
        after.exploration.graph.Sound system concretizes admissible bad ∧
          (status = .exhausted → after.exploration.graph.Complete) := by
  unfold abstractionStep
  simp only [ensures_bind, ensures_get]
  split
  case isTrue => trivial
  case isFalse =>
    simp only [ensures_bind, ensures_explore, Run.count, Run.graph, ensures_modify,
      ensures_get, ensures_pure]
    apply ensures_poll
    exact soundFor.ensures_check fuel precision version budget _ sound

theorem ensures_nearestCounterexample (state : RunState ω σ α) :
    (nearestCounterexample : Run ω σ α (Counterexample σ α)).Ensures state
      fun _ after => after = state := by
  unfold nearestCounterexample Run.graph
  simp only [ensures_bind, ensures_get, ensures_pure]
  split
  case h_1 => trivial
  case h_2 => exact (ensures_lift _).mpr fun _ _ => rfl

/-- When the loop ends safely, its graph is complete and sound. -/
theorem ensures_loop [Precision π] [DecidableEq π]
    (soundFor : verifier.explorer.SoundFor system concretizes admissible bad)
    (budget : Budget ω) (explorationFuel fuel : Nat) (precision : π) (version : Nat)
    (state : RunState ω σ α)
    (sound : state.exploration.graph.Sound system concretizes admissible bad) :
    (verifier.loop budget explorationFuel fuel precision version).Ensures state
      fun outcome after => outcome.verdict = .safe →
        after.exploration.graph.Sound system concretizes admissible bad ∧
          after.exploration.graph.Complete := by
  induction fuel generalizing precision version state with
  | zero => trivial
  | succ fuel ih =>
      unfold loop
      rw [ensures_bind]
      refine (ensures_abstractionStep soundFor budget explorationFuel precision version state
        sound).mono ?_
      rintro status explored ⟨soundExplored, completes⟩
      cases status with
      | exhausted => exact fun _ => ⟨soundExplored, completes rfl⟩
      | idle => trivial
      | exploring => trivial
      | targetFound =>
          dsimp only
          rw [ensures_bind]
          refine (ensures_nearestCounterexample explored).mono ?_
          rintro counterexample _ rfl
          simp only [ensures_bind, ensures_explore, ensures_ofAnalysis]
          apply ensures_poll
          apply ensures_of_run
          intro found world _
          cases found with
          | feasible concrete =>
              simp only [Run.graph, ensures_bind, ensures_get, ensures_pure]
              simp [SafetyOutcome.verdict]
          | spurious refined pruneIndex =>
              simp only [Run.count, Run.graph, ensures_bind, ensures_modify]
              split
              case isTrue =>
                simp only [ensures_bind, ensures_get, ensures_pure]
                split
                case h_1 => trivial
                case h_2 position _ =>
                  rw [ensures_bind]
                  refine (ensures_pruneAt counterexample.nodes position _
                    (by exact soundExplored)).mono ?_
                  intro _ pruned soundPruned
                  exact ih precision version pruned soundPruned
              case isFalse =>
                rw [ensures_bind]
                refine (ensures_pruneAt counterexample.nodes _ _
                  (by exact soundExplored)).mono ?_
                intro _ pruned soundPruned
                exact ih refined (version + 1) pruned soundPruned

/-- A safe verdict excludes bad states from all runs, for a sound explorer over
admissible states. -/
theorem not_bad_of_safe [Precision π] [DecidableEq π]
    (soundFor : verifier.explorer.SoundFor system concretizes admissible bad)
    (limits : ResourceLimits) (checks : ω → Nat) (fuel : Nat) (precision : π)
    (start : ω × ExplorationStatus)
    (safe : (verifier.verify limits checks fuel precision start).1.outcome.verdict = .safe)
    {state : κ} (reachable : system.Reachable state) : ¬ bad state := by
  obtain ⟨world, status⟩ := start
  have ends := ensures_loop soundFor (Budget.start limits checks world) fuel fuel precision 0
    { exploration := { world, graph := .empty, status }, statistics := {} } sound_empty
  unfold Verifier.verify at safe
  unfold Ensures Outcome at ends
  dsimp only at safe
  revert ends safe
  rcases verifier.loop (Budget.start limits checks world) fuel fuel precision 0
    { exploration := { world, graph := .empty, status }, statistics := {} } with
    ⟨_ | outcome, after⟩
  · intro safe _
    simp [SafetyOutcome.verdict] at safe
  · intro safe ends
    obtain ⟨sound, complete⟩ := ends safe
    exact complete.not_bad sound.linked sound.follows reachable

/-- If the verdict is safe, no finite concrete run visits a bad state.  This holds
for every refiner, every strategy of search, coverage, stopping and pruning, every
projection and every initial precision. -/
theorem safe_excludes_bad_runs [Precision π] [DecidableEq π]
    (abstraction : verifier.explorer.SoundAbstraction system concretizes bad)
    (limits : ResourceLimits) (checks : ω → Nat) (fuel : Nat) (precision : π)
    (start : ω × ExplorationStatus)
    (safe : (verifier.verify limits checks fuel precision start).1.outcome.verdict = .safe)
    (state : κ) (reachable : system.Reachable state) : ¬ bad state :=
  not_bad_of_safe abstraction.soundFor limits checks fuel precision start safe reachable

section Parity

/-- Whether the parity of a counter is tracked. -/
inductive ParityPrecision where
  | coarse
  | fine
deriving DecidableEq

instance : Precision ParityPrecision where
  join
    | .coarse, other => other
    | .fine, _ => .fine
  size
    | .coarse => 0
    | .fine => 1

def evenCounter : ConcreteSystem Nat Unit where
  initial count := count = 0
  step count _ next := next = (count + 2) % 8

/-- A state leaves the parity open or gives it; its numbers have that parity. -/
def hasParity : Option Bool → Nat → Prop
  | none, _ => True
  | some odd, count => count % 2 = odd.toNat

def parityVerifier : Verifier Unit (Option Bool) Unit ParityPrecision where
  explorer :=
    { analysis :=
        { top := fun _ => none
          isBottom := fun _ => false
          leq := fun _ first second => second.isNone || first = second
          join := fun _ _ _ => none
          hasExactJoin := false
          initialStates := fun precision =>
            return [if precision = .coarse then none else some false]
          successors := fun precision s _ =>
            return if precision = .coarse then [none]
              else if s.isNone then [some false, some true] else [s] }
      enabled := fun _ => [()]
      target := fun s => return s ≠ some false
      projection := fun _ => 0
      strategy := .depthFirst
      stop := .firstTarget
      coverage := .single }
  refiner := fun _ _ => return .spurious .fine 0
  prune := .lazy

theorem parityVerifier_abstraction :
    parityVerifier.explorer.SoundAbstraction evenCounter hasParity
      (fun count => count % 2 = 1) where
  initial_covers {precision _ _ states count} run starts := by
    have listed : [if precision = .coarse then none else some false] = states := by
      simpa using (Prod.mk.inj run).1
    subst listed starts
    cases precision <;> simp [hasParity]
  enabled_covers _ _ := by simp [parityVerifier]
  successors_cover {precision s _ _ _ states count next} run stands steps := by
    have listed : (if precision = .coarse then [none]
        else if s.isNone then [some false, some true] else [s]) = states := by
      simpa using (Prod.mk.inj run).1
    subst listed steps
    cases precision with
    | coarse => simp [hasParity]
    | fine =>
        cases s with
        | none =>
            rcases Nat.mod_two_eq_zero_or_one ((count + 2) % 8) with even | odd
            · exact ⟨some false, by simp, even⟩
            · exact ⟨some true, by simp, odd⟩
        | some odd =>
            refine ⟨some odd, by simp, ?_⟩
            simp only [hasParity] at stands ⊢
            omega
  bottom_empty := by simp [parityVerifier]
  leq_subsumes {_ first second count} below stands := by
    cases second with
    | none => trivial
    | some odd =>
        have equal : first = some odd := by simpa [parityVerifier] using below
        exact equal ▸ stands
  join_exact := by simp [parityVerifier]
  target_marks {s _ _ answer count} run stands isOdd := by
    have answered : decide (s ≠ some false) = answer := by
      simpa using (Prod.mk.inj run).1
    subst answered
    rw [decide_eq_true_eq]
    rintro rfl
    simp [hasParity, isOdd] at stands

/-- The counter never is odd, as the run that tracks its parity in the end shows. -/
theorem evenCounter_never_odd :
    (parityVerifier.verify {} (fun _ => 0) 9 .coarse ((), .idle)).1.outcome.verdict = .safe ∧
      parityVerifier.explorer.SoundAbstraction evenCounter hasParity (fun count => count % 2 = 1) ∧
      ∀ count, evenCounter.Reachable count → ¬ count % 2 = 1 := by
  have safe :
      (parityVerifier.verify {} (fun _ => 0) 9 .coarse ((), .idle)).1.outcome.verdict = .safe := by
    decide +kernel
  exact ⟨safe, parityVerifier_abstraction,
    safe_excludes_bad_runs parityVerifier_abstraction _ _ _ _ _ safe⟩

end Parity

end Verifier

end AbstractionRefinement
