import AbstractionRefinement.Proofs.GraphOrigins

/-!
# The search order does not affect what is found

When an analysis is monotone, a state below another one can do nothing that the other
one cannot.  Then a graph in which nothing is left to expand follows every run of the
analysis itself, through chains of covering nodes that all lie above it, and so an
exploration that ends without a target excludes every run to a target.  An exploration
that ends with a target has found such a run.  Whether there is one is a matter of the
analysis alone, so the outcome is the same for every search strategy, every stop
criterion and every projection, with and without coverage by single nodes.
-/

namespace AbstractionRefinement

section Monotonicity

variable {ω σ α π : Type}

/-- Under a precision, the order of the states is a preorder, and a larger state can do
whatever a smaller one can.  The answers of an analysis may be given in different states
of its own, such as the counters of a solver. -/
structure Explorer.Monotone (explorer : Explorer ω σ α π) (precision : π) : Prop where
  refl (s : σ) : explorer.analysis.leq precision s s = true
  trans {first second third : σ} : explorer.analysis.leq precision first second = true →
    explorer.analysis.leq precision second third = true →
      explorer.analysis.leq precision first third = true
  bottom {first second : σ} : explorer.analysis.leq precision first second = true →
    explorer.analysis.isBottom first = false → explorer.analysis.isBottom second = false
  enabled {first second : σ} : explorer.analysis.leq precision first second = true →
    explorer.enabled first ⊆ explorer.enabled second
  initial {world world' after after' : ω} {states others : List σ} :
    explorer.analysis.initialStates precision world = (.ok states, after) →
      explorer.analysis.initialStates precision world' = (.ok others, after') →
        ∀ s ∈ states, ∃ t ∈ others, explorer.analysis.leq precision s t = true
  successors {first second : σ} {action : α} {world world' after after' : ω}
    {states others : List σ} : explorer.analysis.leq precision first second = true →
      explorer.analysis.successors precision first action world = (.ok states, after) →
        explorer.analysis.successors precision second action world' = (.ok others, after') →
          ∀ s ∈ states, ∃ t ∈ others, explorer.analysis.leq precision s t = true
  target {first second : σ} {world world' after after' : ω} {answer : Bool} :
    explorer.analysis.leq precision first second = true →
      explorer.target first world = (.ok true, after) →
        explorer.target second world' = (.ok answer, after') → answer = true

/-- The analysis under one precision, without joins and without the listed states that are
bottom. -/
def Analysis.under (analysis : Analysis ω σ α π) (precision : π) : Analysis ω σ α Unit where
  top _ := analysis.top precision
  isBottom := analysis.isBottom
  leq _ := analysis.leq precision
  join _ _ _ := none
  hasExactJoin := false
  initialStates _ := List.filter (! analysis.isBottom ·) <$> analysis.initialStates precision
  successors _ s action :=
    List.filter (! analysis.isBottom ·) <$> analysis.successors precision s action

def Explorer.under (explorer : Explorer ω σ α π) (precision : π) : Explorer ω σ α Unit :=
  { explorer with analysis := explorer.analysis.under precision }

end Monotonicity

namespace Explorer

open AbstractionRefinement.Computation ReachabilityGraph

variable {ω σ α π : Type} {explorer : Explorer ω σ α π} {precision : π}

section OnePrecision

theorem ofAnalysis_map {β γ : Type} (change : β → γ) (computation : Computation ω β) :
    (Exploration.ofAnalysis (change <$> computation) : Exploration ω σ α γ) =
      change <$> Exploration.ofAnalysis computation := by
  funext state
  rw [← bind_pure_comp, ← bind_pure_comp, bind_run]
  unfold Exploration.ofAnalysis
  rw [bind_run]
  rcases computation state.world with ⟨_ | _, _⟩ <;> rfl

/-- States that are bottom are skipped anyway. -/
theorem addInitialStates_under (version : Nat) (states : List σ) :
    (explorer.under precision).addInitialStates version
        (states.filter (! explorer.analysis.isBottom ·)) =
      explorer.addInitialStates version states := by
  induction states with
  | nil => rfl
  | cons s states ih =>
      cases isBottom : explorer.analysis.isBottom s with
      | true => simpa [addInitialStates, isBottom] using ih
      | false =>
          simp only [isBottom, Bool.not_false, List.filter_cons_of_pos]
          unfold addInitialStates
          rw [ih]
          simp [under, Analysis.under, isBottom]
          rfl

theorem createInitial_under (version : Nat) :
    (explorer.under precision).createInitial () version =
      explorer.createInitial precision version := by
  unfold createInitial
  rw [show (explorer.under precision).analysis.initialStates () =
    List.filter (! explorer.analysis.isBottom ·) <$> explorer.analysis.initialStates precision
    from rfl, ofAnalysis_map]
  simp only [bind_map_left, addInitialStates_under]

theorem addSuccessorStates_under (version parent : Nat) (action : α) (states : List σ) :
    (explorer.under precision).addSuccessorStates version parent action
        (states.filter (! explorer.analysis.isBottom ·)) =
      explorer.addSuccessorStates version parent action states := by
  induction states with
  | nil => rfl
  | cons s states ih =>
      cases isBottom : explorer.analysis.isBottom s with
      | true => simpa [addSuccessorStates, isBottom] using ih
      | false =>
          simp only [isBottom, Bool.not_false, List.filter_cons_of_pos]
          unfold addSuccessorStates
          rw [ih]
          simp [under, Analysis.under, isBottom]
          rfl

theorem expandActions_under (version parent : Nat) (s : σ) (actions : List α) :
    (explorer.under precision).expandActions () version parent s actions =
      explorer.expandActions precision version parent s actions := by
  induction actions with
  | nil => rfl
  | cons action actions ih =>
      unfold expandActions
      rw [ih, show (explorer.under precision).analysis.successors () s action =
        List.filter (! explorer.analysis.isBottom ·) <$>
          explorer.analysis.successors precision s action from rfl, ofAnalysis_map]
      simp only [bind_map_left, addSuccessorStates_under]

theorem expand_under (version id : Nat) :
    (explorer.under precision).expand () version id =
      explorer.expand precision version id := by
  unfold expand
  simp only [expandActions_under]
  rfl

theorem close_under (single : explorer.coverage ≠ .join) (id : Nat) :
    (explorer.under precision).close () id = explorer.close precision id := by
  have coverers (graph : ReachabilityGraph σ α) (node : GraphNode σ α) :
      (explorer.under precision).coverers? () graph node =
        explorer.coverers? precision graph node := by
    unfold coverers?
    simp only [under, single, decide_false, Bool.false_and]
    rfl
  unfold close
  simp only [coverers]
  rfl

theorem enqueue_under (single : explorer.coverage ≠ .join) (new : List Nat)
    (list : Waitlist RandomStream) :
    (explorer.under precision).enqueue () new list = explorer.enqueue precision new list := by
  induction new generalizing list with
  | nil => rfl
  | cons id new ih =>
      unfold enqueue
      simp only [close_under single, ih]

theorem exploreWithin_under (single : explorer.coverage ≠ .join) (version : Nat)
    (budget : Budget ω) (fuel : Nat) (list : Waitlist RandomStream) :
    (explorer.under precision).exploreWithin () version budget fuel list =
      explorer.exploreWithin precision version budget fuel list := by
  induction fuel generalizing list with
  | zero => rfl
  | succ fuel ih =>
      unfold exploreWithin
      simp only [close_under single, expand_under, enqueue_under single, ih]
      rfl

theorem check_under (single : explorer.coverage ≠ .join) (fuel version : Nat)
    (budget : Budget ω) :
    (explorer.under precision).check fuel () version budget =
      explorer.check fuel precision version budget := by
  unfold check explore
  simp only [createInitial_under, exploreWithin_under single]
  rfl

end OnePrecision

/-- The runs of the analysis through states that are not bottom. -/
def runs (explorer : Explorer ω σ α π) (precision : π) : ConcreteSystem σ α where
  initial s := (explorer.under precision).Starts () s
  step s action t := (explorer.under precision).Steps () s action t

/-- The states that the analysis lists under one precision are those that are listed at all
and are not bottom. -/
theorem exists_of_filter {computation : Computation ω (List σ)} {isBottom : σ → Bool}
    {world after : ω} {states : List σ}
    (run : (List.filter (! isBottom ·) <$> computation) world = (.ok states, after)) :
    ∃ listed, computation world = (.ok listed, after) ∧
      ∀ s, s ∈ states ↔ s ∈ listed ∧ isBottom s = false := by
  rw [← bind_pure_comp, bind_run] at run
  rcases ran : computation world with ⟨_ | listed, last⟩
  · rw [ran] at run
    cases run
  · rw [ran] at run
    cases run
    exact ⟨listed, rfl, by simp⟩

/-- A monotone analysis is a sound abstraction of itself: a state stands for the states
below it that are not bottom. -/
theorem Monotone.soundFor (monotone : explorer.Monotone precision) :
    (explorer.under precision).SoundFor (explorer.runs precision)
      (fun s t => explorer.analysis.leq precision t s = true ∧
        explorer.analysis.isBottom t = false)
      (explorer.runs precision).Reachable explorer.Hits where
  initial_covers run starts := by
    obtain ⟨_, _, _, run', member⟩ := starts
    obtain ⟨listed, run, states⟩ := exists_of_filter run
    obtain ⟨listed', run', states'⟩ := exists_of_filter run'
    obtain ⟨isListed, notBottom⟩ := (states' _).mp member
    obtain ⟨s, member, below⟩ := monotone.initial run' run _ isListed
    exact ⟨s, (states s).mpr ⟨member, monotone.bottom below notBottom⟩, below, notBottom⟩
  initial_admissible run s member := .initial ⟨_, _, _, run, member⟩
  enabled_covers _ stands steps := monotone.enabled stands.1 steps.1
  successors_cover _ run stands steps := by
    obtain ⟨_, _, _, _, run', member⟩ := steps
    obtain ⟨listed, run, states⟩ := exists_of_filter run
    obtain ⟨listed', run', states'⟩ := exists_of_filter run'
    obtain ⟨isListed, notBottom⟩ := (states' _).mp member
    obtain ⟨s, member, below⟩ := monotone.successors stands.1 run' run _ isListed
    exact ⟨s, (states s).mpr ⟨member, monotone.bottom below notBottom⟩, below, notBottom⟩
  successors_admissible reached isEnabled run t member :=
    .step reached ⟨isEnabled, _, _, _, run, member⟩
  bottom_empty isBottom stands := by
    have notBottom := monotone.bottom stands.1 stands.2
    exact absurd (isBottom.symm.trans notBottom) (by simp)
  leq_subsumes _ _ below stands := ⟨monotone.trans stands.1 below, stands.2⟩
  join_admissible _ _ joined := by cases joined
  join_exact _ _ joined := by cases joined
  target_marks run stands hits := by
    obtain ⟨_, _, run'⟩ := hits
    exact monotone.target stands.1 run' run

theorem ensures_check_status (fuel version : Nat) (budget : Budget ω)
    (exploration : ExplorationState ω σ α) :
    (explorer.check fuel precision version budget).Ensures exploration fun status after =>
      status = if after.graph.targetNodes.isEmpty then .exhausted else .targetFound :=
  ensures_check (fun status graph => status = statusOf graph)
    (fun _ => ensures_of_run fun _ _ _ => ensures_of_run fun _ _ _ => rfl)
    fun _ => ensures_of_run fun _ _ _ => rfl

/-- The outcome of an exploration, as a matter of the analysis alone. -/
inductive Concludes (explorer : Explorer ω σ α π) (precision : π) : ExplorationStatus → Prop
  | exhausted (safe : ∀ s, (explorer.runs precision).Reachable s → ¬ explorer.Hits s) :
      Concludes explorer precision .exhausted
  | targetFound {s : σ} (reached : (explorer.runs precision).Reachable s)
      (hits : explorer.Hits s) : Concludes explorer precision .targetFound

theorem Concludes.isFinal {found : ExplorationStatus}
    (concludes : explorer.Concludes precision found) :
    found = .exhausted ∨ found = .targetFound := by
  cases concludes with
  | exhausted => exact .inl rfl
  | targetFound => exact .inr rfl

section Reordering

variable (projection : σ → Nat) (strategy : SearchStrategy) (stop : StopCriterion)
  (coverage : CoverageMode)

theorem Monotone.reorder (monotone : explorer.Monotone precision) :
    { explorer with projection, strategy, stop, coverage }.Monotone precision :=
  ⟨monotone.refl, monotone.trans, monotone.bottom, monotone.enabled, monotone.initial,
    monotone.successors, monotone.target⟩

/-- An analysis admits one outcome, in whatever order it is explored. -/
theorem Concludes.unique {found found' : ExplorationStatus}
    (concludes : explorer.Concludes precision found)
    (concludes' :
      { explorer with projection, strategy, stop, coverage }.Concludes precision found') :
    found = found' := by
  cases concludes with
  | exhausted safe =>
      cases concludes' with
      | exhausted => rfl
      | targetFound reached hits => exact absurd hits (safe _ reached)
  | targetFound reached hits =>
      cases concludes' with
      | exhausted safe => exact absurd hits (safe _ reached)
      | targetFound => rfl

end Reordering

/-- An exploration of a monotone analysis from the empty graph finds a target if and only if
some run of the analysis leads to one. -/
theorem Monotone.ensures_check (monotone : explorer.Monotone precision)
    (single : explorer.coverage ≠ .join) (fuel version : Nat) (budget : Budget ω) (world : ω)
    (status : ExplorationStatus) :
    (explorer.check fuel precision version budget).Ensures ⟨world, .empty, status⟩
      fun status _ => explorer.Concludes precision status := by
  have sound := monotone.soundFor.ensures_check fuel () version budget
    ⟨world, .empty, status⟩ sound_empty
  have built : ((explorer.under precision).check fuel () version budget).Ensures
      ⟨world, .empty, status⟩ _ := built_empty.ensures_check fuel budget _ linked_empty
  rw [check_under single] at sound built
  refine ((sound.and built).and (ensures_check_status ..)).mono ?_
  rintro _ after ⟨⟨⟨sound, complete⟩, built⟩, rfl⟩
  split
  case isTrue noTargets =>
    have complete := complete (if_pos noTargets)
    exact .exhausted fun s reached => complete.not_bad sound.linked sound.follows reached
  case isFalse targets =>
    obtain ⟨node, member⟩ := List.exists_mem_of_ne_nil _ (by simpa using targets)
    obtain ⟨live, isTarget⟩ := List.mem_filter.mp member
    obtain ⟨id, found⟩ := mem_live.mp live
    exact .targetFound (sound.follows.admissible found) (built.target found isTarget)

/-- Any two explorations of a monotone analysis from the empty graph that return at all have
the same outcome, whatever their search strategies, stop criteria, projections and limits,
and whether or not they cover nodes by single ones. -/
theorem outcome_independent_of_order (monotone : explorer.Monotone precision)
    (projection : σ → Nat) (strategy : SearchStrategy) (stop : StopCriterion)
    (coverage : CoverageMode) (single : explorer.coverage ≠ .join) (single' : coverage ≠ .join)
    {fuel fuel' version version' : Nat} {budget budget' : Budget ω} {world world' : ω}
    {status status' found found' : ExplorationStatus}
    (run : (explorer.check fuel precision version budget ⟨world, .empty, status⟩).1 = .ok found)
    (run' : ({ explorer with projection, strategy, stop, coverage }.check fuel' precision
      version' budget' ⟨world', .empty, status'⟩).1 = .ok found') :
    found = found' ∧ (found = .exhausted ∨ found = .targetFound) := by
  have concludes := (monotone.ensures_check single fuel version budget world status).of_run
    (Prod.ext run rfl)
  have concludes' := ((monotone.reorder projection strategy stop coverage).ensures_check single'
    fuel' version' budget' world' status').of_run (Prod.ext run' rfl)
  exact ⟨concludes.unique projection strategy stop coverage concludes', concludes.isFinal⟩

section Bounds

/-- A counter that is known up to an upper bound and never exceeds two.  It can be advanced,
and cleared if it may be positive; three is the target. -/
def boundedCounter : Explorer Unit Nat Bool Unit where
  analysis :=
    { top := fun _ => 2
      isBottom := fun _ => false
      leq := fun _ first second => first ≤ second
      join := fun _ _ _ => none
      hasExactJoin := false
      initialStates := fun _ => return [0]
      successors := fun _ bound clears => return [if clears then 0 else min (bound + 1) 2] }
  enabled := fun bound => if 0 < bound then [false, true] else [false]
  target := fun bound => return 3 ≤ bound
  projection := fun _ => 0
  strategy := .breadthFirst
  stop := .firstTarget
  coverage := .single

theorem boundedCounter_monotone : boundedCounter.Monotone () where
  refl s := by simp [boundedCounter]
  trans below below' := by
    simp only [boundedCounter, decide_eq_true_eq] at *
    exact Nat.le_trans below below'
  bottom _ _ := rfl
  enabled {first second} below := by
    simp only [boundedCounter, decide_eq_true_eq] at *
    by_cases positive : 0 < first
    · rw [if_pos positive, if_pos (Nat.lt_of_lt_of_le positive below)]
      exact List.Subset.refl _
    · rw [if_neg positive]
      split <;> simp
  initial run run' := by
    obtain rfl := Except.ok.inj (Prod.mk.inj run).1
    obtain rfl := Except.ok.inj (Prod.mk.inj run').1
    simp [boundedCounter]
  successors {first second clears} _ _ _ _ _ _ below run run' := by
    obtain rfl := Except.ok.inj (Prod.mk.inj run).1
    obtain rfl := Except.ok.inj (Prod.mk.inj run').1
    simp only [boundedCounter, decide_eq_true_eq] at below
    cases clears with
    | true => simp [boundedCounter]
    | false => simp [boundedCounter, below]
  target {first second} _ _ _ _ _ below run run' := by
    obtain rfl := Except.ok.inj (Prod.mk.inj run').1
    have hits : decide (3 ≤ first) = true := Except.ok.inj (Prod.mk.inj run).1
    simp only [boundedCounter, decide_eq_true_eq] at *
    exact Nat.le_trans hits below

def boundedCounterAtRandom : Explorer Unit Nat Bool Unit :=
  { boundedCounter with
    projection := id, strategy := .random 7, stop := .never, coverage := .single }

/-- The counter is found to stay below three, breadth first and in a random order. -/
theorem boundedCounter_safe_in_both_orders :
    ∃ found found',
      (boundedCounter.check 9 () 0 (.start {} (fun _ => 0) ()) ⟨(), .empty, .idle⟩).1 =
          .ok found ∧
        (boundedCounterAtRandom.check 99 () 1 (.start {} (fun _ => 0) ())
          ⟨(), .empty, .idle⟩).1 = .ok found' ∧
        found = found' ∧ (found = .exhausted ∨ found = .targetFound) := by
  have run : (boundedCounter.check 9 () 0 (.start {} (fun _ => 0) ()) ⟨(), .empty, .idle⟩).1 =
      .ok .exhausted := by decide +kernel
  have run' : (boundedCounterAtRandom.check 99 () 1 (.start {} (fun _ => 0) ())
      ⟨(), .empty, .idle⟩).1 = .ok .exhausted := by decide +kernel
  exact ⟨_, _, run, run', outcome_independent_of_order boundedCounter_monotone id (.random 7)
    .never .single (by decide) (by decide) run run'⟩

end Bounds

end Explorer

end AbstractionRefinement
