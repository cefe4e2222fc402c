import AbstractionRefinement.RefinementLoop
import Mathlib

/-!
# Laws of computations

A computation of the engine ends in a result or in an error, and leaves a state
behind in both cases.  This file describes a run from a state by what holds of
the result and the state after it, with one condition for results and one for
errors, and gives the rule of every way in which computations are composed.

The rules rewrite a statement about a composed computation into statements about
its parts, so that a proof about a program follows the program.
-/

namespace AbstractionRefinement

theorem eq_ok_of_toOption_eq_some {ε α : Type} {outcome : Except ε α} {result : α}
    (returned : outcome.toOption = some result) : outcome = .ok result := by
  cases outcome with
  | error error => cases returned
  | ok result => exact congrArg Except.ok (Option.some.inj returned)

theorem exists_run_of_toOption_eq_some {ε α ω : Type} {computed : Except ε α × ω} {result : α}
    (returned : computed.1.toOption = some result) : ∃ after, computed = (.ok result, after) :=
  ⟨computed.2, Prod.ext (eq_ok_of_toOption_eq_some returned) rfl⟩

theorem exists_of_bind_eq_ok {ε α β : Type} {first : Except ε α} {next : α → Except ε β}
    {result : β} (built : first >>= next = .ok result) :
    ∃ part, first = .ok part ∧ next part = .ok result := by
  cases first with
  | error error => cases built
  | ok part => exact ⟨part, rfl, built⟩

/-- The results of a construction of several parts belong to the items one by one. -/
theorem forall₂_of_mapM_eq_ok {ε α β : Type} {make : α → Except ε β} {items : List α}
    {results : List β} (made : items.mapM make = .ok results) :
    List.Forall₂ (fun item result => make item = .ok result) items results := by
  induction items generalizing results with
  | nil =>
      cases made
      exact .nil
  | cons item items ih =>
      rw [List.mapM_cons] at made
      obtain ⟨result, first, made⟩ := exists_of_bind_eq_ok made
      obtain ⟨others, rest, made⟩ := exists_of_bind_eq_ok made
      cases made
      exact .cons first (ih rest)

theorem exists_of_forall₂ {α β : Type} {relation : α → β → Prop} {items : List α}
    {results : List β} (related : List.Forall₂ relation items results) {result : β}
    (member : result ∈ results) : ∃ item ∈ items, relation item result := by
  induction related with
  | nil => cases member
  | cons first _ ih =>
      rcases List.mem_cons.mp member with rfl | later
      · exact ⟨_, List.mem_cons_self, first⟩
      · obtain ⟨item, isItem, here⟩ := ih later
        exact ⟨item, List.mem_cons_of_mem _ isItem, here⟩

/-- A list is without repetitions if it is related to such a list and the relation tells the
elements of the latter apart. -/
theorem nodup_of_forall₂ {α β : Type} {relation : α → β → Prop} {first : List α} {second : List β}
    (related : List.Forall₂ relation first second) (nodup : first.Nodup)
    (separates : ∀ item ∈ first, ∀ other ∈ first, ∀ result,
      relation item result → relation other result → item = other) : second.Nodup := by
  induction related with
  | nil => exact List.nodup_nil
  | @cons item result first second relates related ih =>
      obtain ⟨fresh, nodup⟩ := List.nodup_cons.mp nodup
      have separatesRest := fun item isFirst other isFirst' =>
        separates item (List.mem_cons_of_mem _ isFirst) other (List.mem_cons_of_mem _ isFirst')
      refine List.nodup_cons.mpr ⟨fun member => ?_, ih nodup separatesRest⟩
      obtain ⟨other, isFirst, relates'⟩ := exists_of_forall₂ related member
      have same := separates item List.mem_cons_self other (List.mem_cons_of_mem _ isFirst) result
        relates relates'
      exact fresh (same ▸ isFirst)

/-- The results of a construction of some parts, of which others may be left out. -/
theorem mem_of_filterMapM_eq_ok {ε α β : Type} {f : α → Except ε (Option β)} {items : List α}
    {results : List β} (made : items.filterMapM f = .ok results) :
    (∀ item ∈ items, ∃ result, f item = .ok result ∧ ∀ value ∈ result, value ∈ results) ∧
      ∀ value ∈ results, ∃ item ∈ items, f item = .ok (some value) := by
  induction items generalizing results with
  | nil =>
      cases made
      simp
  | cons item items ih =>
      rw [List.filterMapM_cons] at made
      obtain ⟨result, here, made⟩ := exists_of_bind_eq_ok made
      cases result with
      | none =>
          obtain ⟨each, back⟩ := ih made
          refine ⟨List.forall_mem_cons.mpr ⟨⟨none, here, by simp⟩, each⟩, fun value member => ?_⟩
          obtain ⟨item, isItem, same⟩ := back value member
          exact ⟨item, List.mem_cons_of_mem _ isItem, same⟩
      | some value =>
          obtain ⟨others, rest, same⟩ := exists_of_bind_eq_ok made
          cases same
          obtain ⟨each, back⟩ := ih rest
          constructor
          · refine List.forall_mem_cons.mpr ⟨⟨some value, here, by simp⟩, fun item member => ?_⟩
            obtain ⟨result, same, kept⟩ := each item member
            exact ⟨result, same, fun value inside => List.mem_cons_of_mem _ (kept value inside)⟩
          · refine List.forall_mem_cons.mpr ⟨⟨item, List.mem_cons_self, here⟩, fun value member => ?_⟩
            obtain ⟨item, isItem, same⟩ := back value member
            exact ⟨item, List.mem_cons_of_mem _ isItem, same⟩

namespace Computation

variable {ω α β : Type}

theorem bind_run (first : Computation ω β) (next : β → Computation ω α) (state : ω) :
    (first >>= next) state =
      match first state with
      | (.ok result, after) => next result after
      | (.error error, after) => (.error error, after) := by
  simp only [bind, ExceptT.bind, ExceptT.mk, StateT.bind, ExceptT.bindCont]
  rcases first state with ⟨_ | _, _⟩ <;> rfl

theorem discard_run (first : Computation ω β) (state : ω) :
    (discard first : Computation ω PUnit) state =
      match first state with
      | (.ok _, after) => (.ok ⟨⟩, after)
      | (.error error, after) => (.error error, after) := by
  show ((fun _ => ⟨⟩) <$> first : Computation ω PUnit) state = _
  rw [← bind_pure_comp, bind_run]
  rcases first state with ⟨_ | _, _⟩ <;> rfl

/-- A run from a state returns only what is described by the first condition and
fails only as described by the second. -/
def Outcome (computation : Computation ω α) (state : ω) (returns : α → ω → Prop)
    (fails : EngineError → ω → Prop) : Prop :=
  match computation state with
  | (.ok result, after) => returns result after
  | (.error error, after) => fails error after

/-- A run from a state may fail; what it returns is described by the condition. -/
def Ensures (computation : Computation ω α) (state : ω) (returns : α → ω → Prop) : Prop :=
  computation.Outcome state returns fun _ _ => True

theorem Outcome.mono {computation : Computation ω α} {state : ω}
    {returns returns' : α → ω → Prop} {fails fails' : EngineError → ω → Prop}
    (outcome : computation.Outcome state returns fails)
    (weakerReturn : ∀ result after, returns result after → returns' result after)
    (weakerFailure : ∀ error after, fails error after → fails' error after) :
    computation.Outcome state returns' fails' := by
  unfold Outcome at *
  split at outcome
  · exact weakerReturn _ _ outcome
  · exact weakerFailure _ _ outcome

theorem Ensures.mono {computation : Computation ω α} {state : ω}
    {returns returns' : α → ω → Prop} (ensures : computation.Ensures state returns)
    (weaker : ∀ result after, returns result after → returns' result after) :
    computation.Ensures state returns' :=
  Outcome.mono ensures weaker fun _ _ _ => trivial

theorem Outcome.returned {computation : Computation ω α} {state after : ω} {result : α}
    {returns : α → ω → Prop} {fails : EngineError → ω → Prop}
    (outcome : computation.Outcome state returns fails)
    (run : computation state = (.ok result, after)) : returns result after := by
  unfold Outcome at outcome
  rw [run] at outcome
  exact outcome

theorem Outcome.failed {computation : Computation ω α} {state after : ω} {error : EngineError}
    {returns : α → ω → Prop} {fails : EngineError → ω → Prop}
    (outcome : computation.Outcome state returns fails)
    (run : computation state = (.error error, after)) : fails error after := by
  unfold Outcome at outcome
  rw [run] at outcome
  exact outcome

theorem Ensures.of_run {computation : Computation ω α} {state after : ω} {result : α}
    {returns : α → ω → Prop} (ensures : computation.Ensures state returns)
    (run : computation state = (.ok result, after)) : returns result after :=
  Outcome.returned ensures run

theorem outcome_of_run {computation : Computation ω α} {state : ω}
    {returns : α → ω → Prop} {fails : EngineError → ω → Prop}
    (holds : ∀ result after, computation state = (.ok result, after) → returns result after)
    (failed : ∀ error after, computation state = (.error error, after) → fails error after) :
    computation.Outcome state returns fails := by
  unfold Outcome
  split
  · exact holds _ _ ‹_›
  · exact failed _ _ ‹_›

theorem ensures_of_run {computation : Computation ω α} {state : ω}
    {returns : α → ω → Prop}
    (holds : ∀ result after, computation state = (.ok result, after) →
      returns result after) :
    computation.Ensures state returns := by
  unfold Ensures Outcome
  split
  · exact holds _ _ ‹_›
  · trivial

theorem Ensures.and {computation : Computation ω α} {state : ω}
    {first second : α → ω → Prop} (ensuresFirst : computation.Ensures state first)
    (ensuresSecond : computation.Ensures state second) :
    computation.Ensures state fun result after =>
      first result after ∧ second result after :=
  ensures_of_run fun _ _ run => ⟨ensuresFirst.of_run run, ensuresSecond.of_run run⟩

section Composition

variable {state : ω} {returns : α → ω → Prop} {fails : EngineError → ω → Prop}

@[simp]
theorem outcome_pure (result : α) :
    (pure result : Computation ω α).Outcome state returns fails ↔ returns result state :=
  Iff.rfl

@[simp]
theorem outcome_bind (first : Computation ω β) (next : β → Computation ω α) :
    (first >>= next).Outcome state returns fails ↔
      first.Outcome state (fun result after => (next result).Outcome after returns fails)
        fails := by
  unfold Outcome
  rw [bind_run]
  rcases first state with ⟨_ | _, _⟩ <;> rfl

@[simp]
theorem outcome_map (first : Computation ω β) (change : β → α) :
    (change <$> first).Outcome state returns fails ↔
      first.Outcome state (fun result after => returns (change result) after) fails := by
  rw [← bind_pure_comp, outcome_bind]
  rfl

@[simp]
theorem outcome_discard (first : Computation ω β) {returns : PUnit → ω → Prop} :
    (discard first).Outcome state returns fails ↔
      first.Outcome state (fun _ after => returns ⟨⟩ after) fails :=
  outcome_map first _

@[simp]
theorem outcome_get {returns : ω → ω → Prop} :
    (get : Computation ω ω).Outcome state returns fails ↔ returns state state :=
  Iff.rfl

@[simp]
theorem outcome_modify (change : ω → ω) {returns : PUnit → ω → Prop} :
    (modify change : Computation ω PUnit).Outcome state returns fails ↔
      returns ⟨⟩ (change state) :=
  Iff.rfl

/-- A result computed without the state is returned, or the error thrown, with the state
unchanged. -/
theorem outcome_lift (computed : Except EngineError α) :
    (liftM computed : Computation ω α).Outcome state returns fails ↔
      (∀ result, computed = .ok result → returns result state) ∧
        ∀ error, computed = .error error → fails error state := by
  cases computed with
  | error error =>
      refine ⟨fun failed => ⟨nofun, ?_⟩, fun outcome => outcome.2 error rfl⟩
      rintro _ ⟨⟩
      exact failed
  | ok result =>
      refine ⟨fun returned => ⟨?_, nofun⟩, fun outcome => outcome.1 result rfl⟩
      rintro _ ⟨⟩
      exact returned

@[simp]
theorem ensures_pure (result : α) :
    (pure result : Computation ω α).Ensures state returns ↔ returns result state :=
  Iff.rfl

@[simp]
theorem ensures_throw (error : EngineError) :
    (throw error : Computation ω α).Ensures state returns ↔ True :=
  Iff.rfl

@[simp]
theorem ensures_bind (first : Computation ω β) (next : β → Computation ω α) :
    (first >>= next).Ensures state returns ↔
      first.Ensures state fun result after => (next result).Ensures after returns :=
  outcome_bind first next

@[simp]
theorem ensures_discard (first : Computation ω β) {returns : PUnit → ω → Prop} :
    (discard first).Ensures state returns ↔
      first.Ensures state fun _ after => returns ⟨⟩ after :=
  outcome_discard first

@[simp]
theorem ensures_get {returns : ω → ω → Prop} :
    (get : Computation ω ω).Ensures state returns ↔ returns state state :=
  Iff.rfl

@[simp]
theorem ensures_modify (change : ω → ω) {returns : PUnit → ω → Prop} :
    (modify change : Computation ω PUnit).Ensures state returns ↔
      returns ⟨⟩ (change state) :=
  Iff.rfl

theorem ensures_lift (computed : Except EngineError α) :
    (liftM computed : Computation ω α).Ensures state returns ↔
      ∀ result, computed = .ok result → returns result state := by
  cases computed with
  | error error => exact ⟨fun _ _ equal => (nomatch equal), fun _ => trivial⟩
  | ok result =>
      constructor
      · rintro holds _ ⟨⟩
        exact holds
      · intro holds
        exact holds _ rfl

theorem ensures_ofFormula (construction : Except FormulaError α) :
    (ofFormula construction).Ensures state returns ↔
      ∀ formula, construction = .ok formula → returns formula state := by
  unfold ofFormula
  rw [ensures_lift]
  cases construction with
  | error error =>
      exact ⟨fun _ _ equal => (nomatch equal), fun _ _ equal => (nomatch equal)⟩
  | ok formula =>
      constructor
      · rintro holds _ ⟨⟩
        exact holds formula rfl
      · rintro holds _ ⟨⟩
        exact holds formula rfl

end Composition

end Computation

section Levels

variable {ω σ α β : Type}

open AbstractionRefinement.Computation

@[simp]
theorem outcome_ofAnalysis (computation : Computation ω β) {state : ExplorationState ω σ α}
    {returns : β → ExplorationState ω σ α → Prop}
    {fails : EngineError → ExplorationState ω σ α → Prop} :
    (Exploration.ofAnalysis computation : Exploration ω σ α β).Outcome state returns fails ↔
      computation.Outcome state.world (fun result world => returns result { state with world })
        fun error world => fails error { state with world } := by
  unfold Outcome Exploration.ofAnalysis
  rcases computation state.world with ⟨_ | _, _⟩ <;> rfl

@[simp]
theorem outcome_onGraph (operation : ReachabilityGraph.Operation σ α β)
    {state : ExplorationState ω σ α} {returns : β → ExplorationState ω σ α → Prop}
    {fails : EngineError → ExplorationState ω σ α → Prop} :
    (Exploration.onGraph operation : Exploration ω σ α β).Outcome state returns fails ↔
      operation.Outcome state.graph (fun result graph => returns result { state with graph })
        fun error graph => fails error { state with graph } := by
  unfold Outcome Exploration.onGraph
  rcases operation state.graph with ⟨_ | _, _⟩ <;> rfl

@[simp]
theorem ensures_ofAnalysis (computation : Computation ω β) {state : ExplorationState ω σ α}
    {returns : β → ExplorationState ω σ α → Prop} :
    (Exploration.ofAnalysis computation : Exploration ω σ α β).Ensures state returns ↔
      computation.Ensures state.world fun result world =>
        returns result { state with world } :=
  outcome_ofAnalysis computation

@[simp]
theorem ensures_onGraph (operation : ReachabilityGraph.Operation σ α β)
    {state : ExplorationState ω σ α} {returns : β → ExplorationState ω σ α → Prop} :
    (Exploration.onGraph operation : Exploration ω σ α β).Ensures state returns ↔
      operation.Ensures state.graph fun result graph =>
        returns result { state with graph } :=
  outcome_onGraph operation

@[simp]
theorem ensures_explore (computation : Exploration ω σ α β) {state : RunState ω σ α}
    {returns : β → RunState ω σ α → Prop} :
    (Run.explore computation : Run ω σ α β).Ensures state returns ↔
      computation.Ensures state.exploration fun result exploration =>
        returns result { state with exploration } := by
  unfold Ensures Outcome Run.explore
  rcases computation state.exploration with ⟨_ | _, _⟩ <;> rfl

theorem outcome_poll (budget : Budget ω) {state : ExplorationState ω σ α}
    {returns : Unit → ExplorationState ω σ α → Prop}
    {fails : EngineError → ExplorationState ω σ α → Prop} (holds : returns () state)
    (failed : ∀ error, budget.exceeded? state.world = some error → fails error state) :
    (Exploration.poll budget : Exploration ω σ α Unit).Outcome state returns fails := by
  unfold Exploration.poll
  simp only [outcome_bind, outcome_get]
  cases exceeded : budget.exceeded? state.world with
  | none => exact holds
  | some error => exact failed error exceeded

theorem ensures_poll (budget : Budget ω) {state : ExplorationState ω σ α}
    {returns : Unit → ExplorationState ω σ α → Prop} (holds : returns () state) :
    (Exploration.poll budget : Exploration ω σ α Unit).Ensures state returns :=
  outcome_poll budget holds fun _ _ => trivial

namespace Explorer

variable {π : Type}

def waitlist (explorer : Explorer ω σ α π) (graph : ReachabilityGraph σ α) :
    Waitlist RandomStream :=
  (Waitlist.new explorer.strategy).addAll
    (graph.incompleteNodes.map fun node => (node.id, node.depth))

def statusOf (graph : ReachabilityGraph σ α) : ExplorationStatus :=
  if graph.targetNodes.isEmpty then .exhausted else .targetFound

/-- A check creates the initial nodes unless the graph is initialized, and explores the graph from
there. -/
theorem outcome_check {explorer : Explorer ω σ α π} {fuel version : Nat} {precision : π}
    {budget : Budget ω} {exploration : ExplorationState ω σ α}
    (returns : ExplorationStatus → ReachabilityGraph σ α → Prop)
    (fails : EngineError → ReachabilityGraph σ α → Prop)
    (creates : exploration.graph.initialized = false →
      (explorer.createInitial precision version).Outcome
        { exploration with status := .exploring }
        (fun _ start =>
          (explorer.exploreWithin precision version budget fuel
            (explorer.waitlist start.graph)).Outcome start
              (fun _ after => returns (statusOf after.graph) after.graph)
              fun error after => fails error after.graph)
        fun error after => fails error after.graph)
    (explores : exploration.graph.initialized = true →
      (explorer.exploreWithin precision version budget fuel
        (explorer.waitlist exploration.graph)).Outcome { exploration with status := .exploring }
          (fun _ after => returns (statusOf after.graph) after.graph)
          fun error after => fails error after.graph) :
    (explorer.check fuel precision version budget).Outcome exploration
      (fun status after => returns status after.graph)
      fun error after => fails error after.graph := by
  have outcome : (explorer.explore fuel precision version budget).Outcome
      { exploration with status := .exploring }
      (fun status after => returns status after.graph)
      fun error after => fails error after.graph := by
    unfold explore
    simp only [outcome_bind, outcome_get]
    cases initialized : exploration.graph.initialized with
    | false =>
        simp only [Bool.not_false, if_true, outcome_bind, outcome_discard, outcome_get,
          outcome_pure]
        exact creates initialized
    | true =>
        simp only [Bool.not_true, Bool.false_eq_true, if_false, outcome_bind, outcome_get,
          outcome_pure]
        exact explores initialized
  unfold Outcome check at *
  revert outcome
  rcases explorer.explore fuel precision version budget
    { exploration with status := .exploring } with ⟨_ | status, after⟩ <;> exact id

theorem ensures_check {explorer : Explorer ω σ α π} {fuel version : Nat} {precision : π}
    {budget : Budget ω} {exploration : ExplorationState ω σ α}
    (returns : ExplorationStatus → ReachabilityGraph σ α → Prop)
    (creates : exploration.graph.initialized = false →
      (explorer.createInitial precision version).Ensures
        { exploration with status := .exploring } fun _ start =>
          (explorer.exploreWithin precision version budget fuel
            (explorer.waitlist start.graph)).Ensures start
              fun _ after => returns (statusOf after.graph) after.graph)
    (explores : exploration.graph.initialized = true →
      (explorer.exploreWithin precision version budget fuel
        (explorer.waitlist exploration.graph)).Ensures { exploration with status := .exploring }
          fun _ after => returns (statusOf after.graph) after.graph) :
    (explorer.check fuel precision version budget).Ensures exploration
      fun status after => returns status after.graph :=
  outcome_check returns (fun _ _ => True) creates explores

end Explorer

end Levels

end AbstractionRefinement
