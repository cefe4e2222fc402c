import AbstractionRefinement.Proofs.ReachedErrors
import AbstractionRefinement.Proofs.ReachedGraphs
import AbstractionRefinement.Proofs.ZoneExtrapolation

/-!
# Timed runs behind the paths of a graph

A timed run starts with all clocks at zero and delays in the initial location.  Along an edge
the guards hold and the resets are applied in the order of the statements; in the target
location time elapses within the invariants, unless it is urgent.  If every constraint
compares one clock with a constant then similar valuations have similar runs.  So although
zones are extrapolated after every edge, each path from a root of a graph is the path of a
timed run.
-/

namespace AbstractionRefinement

open AbstractionRefinement.Computation

/-- The effect of statements on the clocks: guards hold and resets are applied in order. -/
def Statement.MovesClocks : List Statement → ClockValuation → ClockValuation → Prop
  | [], before, after => before = after
  | .clockGuard constraint :: statements, before, after =>
      constraint.Holds before ∧ MovesClocks statements before after
  | .clockReset clock value :: statements, before, after =>
      MovesClocks statements (Function.update before clock (value : ℚ)) after
  | .assume _ :: statements, before, after => MovesClocks statements before after
  | .assign _ _ :: statements, before, after => MovesClocks statements before after
  | .havoc _ :: statements, before, after => MovesClocks statements before after

/-- The invariants hold on entry; unless the location is urgent, time elapses, and they hold
again. -/
def Location.Stays (location : Location) (before after : ClockValuation) : Prop :=
  (∀ constraint ∈ location.invariants, constraint.Holds before) ∧
    if location.urgent then before = after
    else (∃ delay ≥ 0, after = before.elapse delay) ∧
      ∀ constraint ∈ location.invariants, constraint.Holds after

namespace ControlFlowAutomaton

/-- A stay in the location with the number; there is none to speak of in a missing one. -/
def Stays (automaton : ControlFlowAutomaton) (number : Nat) (before after : ClockValuation) :
    Prop :=
  match automaton.locations[number]? with
  | none => before = after
  | some location => location.Stays before after

/-- Runs along edges, with the location and the valuation at the end. -/
inductive TimedRun (automaton : ControlFlowAutomaton) :
    List ControlEdge → Nat → ClockValuation → Prop where
  | start {valuation : ClockValuation} (stays : automaton.Stays initial (fun _ => 0) valuation) :
      TimedRun automaton [] initial valuation
  | step {edges : List ControlEdge} {source : Nat} {before middle after : ClockValuation}
      {edge : ControlEdge} (run : TimedRun automaton edges source before)
      (leaves : edge ∈ automaton.outgoing source)
      (moves : Statement.MovesClocks edge.statements before middle)
      (stays : automaton.Stays edge.target middle after) :
      TimedRun automaton (edges ++ [edge]) edge.target after

end ControlFlowAutomaton

theorem Statement.leadThrough_iff {statements : List Statement} {before after : ClockValuation} :
    ClockOperation.LeadThrough (statements.filterMap clockOperation?) before after ↔
      MovesClocks statements before after := by
  induction statements generalizing before with
  | nil =>
      constructor
      · rintro ⟨⟩
        rfl
      · rintro rfl
        exact .nil before
  | cons statement statements ih =>
      cases statement with
      | assume condition | assign target value | havoc target => exact ih
      | clockGuard constraint =>
          constructor
          · rintro (_ | ⟨⟨holds⟩, rest⟩)
            exact ⟨holds, ih.mp rest⟩
          · rintro ⟨holds, rest⟩
            exact .cons (.guard holds) (ih.mpr rest)
      | clockReset clock value =>
          constructor
          · rintro (_ | ⟨⟨⟩, rest⟩)
            exact ih.mp rest
          · intro rest
            exact .cons (.reset clock value before) (ih.mpr rest)

namespace Location

/-- The operations of a delay within invariants. -/
def delayWithin (invariants : List ClockConstraint) : List ClockOperation :=
  invariants.map .invariant ++ .delay :: invariants.map .invariant

theorem leadThrough_delayWithin_iff {invariants : List ClockConstraint}
    {before after : ClockValuation} :
    ClockOperation.LeadThrough (delayWithin invariants) before after ↔
      (∀ constraint ∈ invariants, constraint.Holds before) ∧
        (∃ delay ≥ 0, after = before.elapse delay) ∧
          ∀ constraint ∈ invariants, constraint.Holds after := by
  rw [delayWithin, ClockOperation.leadThrough_append_iff]
  constructor
  · rintro ⟨middle, early, rest⟩
    obtain ⟨rfl, onEntry⟩ := ClockOperation.leadThrough_invariants_iff.mp early
    cases rest with
    | cons first late =>
        cases first with
        | delay _ elapses =>
            obtain ⟨rfl, again⟩ := ClockOperation.leadThrough_invariants_iff.mp late
            exact ⟨onEntry, ⟨_, elapses, rfl⟩, again⟩
  · rintro ⟨onEntry, ⟨delay, elapses, rfl⟩, again⟩
    exact ⟨before, ClockOperation.leadThrough_invariants_iff.mpr ⟨rfl, onEntry⟩,
      .cons (.delay before elapses) (ClockOperation.leadThrough_invariants_iff.mpr ⟨rfl, again⟩)⟩

theorem mem_delayWithin {invariants : List ClockConstraint} {operation : ClockOperation}
    (member : operation ∈ delayWithin invariants) :
    operation = .delay ∨ ∃ constraint ∈ invariants, operation = .invariant constraint := by
  have either : operation = .delay ∨ operation ∈ invariants.map .invariant := by
    simp only [delayWithin, List.mem_append, List.mem_cons] at member
    tauto
  refine either.imp_right fun inside => ?_
  obtain ⟨constraint, isConstraint, rfl⟩ := List.mem_map.mp inside
  exact ⟨constraint, isConstraint, rfl⟩

def entry (location : Location) : List ClockOperation :=
  if location.urgent then location.invariants.map .invariant
  else delayWithin location.invariants

theorem leadThrough_entry_iff {location : Location} {before after : ClockValuation} :
    ClockOperation.LeadThrough location.entry before after ↔ location.Stays before after := by
  unfold entry Stays
  split
  case isTrue => rw [ClockOperation.leadThrough_invariants_iff, and_comm]
  case isFalse => exact leadThrough_delayWithin_iff

end Location

namespace ControlFlowAutomaton

variable {automaton : ControlFlowAutomaton} {locations : List Location}
  {edges : List (Nat × Nat × List Statement)} {error : Option Nat}

def entry (automaton : ControlFlowAutomaton) (number : Nat) : List ClockOperation :=
  (automaton.locations[number]?.map Location.entry).getD []

theorem leadThrough_entry_iff {number : Nat} {before after : ClockValuation} :
    ClockOperation.LeadThrough (automaton.entry number) before after ↔
      automaton.Stays number before after := by
  unfold entry Stays
  cases automaton.locations[number]? with
  | none =>
      constructor
      · rintro ⟨⟩
        rfl
      · rintro rfl
        exact .nil before
  | some location => exact Location.leadThrough_entry_iff

/-- An edge applies the operations of its statements and then those of its target. -/
theorem clockOperations_of_build (built : build locations edges error = .ok automaton)
    {edge : ControlEdge} (member : edge ∈ automaton.edges) : edge.clockOperations =
      edge.statements.filterMap Statement.clockOperation? ++ automaton.entry edge.target := by
  obtain ⟨made, mapped, result⟩ := exists_of_bind_eq_ok built
  cases result
  obtain ⟨⟨source, target, statements⟩, -, make⟩ :=
    exists_of_forall₂ (forall₂_of_mapM_eq_ok mapped) member
  obtain ⟨⟨conjuncts, next⟩, -, composed⟩ := exists_of_bind_eq_ok make
  obtain ⟨formula, -, composed⟩ := exists_of_bind_eq_ok composed
  cases composed
  dsimp only [entry]
  cases locations[target]? <;> rfl

/-- The operations that an automaton can ask for. -/
def Uses (automaton : ControlFlowAutomaton) : ClockOperation → Prop
  | .guard constraint | .invariant constraint => constraint ∈ automaton.clockConstraints
  | .reset clock value => .clockReset clock value ∈ automaton.statements
  | .delay => True

theorem uses_delayWithin {invariants : List ClockConstraint}
    (known : invariants ⊆ automaton.clockConstraints) {operation : ClockOperation}
    (member : operation ∈ Location.delayWithin invariants) : automaton.Uses operation := by
  rcases Location.mem_delayWithin member with rfl | ⟨constraint, isInvariant, rfl⟩
  · trivial
  · exact known isInvariant

theorem invariants_subset {number : Nat} {location : Location}
    (found : automaton.locations[number]? = some location) :
    location.invariants ⊆ automaton.clockConstraints := fun _ isInvariant =>
  List.mem_append_right _
    (List.mem_flatMap.mpr ⟨location, List.mem_of_getElem? found, isInvariant⟩)

theorem uses_entry {number : Nat} {operation : ClockOperation}
    (member : operation ∈ automaton.entry number) : automaton.Uses operation := by
  unfold entry at member
  cases found : automaton.locations[number]? with
  | none => simp [found] at member
  | some location =>
      rw [found, Option.map_some, Option.getD_some, Location.entry] at member
      split at member
      · obtain ⟨constraint, isInvariant, rfl⟩ := List.mem_map.mp member
        exact invariants_subset found isInvariant
      · exact uses_delayWithin (invariants_subset found) member

theorem uses_clockOperations (built : build locations edges error = .ok automaton)
    {edge : ControlEdge} (member : edge ∈ automaton.edges) {operation : ClockOperation}
    (inside : operation ∈ edge.clockOperations) : automaton.Uses operation := by
  rw [clockOperations_of_build built member] at inside
  rcases List.mem_append.mp inside with early | late
  · obtain ⟨statement, isStatement, effect⟩ := List.mem_filterMap.mp early
    have known : statement ∈ automaton.statements :=
      List.mem_flatMap.mpr ⟨edge, member, isStatement⟩
    cases statement with
    | assume condition | assign target value | havoc target => cases effect
    | clockGuard constraint =>
        cases effect
        exact List.mem_append_left _ (List.mem_filterMap.mpr ⟨_, known, rfl⟩)
    | clockReset clock value =>
        cases effect
        exact known
  · exact uses_entry late

theorem clocks_subset_of_uses {operation : ClockOperation} (uses : automaton.Uses operation) :
    operation.clocks ⊆ automaton.clocks := by
  intro clock member
  have constrained {constraint : ClockConstraint} (used : constraint ∈ automaton.clockConstraints)
      (member : clock ∈ constraint.clocks) : clock ∈ automaton.clocks :=
    OrderedSet.mem_ofList.mpr (List.mem_append_left _
      (List.mem_flatMap.mpr ⟨constraint, used, member⟩))
  cases operation with
  | guard constraint | invariant constraint => exact constrained uses member
  | reset other value =>
      obtain rfl := List.mem_singleton.mp member
      exact OrderedSet.mem_ofList.mpr (List.mem_append_right _
        (List.mem_filterMap.mpr ⟨_, uses, rfl⟩))
  | delay => cases member

end ControlFlowAutomaton

namespace ZoneState

def raise (constants : Zone.ClockConstants) (pair : VarDecl × Int) : Zone.ClockConstants :=
  OrderedMap.insert pair.1 (max ((OrderedMap.find? pair.1 constants).getD 0) pair.2) constants

theorem constantsOf_eq (constraints : List ClockConstraint) : constantsOf constraints =
    (constraints.flatMap fun constraint =>
      constraint.clocks.map fun clock => (clock, (constraint.bound.natAbs : Int))).foldl raise [] := by
  rw [constantsOf, List.foldl_flatMap]
  congr 1
  funext constants constraint
  rw [List.foldl_map]
  rfl

variable {constants : Zone.ClockConstants} {clock : VarDecl}

theorem find?_raise (constants : Zone.ClockConstants) (pair : VarDecl × Int) (clock : VarDecl) :
    OrderedMap.find? clock (raise constants pair) =
      if clock = pair.1 then some (max ((OrderedMap.find? pair.1 constants).getD 0) pair.2)
      else OrderedMap.find? clock constants :=
  OrderedMap.find?_insert ..

theorem exists_le_foldl_raise (pairs : List (VarDecl × Int)) {greatest : Int}
    (found : OrderedMap.find? clock constants = some greatest) :
    ∃ raised, OrderedMap.find? clock (pairs.foldl raise constants) = some raised ∧
      greatest ≤ raised := by
  induction pairs generalizing constants greatest with
  | nil => exact ⟨greatest, found, Int.le_refl _⟩
  | cons pair pairs ih =>
      by_cases same : clock = pair.1
      · obtain ⟨raised, isRaised, le⟩ :=
          ih ((find?_raise constants pair clock).trans (if_pos same))
        refine ⟨raised, isRaised, Int.le_trans ?_ le⟩
        rw [← same, found]
        exact Int.le_max_left ..
      · exact ih ((find?_raise constants pair clock).trans ((if_neg same).trans found))

theorem exists_le_of_mem {pairs : List (VarDecl × Int)} {least : Int}
    (member : (clock, least) ∈ pairs) :
    ∃ greatest, OrderedMap.find? clock (pairs.foldl raise constants) = some greatest ∧
      least ≤ greatest := by
  induction pairs generalizing constants with
  | nil => cases member
  | cons pair pairs ih =>
      rcases List.mem_cons.mp member with rfl | later
      · obtain ⟨greatest, found, le⟩ := exists_le_foldl_raise pairs
          ((find?_raise constants (clock, least) clock).trans (if_pos rfl))
        exact ⟨greatest, found, Int.le_trans (Int.le_max_right ..) le⟩
      · exact ih later

/-- Every constant is that of some constraint, or zero. -/
theorem holds_of_foldl_raise {holds : Int → Prop} (zero : holds 0) {pairs : List (VarDecl × Int)}
    (each : ∀ pair ∈ pairs, holds pair.2)
    (known : ∀ clock greatest, OrderedMap.find? clock constants = some greatest → holds greatest) :
    ∀ clock greatest, OrderedMap.find? clock (pairs.foldl raise constants) = some greatest →
      holds greatest := by
  induction pairs generalizing constants with
  | nil => exact known
  | cons pair pairs ih =>
      obtain ⟨first, each⟩ := List.forall_mem_cons.mp each
      refine ih each fun other greatest found => ?_
      rw [find?_raise] at found
      split at found
      · obtain rfl := Option.some.inj found
        rcases max_choice ((OrderedMap.find? pair.1 constants).getD 0) pair.2 with same | same
        · rw [same]
          cases before : OrderedMap.find? pair.1 constants with
          | none => exact zero
          | some previous => exact known _ _ before
        · rwa [same]
      · exact known other greatest found

theorem exists_constant {constraints : List ClockConstraint} {constraint : ClockConstraint}
    (member : constraint ∈ constraints) (inside : clock ∈ constraint.clocks) :
    ∃ greatest, OrderedMap.find? clock (constantsOf constraints) = some greatest ∧
      (constraint.bound.natAbs : Int) ≤ greatest := by
  rw [constantsOf_eq]
  exact exists_le_of_mem (List.mem_flatMap.mpr
    ⟨constraint, member, List.mem_map.mpr ⟨clock, inside, rfl⟩⟩)

theorem regularConstants_constantsOf {constraints : List ClockConstraint}
    (far : ∀ constraint ∈ constraints, FarFromOverflow constraint.bound) :
    Zone.RegularConstants (constantsOf constraints) := by
  unfold Zone.RegularConstants
  rw [constantsOf_eq]
  refine holds_of_foldl_raise (by decide) (fun pair member => ?_) fun _ _ found => by cases found
  obtain ⟨constraint, isConstraint, isPair⟩ := List.mem_flatMap.mp member
  obtain ⟨clock, -, rfl⟩ := List.mem_map.mp isPair
  have bound := far constraint isConstraint
  unfold FarFromOverflow at *
  dsimp only
  omega

end ZoneState

/-- One side of the constraint is a clock, and the other one is not. -/
def ClockConstraint.ComparesOne (constraint : ClockConstraint) : Prop :=
  constraint.left.isSome ≠ constraint.right.isSome

instance (constraint : ClockConstraint) : Decidable constraint.ComparesOne :=
  inferInstanceAs (Decidable (_ ≠ _))

section Similarity

variable {constants : Zone.ClockConstants} {tracked : List VarDecl}
  {before before' after : ClockValuation}

/-- Similar valuations satisfy the same comparisons with small constants. -/
theorem ClockConstraint.Holds.of_similar {constraint : ClockConstraint}
    (holds : constraint.Holds before) (compares : constraint.ComparesOne)
    (bounded : ∀ clock ∈ constraint.clocks, ∃ greatest,
      OrderedMap.find? clock constants = some greatest ∧
        (constraint.bound.natAbs : Int) ≤ greatest)
    (similar : ∀ clock ∈ constraint.clocks, before'.Similar constants before clock) :
    constraint.Holds before' := by
  obtain ⟨left, right, bound, strict⟩ := constraint
  have within {greatest : Int} (le : (bound.natAbs : Int) ≤ greatest) :
      (bound : ℚ) ≤ greatest ∧ -(bound : ℚ) ≤ greatest := by
    constructor <;> exact_mod_cast (by omega)
  cases left with
  | some clock =>
      cases right with
      | some other => exact absurd rfl compares
      | none =>
          rcases similar clock (by simp [clocks]) with same | ⟨greatest, found, -, above⟩
          · simpa [Holds, ClockValuation.side, same] using holds
          · -- The clock is above the constant, which is an upper bound.
            obtain ⟨greatest', found', le⟩ := bounded clock (by simp [clocks])
            obtain rfl : greatest = greatest' := Option.some.inj (found.symm.trans found')
            have limit := (within le).1
            cases strict <;> simp [Holds, ClockValuation.side] at holds <;> linarith
  | none =>
      cases right with
      | none => exact absurd rfl compares
      | some clock =>
          rcases similar clock (by simp [clocks]) with same | ⟨greatest, found, above, -⟩
          · simpa [Holds, ClockValuation.side, same] using holds
          · obtain ⟨greatest', found', le⟩ := bounded clock (by simp [clocks])
            obtain rfl : greatest = greatest' := Option.some.inj (found.symm.trans found')
            have limit := (within le).2
            cases strict <;> simp [Holds, ClockValuation.side] <;> linarith

/-- The operation has constants that matter for the tracked clocks. -/
def ClockOperation.Matters (constants : Zone.ClockConstants) (tracked : List VarDecl) :
    ClockOperation → Prop
  | .guard constraint | .invariant constraint =>
      constraint.ComparesOne ∧ constraint.clocks ⊆ tracked ∧ ∀ clock ∈ constraint.clocks,
        ∃ greatest, OrderedMap.find? clock constants = some greatest ∧
          (constraint.bound.natAbs : Int) ≤ greatest
  | _ => True

/-- Operations lead from similar valuations to similar ones. -/
theorem ClockOperation.Leads.exists_similar {operation : ClockOperation}
    (leads : operation.Leads before after) (matters : operation.Matters constants tracked)
    (similar : ∀ clock ∈ tracked, before'.Similar constants before clock) :
    ∃ after', operation.Leads before' after' ∧
      ∀ clock ∈ tracked, after'.Similar constants after clock := by
  cases leads with
  | guard holds =>
      obtain ⟨compares, inside, bounded⟩ := matters
      exact ⟨before', .guard (holds.of_similar compares bounded fun clock member =>
        similar clock (inside member)), similar⟩
  | invariant holds =>
      obtain ⟨compares, inside, bounded⟩ := matters
      exact ⟨before', .invariant (holds.of_similar compares bounded fun clock member =>
        similar clock (inside member)), similar⟩
  | reset clock value =>
      refine ⟨_, .reset clock value before', fun other member => ?_⟩
      unfold ClockValuation.Similar
      by_cases same : other = clock
      · subst same
        exact .inl (by rw [Function.update_self, Function.update_self])
      · rw [Function.update_of_ne same, Function.update_of_ne same]
        exact similar other member
  | @delay delay _ elapses =>
      refine ⟨_, .delay before' elapses, fun clock member => ?_⟩
      rcases similar clock member with same | ⟨greatest, found, above, above'⟩
      · exact .inl (congrArg (· + delay) same)
      · exact .inr ⟨greatest, found, lt_add_of_lt_of_nonneg above elapses,
          lt_add_of_lt_of_nonneg above' elapses⟩

theorem ClockOperation.LeadThrough.exists_similar {operations : List ClockOperation}
    (leads : LeadThrough operations before after)
    (matter : ∀ operation ∈ operations, operation.Matters constants tracked)
    (similar : ∀ clock ∈ tracked, before'.Similar constants before clock) :
    ∃ after', LeadThrough operations before' after' ∧
      ∀ clock ∈ tracked, after'.Similar constants after clock := by
  induction leads generalizing before' with
  | nil => exact ⟨before', .nil before', similar⟩
  | cons first _ ih =>
      obtain ⟨matters, matter⟩ := List.forall_mem_cons.mp matter
      obtain ⟨middle, step, similarMiddle⟩ := first.exists_similar matters similar
      obtain ⟨after', rest, similarAfter⟩ := ih matter similarMiddle
      exact ⟨after', .cons step rest, similarAfter⟩

end Similarity

end AbstractionRefinement
