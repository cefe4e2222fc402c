import AbstractionRefinement.ControlFlowAutomata
import AbstractionRefinement.Proofs.ClockTransformers

/-!
# Exactness of initial zones

The initial zone has exactly the valuations after a delay within the invariants.  It results
from many operations one after the other, but its constants stay small: canonical zones with
the same valuations have the same bounds, so they are those of the canonical form of all
constraints at once.
-/

namespace AbstractionRefinement

namespace Zone

variable {zone : Zone} {limit : Nat}

section Condensed

variable {other raw : Zone}

theorem Canonical.get_le (canonical : zone.Canonical) (nodup : zone.clocks.Nodup)
    (limited : other.Mild) (sameClocks : other.clocks = zone.clocks)
    (contained : ∀ valuation, zone.Contains valuation → other.Contains valuation)
    {row column : Nat} (isRow : row < zone.dimension) (isColumn : column < zone.dimension) :
    zone.get row column ≤ other.get row column := by
  have isRow' : row < other.dimension := by rwa [dimension, sameClocks]
  have isColumn' : column < other.dimension := by rwa [dimension, sameClocks]
  rw [get_le_iff_of_closed canonical.closed canonical.mild.representable isRow isColumn nodup
    (fun _ => canonical.diagonal) (limited row isRow' column isColumn').le_infinity]
  intro valuation contains
  rw [← sameClocks]
  exact contained valuation contains row (Finset.mem_range.mpr isRow') column
    (Finset.mem_range.mpr isColumn')

theorem Canonical.get_eq (canonical : zone.Canonical) (canonical' : other.Canonical)
    (nodup : zone.clocks.Nodup) (sameClocks : other.clocks = zone.clocks)
    (same : ∀ valuation, other.Contains valuation ↔ zone.Contains valuation) {row column : Nat}
    (isRow : row < zone.dimension) (isColumn : column < zone.dimension) :
    zone.get row column = other.get row column := by
  have le := canonical.get_le nodup canonical'.mild sameClocks (fun _ => (same _).mpr) isRow
    isColumn
  have ge : other.get row column ≤ zone.get row column :=
    canonical'.get_le (sameClocks ▸ nodup) canonical.mild sameClocks.symm
      (fun _ => (same _).mp) (by rwa [dimension, sameClocks]) (by rwa [dimension, sameClocks])
  exact congrArg Bound.mk (Int.le_antisymm le ge)

/-- The zone has the valuations of some bounds with small constants. -/
structure Condenses (limit : Nat) (zone raw : Zone) : Prop where
  clocks_eq : raw.clocks = zone.clocks
  square : raw.Square
  within : raw.Within limit
  diagonal : ∀ index < raw.dimension, raw.system.limit index index ⊆ Set.Iic 0
  contains_iff (valuation : ClockValuation) : raw.Contains valuation ↔ zone.Contains valuation

/-- So its constants are small as well, however it came about. -/
theorem Condenses.within_of_canonical (condenses : zone.Condenses limit raw)
    (canonical : zone.Canonical) (nodup : zone.clocks.Nodup)
    (small : zone.dimension * limit < 2 ^ 59) : zone.Within ((zone.dimension + 1) * limit) := by
  have sameDimension : raw.dimension = zone.dimension := by
    rw [dimension, condenses.clocks_eq, dimension]
  have small' : raw.dimension * limit < 2 ^ 59 := by rwa [sameDimension]
  have same (valuation : ClockValuation) :
      raw.canonize.Contains valuation ↔ zone.Contains valuation :=
    (condenses.within.contains_canonize_iff condenses.square small').trans
      (condenses.contains_iff valuation)
  obtain ⟨valuation, contains⟩ := exists_contains_of_closed canonical.closed nodup
  have nonempty : raw.canonize.isEmpty = false := ((same valuation).mpr contains).nonempty
  have canonical' := condenses.within.canonical_canonize condenses.square small'
    condenses.diagonal nonempty
  have within := condenses.within.canonize condenses.square
    (condenses.within.representable small') (small'.trans (by decide)) nonempty
  intro row isRow column isColumn
  rw [canonical.get_eq canonical' nodup (by rw [clocks_canonize, condenses.clocks_eq]) same isRow
    isColumn, ← sameDimension]
  apply within
  · rwa [dimension_canonize, sameDimension]
  · rwa [dimension_canonize, sameDimension]

/-- Conjoining one more constraint. -/
theorem Condenses.constrain (condenses : zone.Condenses limit raw) (small : limit < 2 ^ 59)
    {constraint : ClockConstraint} (far : constraint.Within limit) {result : Zone}
    (sameClocks : result.clocks = zone.clocks)
    (contains_iff : ∀ valuation, result.Contains valuation ↔ zone.Contains valuation ∧
      (constraint.clocks ⊆ zone.clocks → constraint.Holds valuation)) :
    result.Condenses limit (raw.constrain constraint) := by
  have mild := condenses.within.mild (small.trans (by decide))
  have moderate := far.far small
  by_cases tracked : constraint.clocks ⊆ raw.clocks
  · constructor
    · rw [clocks_constrain, condenses.clocks_eq, sameClocks]
    · exact square_constrain condenses.square constraint
    · exact condenses.within.constrain small far
    · intro index isIndex
      rw [dimension, clocks_constrain] at isIndex
      exact (constrain_subset mild tracked isIndex isIndex).trans
        (condenses.diagonal index isIndex)
    · intro valuation
      rw [contains_constrain_iff mild moderate tracked, contains_iff, condenses.contains_iff]
      simp [← condenses.clocks_eq, tracked]
  · rw [constrain_of_untracked tracked]
    constructor
    · rw [condenses.clocks_eq, sameClocks]
    · exact condenses.square
    · exact condenses.within
    · exact condenses.diagonal
    · intro valuation
      rw [contains_iff, condenses.contains_iff]
      simp [← condenses.clocks_eq, tracked]

end Condensed

def restrict (zone : Zone) (constraints : List ClockConstraint) : Zone :=
  (constraints.map ClockOperation.invariant).foldl Zone.apply zone

@[simp] theorem clocks_restrict (zone : Zone) (constraints : List ClockConstraint) :
    (zone.restrict constraints).clocks = zone.clocks := by
  induction constraints generalizing zone with
  | nil => rfl
  | cons constraint constraints ih => exact (ih _).trans (clocks_apply ..)

theorem square_restrict (square : zone.Square) (constraints : List ClockConstraint) :
    (zone.restrict constraints).Square := by
  induction constraints generalizing zone with
  | nil => exact square
  | cons constraint constraints ih => exact ih (square_apply square _)

theorem nonempty_of_restrict (square : zone.Square) {constraints : List ClockConstraint}
    (nonempty : (zone.restrict constraints).isEmpty = false) : zone.isEmpty = false := by
  apply (applyAll_eq_foldl square _ nonempty).2
  simp

/-- The constraints that the zone can see hold. -/
def Obeys (tracked : List VarDecl) (constraints : List ClockConstraint)
    (valuation : ClockValuation) : Prop :=
  ∀ constraint ∈ constraints, constraint.clocks ⊆ tracked → constraint.Holds valuation

theorem obeys_cons_iff {tracked : List VarDecl} {constraint : ClockConstraint}
    {constraints : List ClockConstraint} {valuation : ClockValuation} :
    Obeys tracked (constraint :: constraints) valuation ↔
      (constraint.clocks ⊆ tracked → constraint.Holds valuation) ∧
        Obeys tracked constraints valuation :=
  List.forall_mem_cons

theorem exists_yields_invariant_iff {constraint : ClockConstraint} {after : ClockValuation} :
    (∃ before, zone.Contains before ∧
        (ClockOperation.invariant constraint).Yields zone.clocks before after) ↔
      zone.Contains after ∧ (constraint.clocks ⊆ zone.clocks → constraint.Holds after) := by
  by_cases tracked : constraint.clocks ⊆ zone.clocks
  · have tracked' : (ClockOperation.invariant constraint).clocks ⊆ zone.clocks := tracked
    simp only [ClockOperation.yields_iff_leads tracked', tracked, true_implies]
    constructor
    · rintro ⟨_, contains, ⟨⟩ | ⟨⟩ | ⟨⟩ | ⟨holds⟩⟩
      exact ⟨contains, holds⟩
    · rintro ⟨contains, holds⟩
      exact ⟨after, contains, .invariant holds⟩
  · have untracked : ¬ (ClockOperation.invariant constraint).clocks ⊆ zone.clocks := tracked
    simp [ClockOperation.yields_iff_eq untracked, tracked]

/-- Constraints leave exactly the valuations that obey them. -/
theorem Canonical.restrict_exact {raw : Zone} {constraints : List ClockConstraint}
    (canonical : zone.Canonical) (nodup : zone.clocks.Nodup)
    (condenses : zone.Condenses limit raw)
    (far : ∀ constraint ∈ constraints, constraint.Within limit)
    (small : zone.dimension * ((zone.dimension + 1) * limit) < 2 ^ 58) :
    ((zone.restrict constraints).Canonical ∨ (zone.restrict constraints).isEmpty = true) ∧
      ∀ valuation, (zone.restrict constraints).Contains valuation ↔
        zone.Contains valuation ∧ Obeys zone.clocks constraints valuation := by
  induction constraints generalizing zone raw with
  | nil => exact ⟨.inl canonical, fun valuation => by simp [restrict, Obeys]⟩
  | cons constraint constraints ih =>
      obtain ⟨isFar, far⟩ := List.forall_mem_cons.mp far
      have larger : limit ≤ (zone.dimension + 1) * limit :=
        Nat.le_mul_of_pos_left limit (Nat.succ_pos _)
      have lt : zone.dimension * limit < 2 ^ 58 :=
        lt_of_le_of_lt (Nat.mul_le_mul_left _ larger) small
      have within := condenses.within_of_canonical canonical nodup (lt.trans (by decide))
      have isFar' : (ClockOperation.invariant constraint).Within ((zone.dimension + 1) * limit) :=
        ⟨by have := isFar.1; omega, by have := isFar.2; omega⟩
      obtain ⟨either, exact_iff⟩ := canonical.apply_exact nodup within isFar' small
      simp only [exists_yields_invariant_iff] at exact_iff
      have same : zone.restrict (constraint :: constraints) =
          (zone.apply (.invariant constraint)).restrict constraints := rfl
      rw [same]
      rcases either with canonical' | empty
      · have condenses' := condenses.constrain (limit_lt_of_small (lt.trans (by decide))) isFar
          (clocks_apply ..) exact_iff
        obtain ⟨either, contains_iff⟩ := ih canonical' (by rwa [clocks_apply]) condenses' far
          (by rwa [dimension, clocks_apply])
        refine ⟨either, fun valuation => ?_⟩
        rw [contains_iff, exact_iff, clocks_apply, obeys_cons_iff, and_assoc]
      -- An empty zone stays empty.
      · have empty' : ((zone.apply (.invariant constraint)).restrict constraints).isEmpty = true := by
          by_contra nonempty
          have square := square_apply canonical.square (.invariant constraint)
          simp [nonempty_of_restrict square (Bool.eq_false_iff.mpr nonempty)] at empty
        refine ⟨.inr empty', fun valuation => ?_⟩
        rw [obeys_cons_iff, ← and_assoc, ← exact_iff]
        constructor
        · intro contains
          simp [contains.nonempty] at empty'
        · rintro ⟨contains, -⟩
          simp [contains.nonempty] at empty

theorem Canonical.condenses_self (canonical : zone.Canonical) (within : zone.Within limit) :
    zone.Condenses limit zone where
  clocks_eq := rfl
  square := canonical.square
  within := within
  diagonal _ := canonical.diagonal
  contains_iff _ := .rfl

theorem within_origin (clocks : List VarDecl) (limit : Nat) : (origin clocks).Within limit := by
  intro row isRow column isColumn
  have constant : Bound.zero.constant = 0 := rfl
  rw [get_origin clocks isRow isColumn, Bound.Within, constant]
  right
  omega

theorem contains_origin_iff {clocks : List VarDecl} {valuation : ClockValuation} :
    (origin clocks).Contains valuation ↔ ∀ clock ∈ clocks, valuation clock = 0 := by
  constructor
  · intro contains clock
    exact eq_zero_of_origin contains
  · intro zero row isRow column isColumn
    have value (index : Nat) : valuesOf clocks valuation index = 0 := by
      cases index with
      | zero => rfl
      | succ position =>
          cases found : clocks[position]? with
          | none => simp [valuesOf, found]
          | some clock => simp [valuesOf, found, zero clock (List.mem_of_getElem? found)]
    rw [limit_origin clocks (Finset.mem_range.mp isRow) (Finset.mem_range.mp isColumn)]
    show valuesOf clocks valuation row - valuesOf clocks valuation column ≤ 0
    rw [value, value, sub_self]

theorem Obeys.congr {tracked : List VarDecl} {constraints : List ClockConstraint}
    {valuation valuation' : ClockValuation} (obeys : Obeys tracked constraints valuation)
    (same : ∀ clock ∈ tracked, valuation clock = valuation' clock) :
    Obeys tracked constraints valuation' := by
  intro constraint member isTracked
  have holds := obeys constraint member isTracked
  obtain ⟨inLeft, inRight⟩ := List.append_subset.mp isTracked
  have side {part : Option VarDecl} (inside : part.toList ⊆ tracked) :
      valuation.side part = valuation'.side part := by
    cases part with
    | none => rfl
    | some clock => exact same clock (inside (by simp))
  rwa [ClockConstraint.Holds, side inLeft, side inRight] at holds

/-- The valuations after some time since all tracked clocks were zero. -/
theorem exists_yields_delay_iff {clocks : List VarDecl} {after : ClockValuation} :
    (∃ before : ClockValuation, (∀ clock ∈ clocks, before clock = 0) ∧
        ClockOperation.delay.Yields clocks before after) ↔
      ∃ delay ≥ 0, ∀ clock ∈ clocks, after clock = delay := by
  have tracked : ClockOperation.delay.clocks ⊆ clocks := List.nil_subset clocks
  simp only [ClockOperation.yields_iff_leads tracked]
  constructor
  · rintro ⟨before, zero, ⟨⟩ | ⟨⟩ | ⟨_, elapses⟩⟩
    refine ⟨_, elapses, fun clock member => ?_⟩
    rw [ClockValuation.elapse, zero clock member, zero_add]
  · rintro ⟨delay, elapses, same⟩
    refine ⟨after.elapse (-delay), fun clock member => ?_, ?_⟩
    · rw [ClockValuation.elapse, same clock member, add_neg_cancel]
    · have leads := ClockOperation.Leads.delay (after.elapse (-delay)) elapses
      have back : (after.elapse (-delay)).elapse delay = after := by
        funext clock
        simp [ClockValuation.elapse]
      rwa [back] at leads

/-- The zone after a delay from zero. -/
theorem delayed_exact (limit : Nat) {start : Zone} {clocks : List VarDecl}
    (sameClocks : start.clocks = clocks)
    (canonical : start.Canonical) (nodup : clocks.Nodup)
    (contains_iff : ∀ valuation,
      start.Contains valuation ↔ ∀ clock ∈ clocks, valuation clock = 0) :
    (start.apply .delay).Canonical ∧
      (start.apply .delay).Condenses limit (start.changed .delay) ∧
      ∀ valuation, (start.apply .delay).Contains valuation ↔
        ∃ delay ≥ 0, ∀ clock ∈ clocks, valuation clock = delay := by
  subst sameClocks
  have within : start.Within 0 := by
    intro row isRow column isColumn
    rw [canonical.get_eq (canonical_origin start.clocks) nodup rfl
      (fun valuation => contains_origin_iff.trans (contains_iff valuation).symm) isRow isColumn]
    exact within_origin start.clocks 0 row isRow column isColumn
  have far : ClockOperation.delay.Within 0 := trivial
  have moderate : ClockOperation.delay.Moderate := trivial
  obtain ⟨either, exact_iff⟩ := canonical.apply_exact nodup within far (by simp)
  simp only [contains_iff, exists_yields_delay_iff] at exact_iff
  have someTime : (start.apply .delay).Contains fun _ => 0 :=
    (exact_iff _).mpr ⟨0, le_rfl, fun _ _ => rfl⟩
  have canonical' : (start.apply .delay).Canonical := by
    apply either.resolve_right
    simp [someTime.nonempty]
  have within' := within.changed (by decide) far
  refine ⟨canonical', ?_, exact_iff⟩
  constructor
  · rw [clocks_apply, clocks_changed]
  · exact square_changed canonical.square .delay
  · exact within'.mono (by simp)
  · intro index isIndex
    rw [dimension, clocks_changed] at isIndex
    exact canonical.diagonal_changed moderate (List.nil_subset _) isIndex
  · intro valuation
    rw [apply_eq, within'.contains_canonize_iff (square_changed canonical.square .delay) (by simp)]

end Zone

namespace ZoneState

open Zone

variable {invariants : List ClockConstraint} {tracked : ZonePrecision} {limit : Nat}

theorem initialZone_eq_restrict (invariants : List ClockConstraint) (tracked : ZonePrecision) :
    initialZone invariants tracked =
      (((origin tracked.clocks).restrict invariants).apply .delay).restrict invariants := by
  simp only [initialZone, restrict, List.foldl_map]

section Exact

variable (nodup : tracked.clocks.Nodup)
  (far : ∀ constraint ∈ invariants, constraint.Within limit)
  (small : (tracked.clocks.length + 1) * ((tracked.clocks.length + 2) * limit) < 2 ^ 58)

include nodup far small

/-- If the invariants hold in the beginning, the initial zone has the valuations after a delay
that obey them. -/
theorem initialZone_exact (start : Obeys tracked.clocks invariants fun _ => 0) :
    (initialZone invariants tracked).Canonical ∧
      ∀ valuation, (initialZone invariants tracked).Contains valuation ↔
        ∃ delay ≥ 0, (∀ clock ∈ tracked.clocks, valuation clock = delay) ∧
          Obeys tracked.clocks invariants valuation := by
  have canonical := canonical_origin tracked.clocks
  obtain ⟨either, contains_iff⟩ := canonical.restrict_exact nodup
    (canonical.condenses_self (within_origin tracked.clocks limit)) far small
  have contains_iff' (valuation : ClockValuation) :
      ((origin tracked.clocks).restrict invariants).Contains valuation ↔
        ∀ clock ∈ tracked.clocks, valuation clock = 0 := by
    rw [contains_iff, contains_origin_iff, and_iff_left_iff_imp]
    intro zero
    exact start.congr fun clock member => (zero clock member).symm
  have beginning := (contains_iff' fun _ => 0).mpr fun _ _ => rfl
  have canonical' := either.resolve_right (by simp [beginning.nonempty])
  obtain ⟨delayed, condenses, delayed_iff⟩ :=
    delayed_exact limit (clocks_restrict ..) canonical' nodup contains_iff'
  have sameClocks : (((origin tracked.clocks).restrict invariants).apply .delay).clocks =
      tracked.clocks := by
    rw [clocks_apply, clocks_restrict]
    rfl
  obtain ⟨either', exact_iff⟩ := delayed.restrict_exact (by rwa [sameClocks]) condenses far
    (by rwa [dimension, sameClocks])
  rw [← initialZone_eq_restrict] at either' exact_iff
  have exact_iff' (valuation : ClockValuation) :
      (initialZone invariants tracked).Contains valuation ↔
        ∃ delay ≥ 0, (∀ clock ∈ tracked.clocks, valuation clock = delay) ∧
          Obeys tracked.clocks invariants valuation := by
    rw [exact_iff, delayed_iff, sameClocks]
    constructor
    · rintro ⟨⟨delay, elapses, same⟩, obeys⟩
      exact ⟨delay, elapses, same, obeys⟩
    · rintro ⟨delay, elapses, same, obeys⟩
      exact ⟨⟨delay, elapses, same⟩, obeys⟩
  have atOnce := (exact_iff' fun _ => 0).mpr ⟨0, le_rfl, fun _ _ => rfl, start⟩
  exact ⟨either'.resolve_right (by simp [atOnce.nonempty]), exact_iff'⟩

/-- If they do not, the initial zone is empty. -/
theorem initialZone_empty (start : ¬ Obeys tracked.clocks invariants fun _ => 0) :
    (initialZone invariants tracked).isEmpty = true := by
  have canonical := canonical_origin tracked.clocks
  obtain ⟨either, contains_iff⟩ := canonical.restrict_exact nodup
    (canonical.condenses_self (within_origin tracked.clocks limit)) far small
  rcases either with canonical' | empty
  · obtain ⟨valuation, contains⟩ := exists_contains_of_closed canonical'.closed
      (by rwa [clocks_restrict])
    rw [contains_iff, contains_origin_iff] at contains
    exact absurd (contains.2.congr contains.1) start
  · by_contra nonempty
    rw [Bool.not_eq_true, initialZone_eq_restrict] at nonempty
    have square := square_restrict canonical.square invariants
    have delayed := nonempty_of_restrict (square_apply square .delay) nonempty
    have before := nonempty_of_apply square (by simp) delayed
    simp [before] at empty

end Exact

/-- Clock operations are exact on canonical zones with small constants, and the initial states
are exactly the valuations after a delay within the invariants. -/
theorem operations_exact {ω α : Type} [ClockAction α] :
    (∀ (zone : Zone) (limit : Nat) (operation : ClockOperation), zone.Canonical →
      zone.clocks.Nodup → zone.Within limit → operation.Within limit →
      zone.dimension * limit < 2 ^ 58 →
        ((zone.apply operation).Canonical ∨ (zone.apply operation).isEmpty = true) ∧
          ∀ after, (zone.apply operation).Contains after ↔
            ∃ before, zone.Contains before ∧ operation.Yields zone.clocks before after) ∧
    ∀ (invariants : List ClockConstraint) (constants : ClockConstants) (tracked : ZonePrecision)
      (limit : Nat) (world : ω), tracked.clocks.Nodup →
      (∀ constraint ∈ invariants, constraint.Within limit) →
      (tracked.clocks.length + 1) * ((tracked.clocks.length + 2) * limit) < 2 ^ 58 →
        ((Obeys tracked.clocks invariants fun _ => 0) → ∃ bounds : Zone,
          (analysis (α := α) invariants constants).initialStates tracked world =
              (.ok [.zone bounds], world) ∧
            bounds.Canonical ∧ bounds.clocks = tracked.clocks ∧
              ∀ valuation, bounds.Contains valuation ↔
                ∃ delay ≥ 0, (∀ clock ∈ tracked.clocks, valuation clock = delay) ∧
                  Obeys tracked.clocks invariants valuation) ∧
        ((¬ Obeys tracked.clocks invariants fun _ => 0) →
          (analysis (α := α) invariants constants).initialStates tracked world =
            (.ok [], world)) := by
  constructor
  · intro zone limit operation canonical nodup within far small
    exact canonical.apply_exact nodup within far small
  · intro invariants constants tracked limit world nodup far small
    constructor
    · intro start
      obtain ⟨canonical, contains_iff⟩ := initialZone_exact nodup far small start
      have nonempty : (initialZone invariants tracked).isEmpty = false := by
        have now := (contains_iff fun _ => 0).mpr ⟨0, le_rfl, fun _ _ => rfl, start⟩
        exact now.nonempty
      refine ⟨initialZone invariants tracked, ?_, canonical, ?_, contains_iff⟩
      · simp only [analysis, ofZone, nonempty]
        rfl
      · simp only [initialZone_eq_restrict, clocks_restrict, clocks_apply]
        rfl
    · intro late
      simp only [analysis, ofZone, initialZone_empty nodup far small late]
      rfl

def stay : List ClockConstraint :=
  [.atMost ⟨"arrived", .rat⟩ 5, .below ⟨"absent", .rat⟩ 0]

theorem obeys_stay : Obeys guestClocks stay fun _ => 0 := by
  intro constraint member tracked
  rcases List.mem_pair.mp member with rfl | rfl
  · simp [ClockConstraint.Holds, ClockConstraint.atMost, ClockValuation.side]
  · exact absurd tracked (by decide)

/-- They may be served three hours from now, and they have arrived at most five hours ago. -/
theorem guests_operations_exact :
    (∀ after, ((origin guestClocks).apply (.reset ⟨"served", .rat⟩ (-3))).Contains after ↔
      ∃ before, (origin guestClocks).Contains before ∧
        (ClockOperation.reset ⟨"served", .rat⟩ (-3)).Yields guestClocks before after) ∧
    ∃ bounds : Zone,
      (analysis (α := ControlEdge) stay []).initialStates ⟨guestClocks⟩ () =
          (.ok [.zone bounds], ()) ∧
        ∀ valuation, bounds.Contains valuation ↔ ∃ delay ≥ 0,
          (∀ clock ∈ guestClocks, valuation clock = delay) ∧
            Obeys guestClocks stay valuation := by
  obtain ⟨operations, initial⟩ := operations_exact (ω := Unit) (α := ControlEdge)
  constructor
  · exact (operations (origin guestClocks) 5 (.reset ⟨"served", .rat⟩ (-3)) (canonical_origin _)
      (by decide) (within_origin _ _) (by decide) (by decide)).2
  · obtain ⟨bounds, states, -, -, contains_iff⟩ :=
      (initial stay [] ⟨guestClocks⟩ 5 () (by decide) (by decide) (by decide)).1 obeys_stay
    exact ⟨bounds, states, contains_iff⟩

end ZoneState

end AbstractionRefinement
