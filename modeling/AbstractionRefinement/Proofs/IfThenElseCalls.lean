import AbstractionRefinement.Proofs.DiagramSemantics

/-!
# Calls of the if-then-else operation

A call is decided, replaced by another call or split into the calls for its
cofactors.  One of the rules that decide a call is wrong: the choice of false or
`f` by `f` gives `f` instead of false.  A call overlaps if the recursion reaches
this rule.

What becomes of a call depends on the nodes of its operands only, and a call
that is a connective does not overlap.
-/

namespace AbstractionRefinement

namespace DiagramManager

/-- The operands of an if-then-else call that is a conjunction, a disjunction, an
implication or an equivalence. -/
def Connective (g h : Edge) : Prop :=
  h = .zero ∨ g = .one ∨ h = .one ∨ h = -g

/-- The condition does not occur among the branches. -/
def Apart (f g h : Edge) : Prop :=
  g ≠ f ∧ g ≠ -f ∧ h ≠ f ∧ h ≠ -f

/-- The operands in normal form, and whether the result is to be complemented. -/
def normalOperands (f g h : Edge) : Edge × Edge × Edge × Bool :=
  let (f, g, h) := if f.isNegated then (-f, h, g) else (f, g, h)
  if g.isNegated then (f, -g, -h, true) else (f, g, h, false)

/-- The recursion of a call reaches the choice of false or `f` by `f`. -/
inductive Overlaps (manager : DiagramManager) : Edge → Edge → Edge → Prop where
  | reached {f : Edge} : f.index ≠ 1 → Overlaps manager f .zero f
  | again {f g h f' g' h' : Edge} : manager.iteStep f g h = .again f' g' h' →
      Overlaps manager f' g' h' → Overlaps manager f g h
  | low {f g h f' g' h' : Edge} {negate : Bool} : manager.iteStep f g h = .open →
      normalOperands f g h = (f', g', h', negate) →
      Overlaps manager (manager.cofactors (manager.topLevel f' g' h') f').1
        (manager.cofactors (manager.topLevel f' g' h') g').1
        (manager.cofactors (manager.topLevel f' g' h') h').1 → Overlaps manager f g h
  | high {f g h f' g' h' : Edge} {negate : Bool} : manager.iteStep f g h = .open →
      normalOperands f g h = (f', g', h', negate) →
      Overlaps manager (manager.cofactors (manager.topLevel f' g' h') f').2
        (manager.cofactors (manager.topLevel f' g' h') g').2
        (manager.cofactors (manager.topLevel f' g' h') h').2 → Overlaps manager f g h

variable {manager : DiagramManager}

theorem inner_of_open {f g h : Edge} (step : manager.iteStep f g h = .open) : f.index ≠ 1 := by
  rw [Ne, ← Edge.isTerminal_iff]
  intro terminal
  simp only [Edge.isTerminal, Bool.or_eq_true] at terminal
  unfold iteStep at step
  rcases terminal with zero | one
  · simp [zero] at step
    split at step <;> cases step
  · simp [one] at step

theorem branches_of_open {f g h : Edge} (step : manager.iteStep f g h = .open) : g ≠ h := by
  simp only [iteStep, ite_eq_iff, reduceCtorEq, and_false, false_or] at step
  exact step.2.2.1

theorem done_of_reached {f : Edge} (inner : f.index ≠ 1) :
    manager.iteStep f .zero f = .done f := by
  have notOne : f ≠ .one := by
    rintro rfl
    exact inner rfl
  have notZero : f ≠ .zero := by
    rintro rfl
    exact inner rfl
  simp [iteStep, Edge.isOne, Edge.isZero, notOne, notZero, notZero.symm, Edge.zero_ne_one]

/-- The calls by which a call may be replaced. -/
theorem again_cases {f g h f' g' h' : Edge} (step : manager.iteStep f g h = .again f' g' h') :
    f ≠ .one ∧ f ≠ .zero ∧ g ≠ h ∧
      ((g = f ∧ f' = f ∧ g' = .one ∧ h' = h) ∨
        (g ≠ f ∧ h = f ∧ f' = f ∧ g' = g ∧ h' = .zero) ∨
        (h ≠ f ∧ g = -f ∧ f' = f ∧ g' = .zero ∧ h' = h) ∨
        (g ≠ f ∧ g ≠ -f ∧ h = -f ∧ f' = f ∧ g' = g ∧ h' = .one) ∨
        (Apart f g h ∧ manager.levelOf f' ≠ 0 ∧ manager.levelOf f' < manager.levelOf f ∧
          ((g = .one ∧ f' = h ∧ g' = .one ∧ h' = f) ∨
            (h = .zero ∧ f' = g ∧ g' = f ∧ h' = .zero) ∨
            (h = .one ∧ f' = -g ∧ g' = -f ∧ h' = .one) ∨
            (g = .zero ∧ f' = -h ∧ g' = .zero ∧ h' = -f) ∨
            (g = -h ∧ f' = g ∧ g' = f ∧ h' = -f)))) := by
  simp only [iteStep, ite_eq_iff, Edge.isOne, Edge.isZero, Bool.and_eq_true, decide_eq_true_eq,
    IteStep.again.injEq, reduceCtorEq, and_false, false_or, or_false] at step
  obtain ⟨notOne, notZero, differ, -, -, -, -, -, -, step⟩ := step
  refine ⟨notOne, notZero, differ, ?_⟩
  rcases step with ⟨rfl, rfl, rfl, rfl⟩ | ⟨notG, ⟨rfl, rfl, rfl, rfl⟩ |
    ⟨notH, ⟨rfl, rfl, rfl, rfl⟩ | ⟨notG', ⟨rfl, rfl, rfl, rfl⟩ | ⟨notH', swap⟩⟩⟩⟩
  · exact .inl ⟨rfl, rfl, rfl, rfl⟩
  · exact .inr (.inl ⟨notG, rfl, rfl, rfl, rfl⟩)
  · exact .inr (.inr (.inl ⟨notH, rfl, rfl, rfl, rfl⟩))
  · exact .inr (.inr (.inr (.inl ⟨notG, notG', rfl, rfl, rfl, rfl⟩)))
  · have apart : Apart f g h := ⟨notG, notG', notH, notH'⟩
    refine .inr (.inr (.inr (.inr ⟨apart, ?_⟩)))
    rcases swap with ⟨⟨⟨one, pos⟩, less⟩, rfl, rfl, rfl⟩ | ⟨-, ⟨⟨⟨zero, pos⟩, less⟩, rfl, rfl, rfl⟩ |
      ⟨-, ⟨⟨⟨one, pos⟩, less⟩, rfl, rfl, rfl⟩ | ⟨-, ⟨⟨⟨zero, pos⟩, less⟩, rfl, rfl, rfl⟩ |
      ⟨-, ⟨⟨opposite, pos⟩, less⟩, rfl, rfl, rfl⟩⟩⟩⟩
    · exact ⟨pos, less, .inl ⟨one, rfl, rfl, rfl⟩⟩
    · exact ⟨pos, less, .inr (.inl ⟨zero, rfl, rfl, rfl⟩)⟩
    · exact ⟨by rwa [levelOf_neg], by rwa [levelOf_neg], .inr (.inr (.inl ⟨one, rfl, rfl, rfl⟩))⟩
    · exact ⟨by rwa [levelOf_neg], by rwa [levelOf_neg],
        .inr (.inr (.inr (.inl ⟨zero, rfl, rfl, rfl⟩)))⟩
    · exact ⟨pos, less, .inr (.inr (.inr (.inr ⟨opposite, rfl, rfl, rfl⟩)))⟩

theorem owns_of_again (grounded : manager.Grounded) {f g h f' g' h' : Edge}
    (ownsF : manager.Owns f) (ownsG : manager.Owns g) (ownsH : manager.Owns h)
    (step : manager.iteStep f g h = .again f' g' h') :
    manager.Owns f' ∧ manager.Owns g' ∧ manager.Owns h' := by
  have ownsOne := grounded.owns_one
  have ownsZero := grounded.owns_zero
  obtain ⟨-, -, -, cases⟩ := again_cases step
  rcases cases with ⟨-, rfl, rfl, rfl⟩ | ⟨-, -, rfl, rfl, rfl⟩ | ⟨-, -, rfl, rfl, rfl⟩ |
    ⟨-, -, -, rfl, rfl, rfl⟩ | ⟨-, -, -, ⟨-, rfl, rfl, rfl⟩ | ⟨-, rfl, rfl, rfl⟩ |
    ⟨-, rfl, rfl, rfl⟩ | ⟨-, rfl, rfl, rfl⟩ | ⟨-, rfl, rfl, rfl⟩⟩
  all_goals exact ⟨by simpa [owns_neg], by simpa [owns_neg], by simpa [owns_neg]⟩

/-- A call without overlap is decided or replaced by one without overlap. -/
theorem overlaps_again_iff {f g h f' g' h' : Edge}
    (step : manager.iteStep f g h = .again f' g' h') :
    manager.Overlaps f g h ↔ manager.Overlaps f' g' h' := by
  constructor
  · rintro (inner | ⟨step', overlaps⟩ | ⟨step', -, -⟩ | ⟨step', -, -⟩)
    · rw [done_of_reached inner] at step
      cases step
    · rw [step] at step'
      cases step'
      exact overlaps
    · rw [step] at step'
      cases step'
    · rw [step] at step'
      cases step'
  · exact .again step

theorem overlaps_open_iff {f g h f' g' h' : Edge} {negate : Bool}
    (step : manager.iteStep f g h = .open)
    (normal : normalOperands f g h = (f', g', h', negate)) :
    manager.Overlaps f g h ↔
      manager.Overlaps (manager.cofactors (manager.topLevel f' g' h') f').1
        (manager.cofactors (manager.topLevel f' g' h') g').1
        (manager.cofactors (manager.topLevel f' g' h') h').1 ∨
      manager.Overlaps (manager.cofactors (manager.topLevel f' g' h') f').2
        (manager.cofactors (manager.topLevel f' g' h') g').2
        (manager.cofactors (manager.topLevel f' g' h') h').2 := by
  constructor
  · rintro (inner | ⟨step', -⟩ | ⟨-, normal', overlaps⟩ | ⟨-, normal', overlaps⟩)
    · rw [done_of_reached inner] at step
      cases step
    · rw [step] at step'
      cases step'
    · rw [normal] at normal'
      cases normal'
      exact .inl overlaps
    · rw [normal] at normal'
      cases normal'
      exact .inr overlaps
  · rintro (overlaps | overlaps)
    · exact .low step normal overlaps
    · exact .high step normal overlaps

theorem overlaps_done_iff {f g h result : Edge} (step : manager.iteStep f g h = .done result) :
    manager.Overlaps f g h ↔ f.index ≠ 1 ∧ g = .zero ∧ h = f := by
  constructor
  · rintro (inner | ⟨step', -⟩ | ⟨step', -, -⟩ | ⟨step', -, -⟩)
    · exact ⟨inner, rfl, rfl⟩
    all_goals
      rw [step] at step'
      cases step'
  · rintro ⟨inner, rfl, rfl⟩
    exact .reached inner

/-- A branch can take the place of the condition if its root level is smaller. -/
def Precedes (manager : DiagramManager) (branch f : Edge) : Prop :=
  manager.levelOf branch ≠ 0 ∧ manager.levelOf branch < manager.levelOf f

theorem precedes_neg {branch f : Edge} :
    manager.Precedes (-branch) f ↔ manager.Precedes branch f := by
  simp [Precedes, levelOf_neg]

theorem precedes_neg_right {branch f : Edge} :
    manager.Precedes branch (-f) ↔ manager.Precedes branch f := by
  simp [Precedes, levelOf_neg]

/-- A call is left to its cofactors if no operand is repeated and no branch that could take
the place of the condition precedes it. -/
theorem iteStep_eq_open_iff {f g h : Edge} : manager.iteStep f g h = .open ↔
    (f ≠ .one ∧ f ≠ .zero ∧ g ≠ h ∧ Apart f g h) ∧
      (¬ (g = .one ∧ h = .zero) ∧ ¬ (g = .zero ∧ h = .one)) ∧
      (g = .one ∨ g = .zero → ¬ manager.Precedes h f) ∧
      (h = .one ∨ h = .zero → ¬ manager.Precedes g f) ∧
      (g = -h → ¬ manager.Precedes g f) := by
  simp only [iteStep, ite_eq_iff, reduceCtorEq, and_false, false_or, Edge.isOne, Edge.isZero,
    Bool.and_eq_true, decide_eq_true_eq, Precedes, Apart]
  grind

theorem normalOperands_eq (f g h : Edge) :
    normalOperands f g h =
      if f.isNegated then
        if h.isNegated then (-f, -h, -g, true) else (-f, h, g, false)
      else if g.isNegated then (f, -g, -h, true) else (f, g, h, false) := by
  unfold normalOperands
  cases f.isNegated <;> rfl

theorem branches_normalOperands {f g h f' g' h' : Edge} {negate : Bool}
    (normal : normalOperands f g h = (f', g', h', negate)) (differ : g ≠ h) : g' ≠ h' := by
  have opposite {first second : Edge} (differ : first ≠ second) : -first ≠ -second := by
    rw [Ne, Edge.eq_neg_iff, Edge.neg_neg]
    exact differ
  rw [normalOperands_eq] at normal
  split at normal <;> split at normal <;> cases normal
  · exact opposite differ.symm
  · exact differ.symm
  · exact opposite differ
  · exact differ

theorem owns_normalOperands {f g h f' g' h' : Edge} {negate : Bool} (ownsF : manager.Owns f)
    (ownsG : manager.Owns g) (ownsH : manager.Owns h)
    (normal : normalOperands f g h = (f', g', h', negate)) :
    manager.Owns f' ∧ manager.Owns g' ∧ manager.Owns h' := by
  rw [normalOperands_eq] at normal
  split at normal <;> split at normal <;> cases normal <;> simp [owns_neg, *]

theorem open_exchange {f g h : Edge} (step : manager.iteStep f g h = .open) :
    manager.iteStep (-f) h g = .open := by
  simp only [iteStep_eq_open_iff, Apart, precedes_neg_right, Edge.neg_neg] at step ⊢
  grind [Edge.neg_neg, Edge.neg_one, Edge.neg_zero, precedes_neg]

theorem open_complement {f g h : Edge} (step : manager.iteStep f g h = .open) :
    manager.iteStep f (-g) (-h) = .open := by
  simp only [iteStep_eq_open_iff, Apart, precedes_neg, Edge.neg_neg] at step ⊢
  grind [Edge.neg_neg, Edge.neg_one, Edge.neg_zero]

theorem open_normalOperands {f g h f' g' h' : Edge} {negate : Bool}
    (step : manager.iteStep f g h = .open)
    (normal : normalOperands f g h = (f', g', h', negate)) :
    manager.iteStep f' g' h' = .open := by
  rw [normalOperands_eq] at normal
  split at normal <;> split at normal <;> cases normal
  · exact open_complement (open_exchange step)
  · exact open_exchange step
  · exact open_complement step
  · exact step

theorem plain_normalOperands {f g h f' g' h' : Edge} {negate : Bool} (ownsF : manager.Owns f)
    (ownsG : manager.Owns g) (ownsH : manager.Owns h)
    (normal : normalOperands f g h = (f', g', h', negate)) :
    f'.isNegated = false ∧ g'.isNegated = false := by
  rw [normalOperands_eq] at normal
  split at normal <;> split at normal <;> cases normal <;>
    simp_all [Edge.isNegated_neg ownsF.1, Edge.isNegated_neg ownsG.1, Edge.isNegated_neg ownsH.1]

theorem normalOperands_of_plain {f g h : Edge} (plainF : f.isNegated = false)
    (plainG : g.isNegated = false) : normalOperands f g h = (f, g, h, false) := by
  simp [normalOperands_eq, plainF, plainG]

theorem overlaps_normalOperands {f g h f' g' h' : Edge} {negate : Bool}
    (ownsF : manager.Owns f) (ownsG : manager.Owns g) (ownsH : manager.Owns h)
    (step : manager.iteStep f g h = .open)
    (normal : normalOperands f g h = (f', g', h', negate)) :
    manager.Overlaps f g h ↔ manager.Overlaps f' g' h' := by
  obtain ⟨plainF, plainG⟩ := plain_normalOperands ownsF ownsG ownsH normal
  rw [overlaps_open_iff step normal, overlaps_open_iff (open_normalOperands step normal)
    (normalOperands_of_plain plainF plainG)]

theorem Connective.again {f g h f' g' h' : Edge} (connective : Connective g h)
    (step : manager.iteStep f g h = .again f' g' h') : Connective g' h' := by
  obtain ⟨notOne, notZero, differ, cases⟩ := again_cases step
  have undecided : ¬ (g = .zero ∧ h = .one) := by
    rintro ⟨rfl, rfl⟩
    simp [iteStep, Edge.isOne, Edge.isZero, notOne, notZero, Edge.zero_ne_one] at step
  grind [Connective, Edge.neg_neg, Edge.neg_one, Edge.neg_zero]

theorem Connective.exchange {g h : Edge} (connective : Connective g h) :
    Connective h g ∨ h = .zero := by
  rcases connective with rfl | rfl | rfl | rfl
  · exact .inr rfl
  · exact .inl (.inr (.inr (.inl rfl)))
  · exact .inl (.inr (.inl rfl))
  · exact .inl (.inr (.inr (.inr (Edge.neg_neg g).symm)))

/-- Complementing the branches if the first one is negated leaves a connective. -/
theorem Connective.complement {g h : Edge} (connective : Connective g h ∨ g = .zero) :
    if g.isNegated then Connective (-g) (-h) else Connective g h := by
  split
  case isTrue negated =>
    rcases connective with (rfl | rfl | rfl | rfl) | rfl
    · exact .inr (.inr (.inl rfl))
    · cases negated
    · exact .inl rfl
    · exact .inr (.inr (.inr rfl))
    · exact .inr (.inl rfl)
  case isFalse plain =>
    rcases connective with connective | rfl
    · exact connective
    · exact absurd rfl plain

theorem Connective.normal {f g h f' g' h' : Edge} {negate : Bool} (connective : Connective g h)
    (normal : normalOperands f g h = (f', g', h', negate)) : Connective g' h' := by
  have exchanged := Connective.complement connective.exchange
  have kept := Connective.complement (.inl connective)
  rw [normalOperands_eq] at normal
  split at normal
  case isTrue => split at normal <;> cases normal <;> simp_all
  case isFalse => split at normal <;> cases normal <;> simp_all

theorem cofactors_neg {edge : Edge} (used : 1 ≤ edge.index) (level : Nat) :
    manager.cofactors level (-edge) =
      (-(manager.cofactors level edge).1, -(manager.cofactors level edge).2) := by
  have terminal : (-edge).isTerminal = edge.isTerminal := by
    rw [Bool.eq_iff_iff, Edge.isTerminal_iff, Edge.isTerminal_iff, Edge.index_neg]
  unfold cofactors
  rw [terminal, levelOf_neg]
  split
  · rfl
  · unfold lowOf highOf
    rw [Edge.isNegated_neg used, Edge.index_neg]
    cases edge.isNegated <;> simp

theorem Connective.cofactors {g h : Edge} (connective : Connective g h) (differ : g ≠ h)
    (level : Nat) :
    Connective (manager.cofactors level g).1 (manager.cofactors level h).1 ∧
      Connective (manager.cofactors level g).2 (manager.cofactors level h).2 := by
  rcases connective with rfl | rfl | rfl | rfl
  · exact ⟨.inl rfl, .inl rfl⟩
  · exact ⟨.inr (.inl rfl), .inr (.inl rfl)⟩
  · exact ⟨.inr (.inr (.inl rfl)), .inr (.inr (.inl rfl))⟩
  · rw [cofactors_neg (Edge.index_pos_of_ne_neg differ)]
    exact ⟨.inr (.inr (.inr rfl)), .inr (.inr (.inr rfl))⟩

/-- No connective overlaps. -/
theorem Connective.not_overlaps {f g h : Edge} (connective : Connective g h) :
    ¬ manager.Overlaps f g h := by
  intro overlaps
  induction overlaps with
  | reached inner =>
      rcases connective with rfl | different | rfl | rfl
      · exact inner rfl
      · exact Edge.zero_ne_one different
      · exact inner rfl
      · exact inner rfl
  | again step _ ih => exact ih (connective.again step)
  | low step normal _ ih =>
      have differ := branches_normalOperands normal (branches_of_open step)
      exact ih ((connective.normal normal).cofactors differ _).1
  | high step normal _ ih =>
      have differ := branches_normalOperands normal (branches_of_open step)
      exact ih ((connective.normal normal).cofactors differ _).2

theorem Grounded.owns_cofactors (grounded : manager.Grounded) {edge : Edge}
    (owns : manager.Owns edge) (level : Nat) :
    manager.Owns (manager.cofactors level edge).1 ∧
      manager.Owns (manager.cofactors level edge).2 := by
  unfold cofactors
  split
  case isTrue => exact ⟨owns, owns⟩
  case isFalse within =>
    have inner : edge.index ≠ 1 := by
      intro terminal
      simp [(Edge.isTerminal_iff edge).mpr terminal] at within
    exact ⟨grounded.owns_lowOf owns inner, grounded.owns_highOf owns inner⟩

namespace Extends

variable {before after : DiagramManager} {f g h : Edge}

theorem iteStep_eq (grown : before.Extends after) (ownsF : before.Owns f) (ownsG : before.Owns g)
    (ownsH : before.Owns h) : after.iteStep f g h = before.iteStep f g h := by
  unfold iteStep
  rw [grown.levelOf_eq ownsF, grown.levelOf_eq ownsG, grown.levelOf_eq ownsH]

theorem topLevel_eq (grown : before.Extends after) (ownsF : before.Owns f)
    (ownsG : before.Owns g) (ownsH : before.Owns h) :
    after.topLevel f g h = before.topLevel f g h := by
  simp only [topLevel, grown.levelOf_eq ownsF, grown.levelOf_eq ownsG, grown.levelOf_eq ownsH]

theorem cofactors_eq (grown : before.Extends after) {edge : Edge} (owns : before.Owns edge)
    (level : Nat) : after.cofactors level edge = before.cofactors level edge := by
  unfold cofactors
  rw [grown.levelOf_eq owns, grown.lowOf_eq owns, grown.highOf_eq owns]

/-- Managers that extend the same manager have the same overlaps among its edges. -/
theorem overlaps_of_overlaps {first second : DiagramManager} (grown : before.Extends first)
    (grown' : before.Extends second) (grounded : before.Grounded)
    (overlaps : first.Overlaps f g h) (ownsF : before.Owns f) (ownsG : before.Owns g)
    (ownsH : before.Owns h) : second.Overlaps f g h := by
  induction overlaps with
  | reached inner => exact .reached inner
  | again step _ ih =>
      rw [grown.iteStep_eq ownsF ownsG ownsH] at step
      obtain ⟨ownsF', ownsG', ownsH'⟩ := owns_of_again grounded ownsF ownsG ownsH step
      exact .again (by rwa [grown'.iteStep_eq ownsF ownsG ownsH]) (ih ownsF' ownsG' ownsH')
  | low step normal _ ih =>
      rw [grown.iteStep_eq ownsF ownsG ownsH] at step
      obtain ⟨ownsF', ownsG', ownsH'⟩ := owns_normalOperands ownsF ownsG ownsH normal
      refine .low (by rwa [grown'.iteStep_eq ownsF ownsG ownsH]) normal ?_
      rw [grown.topLevel_eq ownsF' ownsG' ownsH', grown.cofactors_eq ownsF',
        grown.cofactors_eq ownsG', grown.cofactors_eq ownsH'] at ih
      rw [grown'.topLevel_eq ownsF' ownsG' ownsH', grown'.cofactors_eq ownsF',
        grown'.cofactors_eq ownsG', grown'.cofactors_eq ownsH']
      exact ih (grounded.owns_cofactors ownsF' _).1 (grounded.owns_cofactors ownsG' _).1
        (grounded.owns_cofactors ownsH' _).1
  | high step normal _ ih =>
      rw [grown.iteStep_eq ownsF ownsG ownsH] at step
      obtain ⟨ownsF', ownsG', ownsH'⟩ := owns_normalOperands ownsF ownsG ownsH normal
      refine .high (by rwa [grown'.iteStep_eq ownsF ownsG ownsH]) normal ?_
      rw [grown.topLevel_eq ownsF' ownsG' ownsH', grown.cofactors_eq ownsF',
        grown.cofactors_eq ownsG', grown.cofactors_eq ownsH'] at ih
      rw [grown'.topLevel_eq ownsF' ownsG' ownsH', grown'.cofactors_eq ownsF',
        grown'.cofactors_eq ownsG', grown'.cofactors_eq ownsH']
      exact ih (grounded.owns_cofactors ownsF' _).2 (grounded.owns_cofactors ownsG' _).2
        (grounded.owns_cofactors ownsH' _).2

theorem overlaps_iff (grown : before.Extends after) (grounded : before.Grounded)
    (ownsF : before.Owns f) (ownsG : before.Owns g) (ownsH : before.Owns h) :
    after.Overlaps f g h ↔ before.Overlaps f g h :=
  ⟨fun overlaps => grown.overlaps_of_overlaps (.refl before) grounded overlaps ownsF ownsG ownsH,
    fun overlaps => (refl before).overlaps_of_overlaps grown grounded overlaps ownsF ownsG ownsH⟩

end Extends

end DiagramManager

end AbstractionRefinement
