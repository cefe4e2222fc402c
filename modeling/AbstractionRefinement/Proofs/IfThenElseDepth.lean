import AbstractionRefinement.Proofs.IfThenElseCalls

/-!
# Depth of the if-then-else recursion

Every call is put into normal form in at most two steps, and the cofactors of a
call in normal form have smaller indices together.  So a depth proportional to
the indices of the operands suffices, for which the nodes of the manager only
have to lead to smaller indices.
-/

namespace AbstractionRefinement

namespace DiagramManager

variable {manager : DiagramManager}

/-- The indices of the operands together; the branches of an equivalence count
once. -/
def weight (f g h : Edge) : Nat :=
  f.index + if h.index = g.index then g.index else g.index + h.index

/-- A call is replaced by one whose condition was a branch and has a smaller root
level. -/
structure Swapped (manager : DiagramManager) (f g h f' g' h' : Edge) : Prop where
  weight_eq : weight f' g' h' = weight f g h
  level_pos : manager.levelOf f' ≠ 0
  level_lt : manager.levelOf f' < manager.levelOf f
  condition : manager.levelOf f' = manager.levelOf g ∨ manager.levelOf f' = manager.levelOf h
  positive : manager.levelOf g' = 0 ∨ manager.levelOf g' = manager.levelOf f
  negative : manager.levelOf h' = 0 ∨ manager.levelOf h' = manager.levelOf f

theorem weight_normalOperands {f g h f' g' h' : Edge} {negate : Bool}
    (normal : normalOperands f g h = (f', g', h', negate)) :
    weight f' g' h' = weight f g h := by
  rw [normalOperands_eq] at normal
  split at normal <;> split at normal <;> cases normal <;>
    simp only [weight, Edge.index_neg] <;> grind

theorem done_one_neg {f : Edge} (notOne : f ≠ .one) (notZero : f ≠ .zero) :
    ∃ result, manager.iteStep f .one (-f) = .done result := by
  have differ : Edge.one ≠ -f := by
    rw [Ne, Edge.eq_neg_iff]
    exact fun same => notZero same.symm
  have differ' : -f ≠ .zero := fun same => notOne (by rw [← Edge.neg_neg f, same, Edge.neg_zero])
  simp [iteStep, Edge.isOne, Edge.isZero, notOne, notZero, differ, differ', Edge.one_ne_zero]

theorem done_neg_zero {f : Edge} (notOne : f ≠ .one) (notZero : f ≠ .zero) :
    ∃ result, manager.iteStep f (-f) .zero = .done result := by
  have differ : -f ≠ .one := fun same => notZero (by rw [← Edge.neg_neg f, same, Edge.neg_one])
  have differ' : -f ≠ .zero := fun same => notOne (by rw [← Edge.neg_neg f, same, Edge.neg_zero])
  simp [iteStep, Edge.isOne, Edge.isZero, notOne, notZero, differ, differ', Edge.zero_ne_one]

/-- A call whose condition is repeated is replaced by one that is decided at once or
whose condition is not repeated.  From other calls operands are exchanged. -/
theorem progress_of_again (grounded : manager.Grounded) {f g h f' g' h' : Edge}
    (ownsF : manager.Owns f) (ownsG : manager.Owns g) (ownsH : manager.Owns h)
    (step : manager.iteStep f g h = .again f' g' h') :
    ¬ Apart f g h ∧ ((∃ result, manager.iteStep f' g' h' = .done result) ∨
      Apart f' g' h' ∧ weight f' g' h' ≤ weight f g h) ∨
      Apart f g h ∧ manager.Swapped f g h f' g' h' := by
  have levelOne : manager.levelOf .one = 0 := grounded.terminal_level
  have levelZero : manager.levelOf .zero = 0 := grounded.terminal_level
  have used := ownsF.1
  have usedG := ownsG.1
  have usedH := ownsH.1
  obtain ⟨notOne, notZero, differ, cases⟩ := again_cases step
  have inner := Edge.index_ne_one notOne notZero
  rcases cases with ⟨rfl, rfl, rfl, rfl⟩ | ⟨notG, rfl, rfl, rfl, rfl⟩ |
    ⟨notH, rfl, rfl, rfl, rfl⟩ | ⟨notG, notG', rfl, rfl, rfl, rfl⟩ | ⟨apart, pos, less, cases⟩
  · refine .inl ⟨fun apart => apart.1 rfl, ?_⟩
    by_cases opposite : h' = -f'
    · subst opposite
      exact .inl (done_one_neg notOne notZero)
    · have differ' := Edge.index_ne_of_ne (Ne.symm differ) opposite
      refine .inr ⟨?_, ?_⟩
      · grind [Apart, Edge.eq_neg_iff, Edge.neg_one]
      · grind [weight, Edge.index_one]
  · refine .inl ⟨fun apart => apart.2.2.1 rfl, ?_⟩
    by_cases opposite : g' = -f'
    · subst opposite
      exact .inl (done_neg_zero notOne notZero)
    · have differ' := Edge.index_ne_of_ne differ opposite
      refine .inr ⟨?_, ?_⟩
      · grind [Apart, Edge.eq_neg_iff, Edge.neg_zero]
      · grind [weight, Edge.index_zero]
  · have differ' := Edge.index_ne_of_ne notH (Ne.symm differ)
    refine .inl ⟨fun apart => apart.2.1 rfl, .inr ⟨?_, ?_⟩⟩
    · grind [Apart, Edge.eq_neg_iff, Edge.neg_zero]
    · grind [weight, Edge.index_zero, Edge.index_neg]
  · have differ' := Edge.index_ne_of_ne notG notG'
    refine .inl ⟨fun apart => apart.2.2.2 rfl, .inr ⟨?_, ?_⟩⟩
    · grind [Apart, Edge.eq_neg_iff, Edge.neg_one]
    · grind [weight, Edge.index_one, Edge.index_neg]
  · refine .inr ⟨apart, ?_⟩
    have owns := (owns_of_again grounded ownsF ownsG ownsH step).1
    have inner' := (grounded.levelOf_pos owns).mp (Nat.pos_of_ne_zero pos)
    rcases cases with ⟨rfl, rfl, rfl, rfl⟩ | ⟨rfl, rfl, rfl, rfl⟩ | ⟨rfl, rfl, rfl, rfl⟩ |
      ⟨rfl, rfl, rfl, rfl⟩ | ⟨rfl, rfl, rfl, rfl⟩
    all_goals
      constructor
      · grind [weight, Edge.index_one, Edge.index_zero, Edge.index_neg]
      all_goals grind [levelOf_neg]

/-- After operands were exchanged the condition is not repeated. -/
theorem Swapped.apart {f g h f' g' h' : Edge} (swapped : manager.Swapped f g h f' g' h') :
    Apart f' g' h' := by
  have pos := swapped.level_pos
  have less := swapped.level_lt
  have positive := swapped.positive
  have negative := swapped.negative
  refine ⟨?_, ?_, ?_, ?_⟩
  · rintro rfl
    omega
  · rintro rfl
    rw [levelOf_neg] at positive
    omega
  · rintro rfl
    omega
  · rintro rfl
    rw [levelOf_neg] at negative
    omega

theorem Swapped.not_swapped {f g h f' g' h' f'' g'' h'' : Edge}
    (first : manager.Swapped f g h f' g' h') : ¬ manager.Swapped f' g' h' f'' g'' h'' := by
  intro second
  have levels := second.condition
  have pos := second.level_pos
  have less := second.level_lt
  have less' := first.level_lt
  have positive := first.positive
  have negative := first.negative
  omega

/-- Enough fuel for a call: three units for each unit of its weight, and one unit for
each further step until it is in normal form. -/
def Fueled (manager : DiagramManager) (fuel : Nat) (f g h : Edge) : Prop :=
  3 * weight f g h + 3 ≤ fuel ∨
    Apart f g h ∧ 3 * weight f g h + 2 ≤ fuel ∨
    (∀ f' g' h', manager.iteStep f g h ≠ .again f' g' h') ∧ 1 ≤ fuel ∧
      (manager.iteStep f g h = .open → 3 * weight f g h + 1 ≤ fuel)

theorem Fueled.of_again (grounded : manager.Grounded) {fuel : Nat} {f g h f' g' h' : Edge}
    (ownsF : manager.Owns f) (ownsG : manager.Owns g) (ownsH : manager.Owns h)
    (fueled : manager.Fueled (fuel + 1) f g h)
    (step : manager.iteStep f g h = .again f' g' h') : manager.Fueled fuel f' g' h' := by
  rcases progress_of_again grounded ownsF ownsG ownsH step with
    ⟨repeated, ⟨result, decided⟩ | ⟨apart, le⟩⟩ | ⟨apart, swapped⟩
  · refine .inr (.inr ⟨?_, ?_, ?_⟩)
    · simp [decided]
    · rcases fueled with enough | ⟨-, enough⟩ | ⟨none, -⟩
      · omega
      · omega
      · exact absurd step (none f' g' h')
    · simp [decided]
  · rcases fueled with enough | ⟨apart, -⟩ | ⟨none, -⟩
    · exact .inr (.inl ⟨apart, by omega⟩)
    · exact absurd apart repeated
    · exact absurd step (none f' g' h')
  · have same := swapped.weight_eq
    obtain ⟨ownsF', ownsG', ownsH'⟩ := owns_of_again grounded ownsF ownsG ownsH step
    have enough : 3 * weight f g h + 1 ≤ fuel := by
      rcases fueled with enough | ⟨-, enough⟩ | ⟨none, -⟩
      · omega
      · omega
      · exact absurd step (none f' g' h')
    refine .inr (.inr ⟨?_, by omega, fun _ => by omega⟩)
    intro f'' g'' h'' again
    rcases progress_of_again grounded ownsF' ownsG' ownsH' again with ⟨repeated, -⟩ | ⟨-, second⟩
    · exact repeated swapped.apart
    · exact swapped.not_swapped second

theorem Fueled.of_open {fuel : Nat} {f g h : Edge} (fueled : manager.Fueled (fuel + 1) f g h)
    (step : manager.iteStep f g h = .open) : 3 * weight f g h ≤ fuel := by
  rcases fueled with enough | ⟨-, enough⟩ | ⟨-, -, enough⟩
  · omega
  · omega
  · have := enough step
    omega

theorem fueled_ite (f g h : Edge) :
    manager.Fueled (4 * (f.index + g.index + h.index) + 4) f g h := by
  left
  unfold weight
  split <;> omega

/-- The least root level of the operands of a call whose condition is no
constant. -/
theorem topLevel_spec (grounded : manager.Grounded) {f g h : Edge} (ownsF : manager.Owns f)
    (ownsG : manager.Owns g) (ownsH : manager.Owns h) (inner : f.index ≠ 1) :
    (∀ edge ∈ [f, g, h], edge.index = 1 ∨ manager.topLevel f g h ≤ manager.levelOf edge) ∧
      ∃ edge ∈ [f, g, h], edge.index ≠ 1 ∧ manager.levelOf edge = manager.topLevel f g h := by
  have innerF := grounded.levelOf_pos ownsF
  have innerG := grounded.levelOf_pos ownsG
  have innerH := grounded.levelOf_pos ownsH
  simp only [List.mem_cons, List.not_mem_nil, or_false, forall_eq_or_imp, forall_eq,
    exists_eq_or_imp, exists_eq_left, topLevel]
  constructor
  · refine ⟨?_, ?_, ?_⟩ <;> split <;> split <;> omega
  · split <;> split <;> omega

theorem index_cofactors_of_index {edge other : Edge} (used : 1 ≤ edge.index)
    (same : other.index = edge.index) (level : Nat) :
    (manager.cofactors level other).1.index = (manager.cofactors level edge).1.index ∧
      (manager.cofactors level other).2.index = (manager.cofactors level edge).2.index := by
  rcases eq_or_ne other edge with rfl | differ
  · exact ⟨rfl, rfl⟩
  · have opposite : other = -edge := by
      by_contra differ'
      exact Edge.index_ne_of_ne differ differ' same
    rw [opposite, cofactors_neg used]
    simp

/-- Cofactors have no larger index, and a smaller one at the level of the root. -/
theorem Grounded.index_cofactors_le (grounded : manager.Grounded) {edge : Edge}
    (owns : manager.Owns edge) (level : Nat) :
    (manager.cofactors level edge).1.index ≤ edge.index ∧
      (manager.cofactors level edge).2.index ≤ edge.index ∧
      (edge.index ≠ 1 → manager.levelOf edge = level →
        (manager.cofactors level edge).1.index < edge.index ∧
          (manager.cofactors level edge).2.index < edge.index) := by
  unfold cofactors
  split
  case isTrue above =>
    refine ⟨Nat.le_refl _, Nat.le_refl _, fun inner atLevel => ?_⟩
    rw [Bool.or_eq_true, Edge.isTerminal_iff, decide_eq_true_eq] at above
    omega
  case isFalse within =>
    have inner : edge.index ≠ 1 := by
      intro terminal
      simp [(Edge.isTerminal_iff edge).mpr terminal] at within
    have low := grounded.index_lowOf_lt owns inner
    have high := grounded.index_highOf_lt owns inner
    exact ⟨Nat.le_of_lt low, Nat.le_of_lt high, fun _ _ => ⟨low, high⟩⟩

/-- The cofactors of a call by the least root level of its operands weigh less. -/
theorem weight_cofactors_lt (grounded : manager.Grounded) {level : Nat} {f g h : Edge}
    (ownsF : manager.Owns f) (ownsG : manager.Owns g) (ownsH : manager.Owns h)
    (attained : ∃ edge ∈ [f, g, h], edge.index ≠ 1 ∧ manager.levelOf edge = level) :
    weight (manager.cofactors level f).1 (manager.cofactors level g).1
        (manager.cofactors level h).1 < weight f g h ∧
      weight (manager.cofactors level f).2 (manager.cofactors level g).2
        (manager.cofactors level h).2 < weight f g h := by
  obtain ⟨lowF, highF, smallerF⟩ := grounded.index_cofactors_le ownsF level
  obtain ⟨lowG, highG, smallerG⟩ := grounded.index_cofactors_le ownsG level
  obtain ⟨lowH, highH, smallerH⟩ := grounded.index_cofactors_le ownsH level
  have alike (same : h.index = g.index) :
      (manager.cofactors level h).1.index = (manager.cofactors level g).1.index ∧
        (manager.cofactors level h).2.index = (manager.cofactors level g).2.index :=
    index_cofactors_of_index ownsG.1 same level
  obtain ⟨edge, member, inner, atLevel⟩ := attained
  simp only [List.mem_cons, List.not_mem_nil, or_false] at member
  unfold weight
  constructor
  · rcases member with rfl | rfl | rfl <;> split <;> split <;> grind
  · rcases member with rfl | rfl | rfl <;> split <;> split <;> grind

end DiagramManager

end AbstractionRefinement
