import AbstractionRefinement.Proofs.ReachedManagers

/-!
# Managers with deadlines

The operations of a manager also set deadlines and notice those that have passed.  A
deadline shows in an exhausted manager only.  So the nodes of a manager that is not
exhausted are in order whatever deadlines were set, while at most 32767 nodes are
allocated.
-/

namespace AbstractionRefinement

namespace DiagramManager

variable {manager : DiagramManager} {cacheBits nodeLimit : Nat}

/-- The manager is built from an empty one by legal operations, and by setting and noticing
deadlines. -/
inductive Built (cacheBits nodeLimit : Nat) : DiagramManager → Prop
  | start : Built cacheBits nodeLimit (new cacheBits nodeLimit)
  | step {manager after : DiagramManager} {operation : Operation} {edge : Edge} :
      Built cacheBits nodeLimit manager → operation.Legal manager →
      operation.run? manager = some (edge, after) → Built cacheBits nodeLimit after
  | setDeadline {manager : DiagramManager} (passed : Bool) :
      Built cacheBits nodeLimit manager →
      Built cacheBits nodeLimit (manager.setDeadline passed)
  | noticeDeadline {manager : DiagramManager} :
      Built cacheBits nodeLimit manager → Built cacheBits nodeLimit manager.noticeDeadline

theorem Reached.built (reached : Reached cacheBits nodeLimit manager) :
    Built cacheBits nodeLimit manager := by
  induction reached with
  | start => exact .start
  | step _ legal run ih => exact ih.step legal run

/-- A small usable manager is well formed with a lowered node limit. -/
theorem Built.wellFormed (built : Built cacheBits nodeLimit manager)
    (usable : manager.exhaustion = none) (few : manager.nodes.size ≤ keyBudget) :
    ∃ bound, (capped keyBudget manager).WellFormed bound := by
  induction built with
  | start => exact ⟨1, wellFormed_new 1 cacheBits (min nodeLimit keyBudget)⟩
  | @step manager after operation edge _ legal run ih =>
      rw [legal.run?_eq, Option.some.injEq] at run
      have after_eq : after = (operation.perform manager).2 := by rw [run]
      subst after_eq
      have budgeted := operation.budgeted_perform
      have before : manager.exhaustion = none := by
        cases exhausted : manager.exhaustion with
        | none => rfl
        | some cause =>
            have isExhausted : NodeLimited.exhausted manager = true := by
              show manager.exhaustion.isSome = true
              rw [exhausted]
              rfl
            have lasts : (operation.perform manager).2.exhaustion.isSome = true :=
              budgeted.lasts isExhausted
            rw [usable] at lasts
            cases lasts
      obtain ⟨bound, wellFormed⟩ := ih before (Nat.le_trans (budgeted.nodes_le manager) few)
      obtain ⟨bound', delivers⟩ :=
        Reached.delivers_capped (.inr (by rw [usable]; rfl)) wellFormed legal few
      exact ⟨bound', delivers.wellFormed⟩
  | @setDeadline manager passed _ ih =>
      obtain ⟨bound, wellFormed⟩ := ih usable few
      exact ⟨bound, (wellFormed.ofSameNodes (capped keyBudget (manager.setDeadline passed))
        rfl rfl rfl rfl id).1⟩
  | @noticeDeadline manager _ ih =>
      -- A manager that notices a deadline is exhausted.
      have unnoticed : manager.noticeDeadline = manager := by
        unfold DiagramManager.noticeDeadline at usable ⊢
        split at usable
        case isTrue => cases usable
        case isFalse early => rw [if_neg early]
      rw [unnoticed] at usable few ⊢
      exact ih usable few

theorem Built.ordered (built : Built cacheBits nodeLimit manager)
    (usable : manager.exhaustion = none) (few : manager.size ≤ 32767) :
    ∃ bound, manager.Ordered bound := by
  obtain ⟨bound, wellFormed⟩ := built.wellFormed usable (by
    unfold size at few
    unfold keyBudget
    omega)
  exact ⟨bound, wellFormed.terminals, wellFormed.terminal_level,
    fun two lt => { wellFormed.placed two lt with }, wellFormed.unique_iff⟩

end DiagramManager

end AbstractionRefinement
