import AbstractionRefinement.Proofs.ComputationLaws
import Mathlib

/-!
# Bounded computations

Exploration is bounded by a number of rounds, and it says so when it is cut off.  What is not cut
off does not depend on the bound, so that a computation has one result for all bounds that are
large enough, or is cut off at every bound.
-/

namespace AbstractionRefinement

open AbstractionRefinement.Computation

/-- A bounded computation gives the result whenever the bound is large enough. -/
def SettlesOn {β : Type} (run : Nat → β) (result : β) : Prop :=
  ∃ enough, ∀ fuel, enough ≤ fuel → run fuel = result

theorem SettlesOn.unique {β : Type} {run : Nat → β} {result other : β}
    (settles : SettlesOn run result) (settlesOther : SettlesOn run other) : result = other := by
  obtain ⟨enough, gives⟩ := settles
  obtain ⟨enough', gives'⟩ := settlesOther
  rw [← gives (max enough enough') (Nat.le_max_left ..), gives' _ (Nat.le_max_right ..)]

namespace Computation

variable {ε β γ : Type}

/-- The computation does not depend on its bound unless it is cut off. -/
def Persistent (bounded : Nat → Computation ε β) : Prop :=
  ∀ fuel state, (bounded fuel state).1 ≠ .error .outOfFuel →
    bounded (fuel + 1) state = bounded fuel state

theorem persistent_const (computation : Computation ε β) : Persistent fun _ => computation :=
  fun _ _ _ => rfl

theorem Persistent.bind {first : Nat → Computation ε β} {next : Nat → β → Computation ε γ}
    (persistent : Persistent first)
    (persistentNext : ∀ result, Persistent fun fuel => next fuel result) :
    Persistent fun fuel => first fuel >>= next fuel := by
  intro fuel state
  dsimp only
  have same := persistent fuel state
  rw [bind_run, bind_run]
  revert same
  rcases first fuel state with ⟨error | result, after⟩
  · intro same notCut
    rw [same fun cut => notCut (congrArg Except.error (Except.error.inj cut))]
  · intro same notCut
    rw [same nofun]
    exact persistentNext result fuel after notCut

theorem Persistent.ite {condition : Prop} [Decidable condition]
    {first second : Nat → Computation ε β} (persistent : Persistent first)
    (persistent' : Persistent second) :
    Persistent fun fuel => if condition then first fuel else second fuel := by
  by_cases holds : condition
  · simpa only [if_pos holds] using persistent
  · simpa only [if_neg holds] using persistent'

theorem Persistent.settlesOn {bounded : Nat → Computation ε β} (persistent : Persistent bounded)
    {fuel : Nat} {state : ε} (notCut : (bounded fuel state).1 ≠ .error .outOfFuel) :
    SettlesOn (fun fuel => bounded fuel state) (bounded fuel state) := by
  refine ⟨fuel, fun larger large => ?_⟩
  induction larger, large using Nat.le_induction with
  | base => rfl
  | succ larger _ ih =>
      dsimp only at ih ⊢
      rw [persistent larger state (ih ▸ notCut), ih]

end Computation

theorem Run.persistent_explore {ω σ α β : Type} {bounded : Nat → Exploration ω σ α β}
    (persistent : Persistent bounded) :
    Persistent fun fuel => (Run.explore (bounded fuel) : Run ω σ α β) := by
  intro fuel state notCut
  unfold Run.explore at notCut ⊢
  dsimp only at notCut ⊢
  rw [persistent fuel state.exploration notCut]

namespace Explorer

variable {ω σ α π : Type} (explorer : Explorer ω σ α π)

/-- One round of exploration: the nodes that wait for the next one, if it goes on. -/
def exploreNext (precision : π) (version : Nat) (budget : Budget ω) (list : Waitlist RandomStream) :
    Exploration ω σ α (Option (Waitlist RandomStream)) := do
  if explorer.canStop (← get).graph then return none
  else
    match list.remove with
    | none => return none
    | some (id, list) => do
        Exploration.poll budget
        if !((← get).graph.node? id).any GraphNode.isIncomplete then return some list
        else if ← explorer.close precision id then return some list
        else do
          let nodes ← explorer.expand precision version id
          let list ← explorer.enqueue precision nodes list
          return some list

def exploreRest (precision : π) (version : Nat) (budget : Budget ω) (fuel : Nat) :
    Option (Waitlist RandomStream) → Exploration ω σ α Unit
  | none => return ()
  | some list => explorer.exploreWithin precision version budget fuel list

theorem exploreWithin_succ (precision : π) (version : Nat) (budget : Budget ω) (fuel : Nat)
    (list : Waitlist RandomStream) :
    explorer.exploreWithin precision version budget (fuel + 1) list =
      explorer.exploreNext precision version budget list >>=
        explorer.exploreRest precision version budget fuel := by
  unfold exploreNext
  rw [exploreWithin]
  simp only [bind_assoc]
  refine bind_congr fun state => ?_
  split
  case isTrue => rfl
  case isFalse =>
    cases list.remove with
    | none => rfl
    | some removed =>
        simp only [bind_assoc]
        refine bind_congr fun _ => bind_congr fun state => ?_
        split
        case isTrue => rfl
        case isFalse =>
          simp only [bind_assoc]
          refine bind_congr fun closed => ?_
          split
          · rfl
          · simp only [bind_assoc]
            exact bind_congr fun nodes => bind_congr fun list => rfl

variable {explorer}

theorem persistent_exploreWithin (precision : π) (version : Nat) (budget : Budget ω)
    (list : Waitlist RandomStream) :
    Persistent fun fuel => explorer.exploreWithin precision version budget fuel list := by
  intro fuel state notCut
  dsimp only at notCut ⊢
  induction fuel generalizing list state with
  | zero => exact absurd rfl notCut
  | succ fuel ih =>
      rw [exploreWithin_succ, bind_run] at notCut ⊢
      conv => rhs; rw [exploreWithin_succ, bind_run]
      revert notCut
      rcases explorer.exploreNext precision version budget list state with
        ⟨error | none | list, after⟩
      · exact fun _ => rfl
      · exact fun _ => rfl
      · exact ih list after

theorem persistent_explore (precision : π) (version : Nat) (budget : Budget ω) :
    Persistent fun fuel => explorer.explore fuel precision version budget := by
  unfold explore
  refine (persistent_const get).bind fun state => ?_
  have rest : Persistent fun fuel => (do
      let waiting := (← get).graph.incompleteNodes.map fun node => (node.id, node.depth)
      explorer.exploreWithin precision version budget fuel
        ((Waitlist.new explorer.strategy).addAll waiting)
      return if (← get).graph.targetNodes.isEmpty then .exhausted else .targetFound :
      Exploration ω σ α ExplorationStatus) :=
    (persistent_const get).bind fun _ =>
      (persistent_exploreWithin precision version budget _).bind fun _ => persistent_const _
  exact .ite ((persistent_const _).bind fun _ => rest) rest

theorem persistent_check (precision : π) (version : Nat) (budget : Budget ω) :
    Persistent fun fuel => explorer.check fuel precision version budget := by
  intro fuel state notCut
  dsimp only at notCut ⊢
  have persistent : Persistent fun fuel => explorer.explore fuel precision version budget :=
    persistent_explore precision version budget
  have same := persistent fuel { state with status := .exploring }
  unfold check at notCut ⊢
  dsimp only at same
  rw [same]
  revert notCut
  rcases explorer.explore fuel precision version budget { state with status := .exploring } with
    ⟨_ | _, _⟩ <;> exact id

end Explorer

end AbstractionRefinement
