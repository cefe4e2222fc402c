import AbstractionRefinement.Proofs.SessionRuns

/-!
# Outlines of sessions

What a session asserts depends on its calls alone.  The outline of a session keeps the
formulas of its frames and the number of its partitions and forgets diagrams and answers, and
every call changes the outline without looking at what it forgets.  So frames that are opened
and discarded again leave the formulas as they were, whatever happened in them.
-/

namespace AbstractionRefinement

/-- The formulas of a session's frames.  Only a session for interpolation has partitions. -/
structure Outline where
  outer : List (List Expr)
  innermost : List Expr
  partitions : Option Nat

namespace Outline

def formulas (outline : Outline) : List Expr :=
  outline.outer.reverse.flatten ++ outline.innermost

def assert (formula : Expr) (outline : Outline) : Outline :=
  if formula.ty = .bool then { outline with innermost := outline.innermost ++ [formula] }
  else outline

theorem outer_assert (formula : Expr) (outline : Outline) :
    (outline.assert formula).outer = outline.outer := by
  unfold assert
  split <;> rfl

theorem partitions_assert (formula : Expr) (outline : Outline) :
    (outline.assert formula).partitions = outline.partitions := by
  unfold assert
  split <;> rfl

theorem assert_withPartitions (formula : Expr) (outline : Outline) (partitions : Option Nat) :
    assert formula { outline with partitions } =
      { outline.assert formula with partitions } := by
  unfold assert
  split <;> rfl

end Outline

namespace SessionCall

/-- The partition into which the call asserts. -/
def partition? : SessionCall → Option Nat
  | addTo marker _ => some marker
  | _ => none

def outlined : SessionCall → Outline → Outline
  | add formula, outline | track formula, outline => outline.assert formula
  | addTo marker formula, outline =>
      if outline.partitions.any fun partitions => marker < partitions then outline.assert formula
      else outline
  | push, outline => { outline with outer := outline.innermost :: outline.outer, innermost := [] }
  | pop, outline =>
      match outline.outer with
      | [] => outline
      | frame :: outer => { outline with outer, innermost := frame }
  | createMarker, outline => { outline with partitions := outline.partitions.map (· + 1) }
  | check, outline | unsatCore, outline | interpolant _, outline => outline

theorem outlined_pop_nil {outline : Outline} (frames : outline.outer = []) :
    pop.outlined outline = outline := by
  rw [outlined, frames]

theorem outlined_pop_cons {outline : Outline} {frame : List Expr} {outer : List (List Expr)}
    (frames : outline.outer = frame :: outer) :
    pop.outlined outline = { outline with outer, innermost := frame } := by
  rw [outlined, frames]

end SessionCall

namespace Outline

def after (outline : Outline) (calls : List SessionCall) : Outline :=
  calls.foldl (fun outline call => call.outlined outline) outline

theorem after_append (outline : Outline) (calls calls' : List SessionCall) :
    outline.after (calls ++ calls') = (outline.after calls).after calls' :=
  List.foldl_append

end Outline

namespace Session

variable {config : SolverConfig} {theme : SessionTheme}

def outline (session : Session) : Outline where
  outer := session.outer.map (List.map Assertion.formula)
  innermost := session.innermost.map Assertion.formula
  partitions := if session.theme.interpolating then some session.markers else none

theorem formulas_outline (session : Session) : session.outline.formulas = session.formulas := by
  simp [Outline.formulas, outline, formulas, live]

theorem outline_assertAs (session : Session) (tracked : Bool) (marker : Option Nat)
    (formula : Expr) :
    (assertAs tracked marker formula session).2.outline = session.outline.assert formula := by
  rw [assertAs_run, Outline.assert]
  by_cases boolean : formula.ty = .bool
  · rw [if_pos boolean, if_pos boolean, outline, asserted]
    dsimp only
    rw [List.map_append]
    rfl
  · rw [if_neg boolean, if_neg boolean]

theorem outline_addTo (session : Session) (marker : Nat) (formula : Expr) :
    (addTo marker formula session).2.outline =
      (SessionCall.addTo marker formula).outlined session.outline := by
  unfold addTo
  rw [SessionState.bind_run, SessionState.get_run]
  dsimp only [SessionCall.outlined]
  cases interpolating : session.theme.interpolating with
  | false => simp [outline, interpolating, SessionState.pure_run]
  | true =>
      have known : (session.outline.partitions.any fun partitions => marker < partitions) =
          decide (marker < session.markers) := by
        simp [outline, interpolating]
      rw [known, if_neg (by simp), SessionState.bind_run, SessionState.get_run]
      by_cases unknown : session.markers ≤ marker
      · rw [if_pos unknown, if_neg (by simpa using unknown)]
        rfl
      · rw [if_neg unknown, if_pos (by simpa using unknown)]
        exact outline_assertAs session false (some marker) formula

theorem outline_pop (session : Session) :
    (pop session).2.outline = SessionCall.pop.outlined session.outline := by
  unfold pop
  rw [SessionState.bind_run, SessionState.get_run]
  cases frames : session.outer with
  | nil =>
      have none : session.outline.outer = [] := congrArg (List.map (List.map _)) frames
      rw [SessionCall.outlined_pop_nil none]
      rfl
  | cons frame outer =>
      rw [SessionCall.outlined_pop_cons (congrArg (List.map (List.map _)) frames :
        session.outline.outer = _)]
      rfl

theorem outline_check (session : Session) : (check session).2.outline = session.outline := by
  unfold check
  rw [SessionState.bind_run, SessionState.get_run]
  cases session.status with
  | some status => rfl
  | none =>
      obtain ⟨encoder, conjunction, state, -⟩ := settleConjunction_state session
      show (decideConjunction session).2.outline = session.outline
      rw [decideConjunction_run, state]
      rfl

theorem outline_createMarker (session : Session) :
    (createMarker session).2.outline = SessionCall.createMarker.outlined session.outline := by
  unfold createMarker
  rw [SessionState.bind_run, SessionState.get_run]
  cases interpolating : session.theme.interpolating with
  | false =>
      have none : session.outline.partitions = none := by simp [outline, interpolating]
      show _ = { session.outline with partitions := session.outline.partitions.map (· + 1) }
      rw [none, Option.map_none, ← none]
      rfl
  | true =>
      have some : session.outline.partitions = some session.markers := by
        simp [outline, interpolating]
      show _ = { session.outline with partitions := session.outline.partitions.map (· + 1) }
      rw [some]
      simp only [if_true, SessionState.bind_run, SessionState.get_run]
      show outline { session with markers := session.markers + 1 } = _
      simp [outline, interpolating]

/-- A call changes the outline of a session by what is in the outline. -/
theorem outline_perform (call : SessionCall) (session : Session) :
    (call.perform session).outline = call.outlined session.outline := by
  cases call with
  | add formula | track formula => exact outline_assertAs session _ none formula
  | addTo marker formula => exact outline_addTo session marker formula
  | push => rfl
  | pop => exact outline_pop session
  | check => exact outline_check session
  | unsatCore =>
      rw [SessionCall.perform, unsatCore_state]
      split <;> rfl
  | createMarker => exact outline_createMarker session
  | interpolant markers =>
      rw [SessionCall.perform]
      rcases interpolant_state markers session with same | ⟨-, condition, symbols, same⟩
      · rw [same]
        rfl
      · rw [same]
        rfl

theorem outline_after (session : Session) (calls : List SessionCall) :
    (session.after calls).outline = session.outline.after calls := by
  induction calls generalizing session with
  | nil => rfl
  | cons call calls ih =>
      show ((call.perform session).after calls).outline = (call.outlined session.outline).after calls
      rw [ih, outline_perform]

end Session

/-- Every frame that the calls open they discard, and they discard no other. -/
inductive SessionCall.Balanced : List SessionCall → Prop
  | nil : Balanced []
  | cons {call : SessionCall} {rest : List SessionCall} (notPush : call ≠ push)
      (notPop : call ≠ pop) (balanced : Balanced rest) : Balanced (call :: rest)
  | frame {inner rest : List SessionCall} (balanced : Balanced inner)
      (balanced' : Balanced rest) : Balanced (push :: (inner ++ pop :: rest))

namespace Outline

open SessionCall (Balanced)

theorem outer_outlined {call : SessionCall} (notPush : call ≠ .push) (notPop : call ≠ .pop)
    (outline : Outline) : (call.outlined outline).outer = outline.outer := by
  cases call with
  | add formula | track formula => exact outer_assert formula outline
  | addTo marker formula =>
      rw [SessionCall.outlined]
      split
      · exact outer_assert formula outline
      · rfl
  | push => exact absurd rfl notPush
  | pop => exact absurd rfl notPop
  | check | unsatCore | interpolant | createMarker => rfl

/-- Other calls leave the number of partitions alone. -/
theorem partitions_outlined {call : SessionCall} (notOpening : call ≠ .createMarker)
    (outline : Outline) : (call.outlined outline).partitions = outline.partitions := by
  cases call with
  | add formula | track formula => exact partitions_assert formula outline
  | addTo marker formula =>
      rw [SessionCall.outlined]
      split
      · exact partitions_assert formula outline
      · rfl
  | pop =>
      rw [SessionCall.outlined]
      split <;> rfl
  | createMarker => exact absurd rfl notOpening
  | push | check | unsatCore | interpolant => rfl

theorem partitions_after {calls : List SessionCall}
    (noneOpened : SessionCall.createMarker ∉ calls) (outline : Outline) :
    (outline.after calls).partitions = outline.partitions := by
  induction calls generalizing outline with
  | nil => rfl
  | cons call calls ih =>
      rw [List.mem_cons, not_or] at noneOpened
      exact (ih noneOpened.2 (call.outlined outline)).trans
        (partitions_outlined (Ne.symm noneOpened.1) outline)

theorem outer_after {calls : List SessionCall} (balanced : Balanced calls) (outline : Outline) :
    (outline.after calls).outer = outline.outer := by
  induction balanced generalizing outline with
  | nil => rfl
  | @cons call rest notPush notPop _ ih =>
      exact (ih (call.outlined outline)).trans (outer_outlined notPush notPop outline)
  | @frame inner rest _ _ ih ih' =>
      have opened := ih (SessionCall.push.outlined outline)
      show (((SessionCall.push.outlined outline).after (inner ++ .pop :: rest))).outer = _
      rw [after_append]
      refine (ih' _).trans ?_
      show (SessionCall.pop.outlined ((SessionCall.push.outlined outline).after inner)).outer = _
      rw [SessionCall.outlined_pop_cons opened]

theorem after_frame {inner : List SessionCall} (balanced : Balanced inner) (outline : Outline) :
    ∃ partitions, outline.after (.push :: (inner ++ [.pop])) = { outline with partitions } ∧
      (SessionCall.createMarker ∉ inner → partitions = outline.partitions) := by
  have opened := outer_after balanced (SessionCall.push.outlined outline)
  have counted (noneOpened : SessionCall.createMarker ∉ inner) :=
    partitions_after noneOpened (SessionCall.push.outlined outline)
  refine ⟨((SessionCall.push.outlined outline).after inner).partitions, ?_, counted⟩
  show (SessionCall.push.outlined outline).after (inner ++ [.pop]) = _
  rw [after_append]
  show SessionCall.pop.outlined ((SessionCall.push.outlined outline).after inner) = _
  rw [SessionCall.outlined_pop_cons opened]

/-- The number of partitions matters only to calls that assert into one. -/
theorem formulas_after_withPartitions {calls : List SessionCall}
    (nowhere : ∀ call ∈ calls, call.partition? = none) (outline : Outline)
    (partitions : Option Nat) :
    ({ outline with partitions }.after calls).formulas = (outline.after calls).formulas := by
  induction calls generalizing outline partitions with
  | nil => rfl
  | cons call calls ih =>
      rw [List.forall_mem_cons] at nowhere
      obtain ⟨partitions', same⟩ : ∃ partitions', call.outlined { outline with partitions } =
          { call.outlined outline with partitions := partitions' } := by
        cases call with
        | add formula | track formula =>
            exact ⟨partitions, assert_withPartitions formula outline partitions⟩
        | addTo marker formula => cases nowhere.1
        | pop =>
            obtain ⟨_ | ⟨frame, outer⟩, innermost, _⟩ := outline <;> exact ⟨partitions, rfl⟩
        | push | check | unsatCore | interpolant => exact ⟨partitions, rfl⟩
        | createMarker => exact ⟨partitions.map (· + 1), rfl⟩
      show ((call.outlined { outline with partitions }).after calls).formulas =
        ((call.outlined outline).after calls).formulas
      rw [same, ih nowhere.2]

end Outline

/-- A frame that is discarded again does not matter to the formulas that are asserted at the
end, unless partitions were opened in it and later calls assert into one. -/
theorem Session.formulas_after_frame (session : Session) {inner later : List SessionCall}
    (balanced : SessionCall.Balanced inner)
    (nowhere : SessionCall.createMarker ∈ inner → ∀ call ∈ later, call.partition? = none) :
    (session.after (.push :: (inner ++ .pop :: later))).formulas =
      (session.after later).formulas := by
  have split : SessionCall.push :: (inner ++ .pop :: later) =
      .push :: (inner ++ [.pop]) ++ later := by simp
  rw [← formulas_outline, ← formulas_outline, outline_after, outline_after, split,
    Outline.after_append]
  obtain ⟨partitions, same, counted⟩ := Outline.after_frame balanced session.outline
  rw [same]
  by_cases opened : SessionCall.createMarker ∈ inner
  · exact Outline.formulas_after_withPartitions (nowhere opened) _ partitions
  · rw [counted opened]

end AbstractionRefinement
