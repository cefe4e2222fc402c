import AbstractionRefinement.Proofs.GraphCalls

/-!
# Coverage that fails

Covering a node is refused, with the graph unchanged, if the list of coverers is empty or
contains the node, or if the node is covered or has children.  Otherwise the coverers note the
node one after the other, and the first one that does not exist ends the call with an error: the
coverers before it keep their notes of a node that they do not cover, which is a defect.
-/

namespace AbstractionRefinement

namespace ReachabilityGraph

variable {σ α : Type} {graph after : ReachabilityGraph σ α} {id : Nat} {coverers : List Nat}
  {error : EngineError}

/-- The node may be covered by such a list, if the listed nodes exist. -/
def Admits (graph : ReachabilityGraph σ α) (id : Nat) (coverers : List Nat) : Prop :=
  coverers ≠ [] ∧ id ∉ coverers ∧
    ∃ node, graph.node? id = some node ∧ node.coveredBy = [] ∧ node.children = []

/-- How covering a node fails. -/
theorem cover_failed (failed : cover id coverers graph = (.error error, after)) :
    (¬ graph.Admits id coverers ∧ after = graph) ∨
      (graph.Admits id coverers ∧ ∃ missing,
        coverers.find? (fun coverer => !graph.contains coverer) = some missing ∧
          error = missingNode missing ∧
            after = graph.noting id (coverers.takeWhile graph.contains)) := by
  rw [cover_run] at failed
  split at failed
  case isTrue refused =>
    cases failed
    simp only [Bool.or_eq_true, List.isEmpty_iff, List.contains_iff_mem] at refused
    exact .inl ⟨fun admits => refused.elim admits.1 admits.2.1, rfl⟩
  case isFalse allowed =>
    simp only [Bool.or_eq_true, List.isEmpty_iff, List.contains_iff_mem, not_or] at allowed
    cases found : graph.node? id with
    | none =>
        rw [found] at failed
        cases failed
        refine .inl ⟨?_, rfl⟩
        rintro ⟨-, -, node, found', -⟩
        cases found.symm.trans found'
    | some node =>
        rw [found] at failed
        dsimp only at failed
        split at failed
        case isTrue closed =>
          cases failed
          refine .inl ⟨?_, rfl⟩
          rintro ⟨-, -, node', found', uncovered, childless⟩
          obtain rfl := Option.some.inj (found.symm.trans found')
          simp [GraphNode.isCovered, uncovered, childless] at closed
        case isFalse isOpen =>
          simp only [GraphNode.isCovered, Bool.or_eq_true, Bool.not_eq_true', not_or,
            Bool.not_eq_false, List.isEmpty_iff] at isOpen
          cases missing : coverers.find? fun coverer => !graph.contains coverer with
          | none =>
              rw [missing] at failed
              cases failed
          | some first =>
              rw [missing] at failed
              cases failed
              exact .inr ⟨⟨allowed.1, allowed.2, node, found, isOpen⟩, first, rfl, rfl, rfl⟩

theorem noting_ne (graph : ReachabilityGraph σ α) (id : Nat) {noted : List Nat} {coverer : Nat}
    (member : coverer ∈ noted) (live : graph.contains coverer = true) :
    graph.noting id noted ≠ graph := by
  intro same
  obtain ⟨node, found⟩ := Option.isSome_iff_exists.mp live
  have view := node?_noting graph id noted coverer
  rw [same, found, Option.map_some, Option.some.injEq] at view
  have lengths := congrArg (fun node => node.covers.length) view
  simp only [List.length_append, List.length_replicate] at lengths
  have positive := List.count_pos_iff.mpr member
  omega

/-- An intact graph in which a live node notes an uncovered one is no longer intact. -/
theorem Intact.defect_noting (intact : graph.Intact) {node : GraphNode σ α}
    (found : graph.node? id = some node) (uncovered : node.coveredBy = []) {noted : List Nat}
    {coverer : Nat} (member : coverer ∈ noted) (live : graph.contains coverer = true) :
    (graph.noting id noted).defect? ≠ none := by
  have forest : (graph.noting id noted).Forest :=
    intact.of_bare (graph.bare_foldl_modifyNode noted fun _ => rfl)
  rw [ne_eq, forest.defect?_eq_none_iff]
  intro intact'
  obtain ⟨covererNode, foundCoverer⟩ := Option.isSome_iff_exists.mp live
  have foundNoted := node?_noting graph id noted coverer
  rw [foundCoverer, Option.map_some] at foundNoted
  have notes : id ∈ covererNode.covers ++ List.replicate (noted.count coverer) id :=
    List.mem_append_right _ (List.mem_replicate.mpr
      ⟨Nat.ne_of_gt (List.count_pos_iff.mpr member), rfl⟩)
  obtain ⟨last, foundLast, knows⟩ := intact'.coveredKnow foundNoted notes
  rw [node?_noting, found, Option.map_some, Option.some.injEq] at foundLast
  rw [← foundLast, uncovered] at knows
  cases knows

/-- Covering a node that fails leaves the graph as it was, except that the coverers before the
first missing one note the node.  So it changes nothing exactly if the node or the list is
refused, or if the first coverer is missing, and only then it leaves a graph without defects as
it is. -/
theorem Made.failed_cover (made : graph.Made)
    (failed : cover id coverers graph = (.error error, after)) :
    (¬ graph.Admits id coverers → after = graph) ∧
      (graph.Admits id coverers → ∃ missing,
        coverers.find? (fun coverer => !graph.contains coverer) = some missing ∧
          error = missingNode missing ∧
            after = graph.noting id (coverers.takeWhile graph.contains)) ∧
      (after = graph ↔ ¬ graph.Admits id coverers ∨ coverers.takeWhile graph.contains = []) ∧
      (graph.defect? = none → (after.defect? = none ↔ after = graph)) := by
  rcases cover_failed failed with ⟨refused, rfl⟩ | ⟨admits, missing, first, isError, rfl⟩
  · exact ⟨fun _ => rfl, fun admits => absurd admits refused, by simp [refused], by simp⟩
  · refine ⟨fun refused => absurd admits refused, fun _ => ⟨missing, first, isError, rfl⟩, ?_⟩
    cases noted : coverers.takeWhile graph.contains with
    | nil => exact ⟨by simp [noting], by simp [noting]⟩
    | cons coverer rest =>
        have member : coverer ∈ coverers.takeWhile graph.contains := noted ▸ List.mem_cons_self
        have live := List.mem_takeWhile_imp member
        rw [noted] at member
        have changed := graph.noting_ne id member live
        refine ⟨by simp [changed, admits], fun sound => ?_⟩
        obtain ⟨-, -, node, found, uncovered, -⟩ := admits
        have intact := made.forest.defect?_eq_none_iff.mp sound
        simp [changed, intact.defect_noting found uncovered member live]

def prunedCover : ReachabilityGraph Nat Bool :=
  (GraphCall.prune 2).perform jointCover

theorem made_prunedCover : prunedCover.Made :=
  (becomes_jointCover.mono fun _ _ _ => trivial).call (.prune 2) trivial

/-- Covering by the successor again, after it was removed, makes the other node note it. -/
theorem prunedCover_failed_cover : prunedCover.Admits 1 [0, 2] ∧
    cover 1 [0, 2] prunedCover = (.error (missingNode 2), prunedCover.noting 1 [0]) := by
  have failed : cover 1 [0, 2] prunedCover = (.error (missingNode 2), _) := rfl
  have admits : prunedCover.Admits 1 [0, 2] := ⟨by decide, by decide, _, rfl, rfl, rfl⟩
  obtain ⟨-, leaves, -⟩ := made_prunedCover.failed_cover failed
  obtain ⟨missing, -, -, after_eq⟩ := leaves admits
  exact ⟨admits, failed.trans (congrArg _ after_eq)⟩

/-- A failed cover may change a graph without defects into one with a defect. -/
theorem exists_defect_of_failed_cover : ∃ graph : ReachabilityGraph Nat Bool, graph.Made ∧
    graph.defect? = none ∧ ∃ error after, cover 1 [0, 2] graph = (.error error, after) ∧
      after ≠ graph ∧ after.defect? = some "#0 covers #1 one-sidedly" := by
  have defect : (cover 1 [0, 2] prunedCover).2.defect? = some "#0 covers #1 one-sidedly" := by
    decide
  have sound : prunedCover.defect? = none := by decide
  refine ⟨prunedCover, made_prunedCover, sound, missingNode 2, (cover 1 [0, 2] prunedCover).2, rfl,
    fun same => ?_, defect⟩
  rw [same, sound] at defect
  cases defect

end ReachabilityGraph

end AbstractionRefinement
