import AbstractionRefinement.Proofs.FailedExpansions
import AbstractionRefinement.Proofs.StateTrees
import AbstractionRefinement.Proofs.WaitlistContents

/-!
# Trees that are rebuilt

The answers of an analysis that never fails and depends on nothing but its arguments determine a
forest.  An exploration without coverage that stops only when nothing is left to expand builds
this forest, in whatever order it expands the nodes and from whatever pruning has left of it.  It
ends whenever the forest is finite, since expanding a node of the forest takes it away from what
is still to be built.
-/

namespace AbstractionRefinement

open AbstractionRefinement.Computation

namespace Explorer

open ReachabilityGraph

variable {ω σ α π : Type} {explorer : Explorer ω σ α π} {precision : π} {version : Nat}

/-- The answers of an analysis and a target predicate that never fail, and answer the same in
every state of the analysis. -/
structure PureAnswers (explorer : Explorer ω σ α π) where
  initialStates : π → List σ
  successors : π → σ → α → List σ
  target : σ → Bool
  initialStates_eq (precision : π) (world : ω) :
    (explorer.analysis.initialStates precision world).1 = .ok (initialStates precision)
  successors_eq (precision : π) (state : σ) (action : α) (world : ω) :
    (explorer.analysis.successors precision state action world).1 =
      .ok (successors precision state action)
  target_eq (state : σ) (world : ω) : (explorer.target state world).1 = .ok (target state)

namespace PureAnswers

def unfolding (answers : explorer.PureAnswers) (precision : π) : Unfolding σ α where
  roots := explorer.satisfiable (answers.initialStates precision)
  target := answers.target
  successors state := (explorer.enabled state).flatMap fun action =>
    (explorer.satisfiable (answers.successors precision state action)).map (Prod.mk action)

def reorder (answers : explorer.PureAnswers) (strategy : SearchStrategy) :
    PureAnswers { explorer with strategy } :=
  { answers with }

variable (answers : explorer.PureAnswers)
include answers

theorem not_throws (error : EngineError) : ¬ explorer.Throws error := by
  intro throws
  cases throws with
  | @initialStates precision world after run =>
      have answer := answers.initialStates_eq precision world
      rw [run] at answer
      cases answer
  | @successors precision state action world after run =>
      have answer := answers.successors_eq precision state action world
      rw [run] at answer
      cases answer
  | @target state world after run =>
      have answer := answers.target_eq state world
      rw [run] at answer
      cases answer

/-- The new nodes have the states, and the targets among them are marked. -/
theorem madeOf {states : List σ} {made : List (NodeData σ)}
    (madeOf : explorer.MadeOf states made) :
    made.map NodeData.state = explorer.satisfiable states ∧
      ∀ new ∈ made, new.target = answers.target new.state := by
  unfold MadeOf at madeOf
  generalize explorer.satisfiable states = kept at *
  induction madeOf with
  | nil => exact ⟨rfl, by simp⟩
  | @cons state data kept made describes _ ih =>
      obtain ⟨rfl, world, after, run⟩ := describes
      have answer := answers.target_eq data.state world
      rw [run] at answer
      exact ⟨by rw [List.map_cons, ih.1],
        List.forall_mem_cons.mpr ⟨Except.ok.inj answer, ih.2⟩⟩

theorem successorsOf {state : σ} {actions : List α} {made : List (α × NodeData σ)}
    (successorsOf : explorer.SuccessorsOf precision state actions made) :
    (made.map fun new => (new.1, new.2.state)) = (actions.flatMap fun action =>
        (explorer.satisfiable (answers.successors precision state action)).map
          (Prod.mk action)) ∧
      ∀ new ∈ made, new.2.target = answers.target new.2.state := by
  induction successorsOf with
  | nil => exact ⟨rfl, by simp⟩
  | @cons action actions world after states made others run madeOf _ ih =>
      have answer := answers.successors_eq precision state action world
      rw [run] at answer
      obtain rfl := Except.ok.inj answer
      obtain ⟨states_eq, targets⟩ := answers.madeOf madeOf
      constructor
      · rw [List.map_append, ih.1, List.flatMap_cons, ← states_eq, List.map_map, List.map_map]
        rfl
      · simp only [List.mem_append, List.mem_map]
        rintro new (⟨data, isNew, rfl⟩ | other)
        · exact targets data isNew
        · exact ih.2 new other

/-- A node is expanded as the forest is. -/
theorem outcome_expand {id : Nat} {node : GraphNode σ α} (exploration : ExplorationState ω σ α)
    (found : exploration.graph.node? id = some node) :
    (explorer.expand precision version id).Outcome exploration
      (fun new after => ∃ made, (made.map fun new => (new.1, new.2.state)) =
          (answers.unfolding precision).successors node.state ∧
        (∀ new ∈ made, new.2.target = (answers.unfolding precision).target new.2.state) ∧
          after.graph = exploration.graph.withExpansion id (node.depth + 1) made ∧
            new = List.range' exploration.graph.nodes.size made.length)
      fun _ _ => False := by
  refine (expand_makes_successors id exploration).mono ?_ ?_
  · rintro new after ⟨other, made, foundOther, successorsOf, added⟩
    obtain rfl := Option.some.inj (found.symm.trans foundOther)
    obtain ⟨steps, targets⟩ := answers.successorsOf successorsOf
    exact ⟨made, steps, targets, added⟩
  · rintro error after (⟨missing, -⟩ | ⟨_, _, _, throws, -⟩)
    · cases found.symm.trans missing
    · exact answers.not_throws error throws

/-- The initial nodes are created as the forest begins. -/
theorem outcome_createInitial (exploration : ExplorationState ω σ α) :
    (explorer.createInitial precision version).Outcome exploration
      (fun _ after => ∃ made, made.map NodeData.state = (answers.unfolding precision).roots ∧
        (∀ new ∈ made, new.target = (answers.unfolding precision).target new.state) ∧
          after.graph = { exploration.graph.withInitials made with initialized := true })
      fun _ _ => False := by
  refine (createInitial_makes_initial exploration).mono ?_ ?_
  · rintro _ after ⟨world, states, world', made, run, madeOf, graph_eq⟩
    have answer := answers.initialStates_eq precision world
    rw [run] at answer
    obtain rfl := Except.ok.inj answer
    obtain ⟨states_eq, targets⟩ := answers.madeOf madeOf
    exact ⟨made, states_eq, targets, graph_eq⟩
  · rintro error after ⟨throws, -⟩
    exact answers.not_throws error throws

end PureAnswers

theorem outcome_close_uncovered (uncovering : explorer.coverage = .none) (id : Nat)
    (exploration : ExplorationState ω σ α) :
    (explorer.close precision id).Outcome exploration
      (fun closed after => closed = false ∧ after = exploration) fun _ _ => False := by
  unfold close
  rw [if_pos uncovering]
  exact ⟨rfl, rfl⟩

/-- Without coverage, the new nodes that are no targets are put on the waitlist. -/
theorem outcome_enqueue_uncovered (uncovering : explorer.coverage = .none) (new : List Nat)
    (list : Waitlist RandomStream) (exploration : ExplorationState ω σ α)
    (live : ∀ id ∈ new, ∃ node, exploration.graph.node? id = some node) :
    (explorer.enqueue precision new list).Outcome exploration
      (fun longer after => after = exploration ∧ longer.contents.Perm
        ((new.filter fun id => (exploration.graph.node? id).any fun node => !node.target) ++
          list.contents))
      fun _ _ => False := by
  induction new generalizing list with
  | nil => exact ⟨rfl, .refl _⟩
  | cons id new ih =>
      obtain ⟨⟨node, found⟩, live⟩ := List.forall_mem_cons.mp live
      unfold enqueue
      simp only [outcome_bind, outcome_onGraph, outcome_getNode]
      refine ⟨fun other foundOther => ?_, fun _ missing => absurd missing (lookup_ne_error found)⟩
      obtain rfl := Option.some.inj (found.symm.trans foundOther)
      split
      case isTrue isTarget =>
        rw [List.filter_cons_of_neg (by simp [found, isTarget])]
        exact ih list live
      case isFalse noTarget =>
        rw [List.filter_cons_of_pos (by simp [found, noTarget]), outcome_bind]
        refine (outcome_close_uncovered uncovering id exploration).mono ?_
          fun _ _ failed => failed
        rintro closed middle ⟨rfl, rfl⟩
        refine (ih (list.add id node.depth) live).mono ?_ fun _ _ failed => failed
        rintro longer after ⟨same, perm⟩
        exact ⟨same, perm.trans
          (((list.contents_add id node.depth).append_left _).trans List.perm_middle)⟩

end Explorer

namespace ReachabilityGraph

variable {σ α : Type} {graph : ReachabilityGraph σ α} {unfolding : Unfolding σ α}
  {levels id : Nat} {node : GraphNode σ α}

/-- Number of nodes of the forest below a node of the graph, itself included. -/
def sizeAt (graph : ReachabilityGraph σ α) (unfolding : Unfolding σ α) (levels id : Nat) : Nat :=
  (graph.node? id).elim 0 fun node => unfolding.sizeWithin levels node.state

/-- The forest has at most so many levels below each node of the graph. -/
def EndsWithin (graph : ReachabilityGraph σ α) (unfolding : Unfolding σ α) (levels : Nat) : Prop :=
  ∀ ⦃id : Nat⦄ ⦃node : GraphNode σ α⦄, graph.node? id = some node →
    unfolding.EndsWithin levels node.state

theorem sizeAt_eq (found : graph.node? id = some node) :
    graph.sizeAt unfolding levels id = unfolding.sizeWithin levels node.state := by
  rw [sizeAt, found, Option.elim_some]

/-- The new nodes of an expansion weigh one node less than the expanded one. -/
theorem sum_sizeAt_withExpansion (found : graph.node? id = some node)
    (unmarked : unfolding.target node.state = false)
    (ends : unfolding.EndsWithin levels node.state) (depth : Nat) {made : List (α × NodeData σ)}
    (steps : (made.map fun new => (new.1, new.2.state)) = unfolding.successors node.state) :
    ((List.range' graph.nodes.size made.length).map
        ((graph.withExpansion id depth made).sizeAt unfolding levels)).sum + 1 =
      graph.sizeAt unfolding levels id := by
  have steps_eq : unfolding.steps node.state = unfolding.successors node.state := by
    rw [Unfolding.steps, unmarked]
    rfl
  have sizes_eq : (List.range' graph.nodes.size made.length).map
        ((graph.withExpansion id depth made).sizeAt unfolding levels) =
      (unfolding.successors node.state).map fun step => unfolding.sizeWithin levels step.2 := by
    rw [← steps]
    refine map_eq_of_map_eq_some (map_step?_withExpansion found depth made)
      fun new step isStep => ?_
    obtain ⟨last, source, foundLast, -, state_eq⟩ := step?_eq_some_iff.mp isStep
    rw [sizeAt_eq foundLast, state_eq]
  rw [sizes_eq, ← steps_eq, sizeAt_eq found, ends.sizeWithin_eq, Nat.add_comm]

/-- An expansion changes nothing below the other nodes. -/
theorem sizeAt_withExpansion (found : graph.node? id = some node) (depth : Nat)
    (made : List (α × NodeData σ)) {other : Nat} (old : other < graph.nodes.size) :
    (graph.withExpansion id depth made).sizeAt unfolding levels other =
      graph.sizeAt unfolding levels other := by
  have state_eq := (step?_withExpansion found depth made old).2
  unfold sizeAt
  cases foundOther : graph.node? other with
  | none =>
      rw [foundOther, Option.map_none, Option.map_eq_none_iff] at state_eq
      rw [state_eq]
  | some last =>
      rw [foundOther, Option.map_some] at state_eq
      obtain ⟨last', foundLast', same⟩ := Option.map_eq_some_iff.mp state_eq
      rw [foundLast', Option.elim_some, Option.elim_some, same]

theorem EndsWithin.withExpansion (ends : graph.EndsWithin unfolding levels)
    (found : graph.node? id = some node) (unmarked : unfolding.target node.state = false)
    (depth : Nat) {made : List (α × NodeData σ)}
    (steps : (made.map fun new => (new.1, new.2.state)) = unfolding.successors node.state) :
    (graph.withExpansion id depth made).EndsWithin unfolding levels := by
  intro other last foundLast
  rcases withExpansion_cases found foundLast with ⟨-, rfl⟩ | ⟨-, old⟩ | ⟨new, isNew, rfl⟩
  · have endsParent : unfolding.EndsWithin levels node.state := ends found
    exact endsParent
  · exact ends old
  · have member : (new.1, new.2.state) ∈ unfolding.steps node.state := by
      rw [Unfolding.steps, unmarked, if_neg Bool.false_ne_true, ← steps]
      exact List.mem_map_of_mem isNew
    exact (ends found).step member

/-- The waiting nodes are live, and the forest, which ends everywhere, has fewer nodes below them
than the bound. -/
structure Fits (graph : ReachabilityGraph σ α) (unfolding : Unfolding σ α) (levels : Nat)
    (waiting : List Nat) (bound : Nat) : Prop where
  ends : graph.EndsWithin unfolding levels
  live : ∀ id ∈ waiting, ∃ node, graph.node? id = some node
  fewer : (waiting.map (graph.sizeAt unfolding levels)).sum < bound

namespace Fits

variable {waiting rest longer : List Nat} {bound : Nat}

theorem drop (fits : graph.Fits unfolding levels waiting (bound + 1))
    (taken : waiting.Perm (id :: rest)) : graph.Fits unfolding levels rest bound := by
  obtain ⟨node, found⟩ := fits.live id (taken.mem_iff.mpr List.mem_cons_self)
  have positive : 0 < graph.sizeAt unfolding levels id := by
    rw [sizeAt_eq found]
    exact Unfolding.sizeWithin_pos ..
  have less := fits.fewer
  rw [(taken.map _).sum_eq, List.map_cons, List.sum_cons] at less
  exact ⟨fits.ends, fun other member => fits.live other
    (taken.mem_iff.mpr (List.mem_cons_of_mem id member)), by omega⟩

/-- Expanding a node takes it away from what is still to be built. -/
theorem expand (fits : graph.Fits unfolding levels waiting (bound + 1))
    (taken : waiting.Perm (id :: rest)) (found : graph.node? id = some node)
    (unmarked : unfolding.target node.state = false) (depth : Nat)
    {made : List (α × NodeData σ)} (keep : Nat → Bool)
    (steps : (made.map fun new => (new.1, new.2.state)) = unfolding.successors node.state)
    (added : longer.Perm
      ((List.range' graph.nodes.size made.length).filter keep ++ rest)) :
    (graph.withExpansion id depth made).Fits unfolding levels longer bound := by
  have restLive : ∀ other ∈ rest, ∃ last, graph.node? other = some last := fun other member =>
    fits.live other (taken.mem_iff.mpr (List.mem_cons_of_mem id member))
  refine ⟨fits.ends.withExpansion found unmarked depth steps, fun other member => ?_, ?_⟩
  · rcases List.mem_append.mp (added.mem_iff.mp member) with isNew | isOld
    · obtain ⟨last, foundLast, -⟩ :=
        Explorer.closable_withExpansion found depth made other (List.mem_of_mem_filter isNew)
      exact ⟨last, foundLast⟩
    · obtain ⟨last, foundLast⟩ := restLive other isOld
      have state_eq := (step?_withExpansion found depth made (node?_eq_some_lt foundLast)).2
      rw [foundLast, Option.map_some] at state_eq
      exact (Option.map_eq_some_iff.mp state_eq).imp fun _ => And.left
  · have kept_le := ((List.filter_sublist (p := keep)
      (l := List.range' graph.nodes.size made.length)).map
        ((graph.withExpansion id depth made).sizeAt unfolding levels)).sum_le_sum
          fun _ _ => Nat.zero_le _
    have built := sum_sizeAt_withExpansion found unmarked (fits.ends found) depth steps
    have rest_eq : rest.map ((graph.withExpansion id depth made).sizeAt unfolding levels) =
        rest.map (graph.sizeAt unfolding levels) := by
      refine List.map_congr_left fun other member => ?_
      obtain ⟨last, foundLast⟩ := restLive other member
      exact sizeAt_withExpansion found depth made (node?_eq_some_lt foundLast)
    have less := fits.fewer
    rw [(taken.map _).sum_eq, List.map_cons, List.sum_cons] at less
    rw [(added.map _).sum_eq, List.map_append, List.sum_append, rest_eq]
    omega

end Fits

/-- The graph is a beginning of the forest, and all open nodes wait for their expansion. -/
structure Awaits (graph : ReachabilityGraph σ α) (unfolding : Unfolding σ α)
    (waiting : List Nat) : Prop extends graph.Begins unfolding where
  initialized : graph.initialized = true
  waits {id : Nat} {node : GraphNode σ α} : graph.node? id = some node →
    node.isIncomplete = true → id ∈ waiting

namespace Awaits

variable {waiting rest longer : List Nat}

theorem completes (awaits : graph.Awaits unfolding []) : graph.Completes unfolding := by
  refine ⟨awaits.toBegins, awaits.initialized, fun id node found => ?_⟩
  cases isOpen : node.isIncomplete with
  | false => rfl
  | true => cases awaits.waits found isOpen

theorem drop (awaits : graph.Awaits unfolding waiting) (taken : waiting.Perm (id :: rest))
    (closed : ¬ (graph.node? id).any GraphNode.isIncomplete = true) :
    graph.Awaits unfolding rest := by
  refine ⟨awaits.toBegins, awaits.initialized, fun {other last} found isOpen => ?_⟩
  refine (List.mem_cons.mp (taken.mem_iff.mp (awaits.waits found isOpen))).resolve_left ?_
  rintro rfl
  simp [found, isOpen] at closed

/-- Nor need an expanded node, but its children do unless they are targets. -/
theorem expand (awaits : graph.Awaits unfolding waiting) (taken : waiting.Perm (id :: rest))
    (found : graph.node? id = some node) (isOpen : node.isIncomplete = true)
    {made : List (α × NodeData σ)}
    (targets : ∀ new ∈ made, new.2.target = unfolding.target new.2.state)
    (steps : (made.map fun new => (new.1, new.2.state)) = unfolding.successors node.state)
    (added : longer.Perm (((List.range' graph.nodes.size made.length).filter fun new =>
      ((graph.withExpansion id (node.depth + 1) made).node? new).any
        fun node => !node.target) ++ rest)) :
    (graph.withExpansion id (node.depth + 1) made).Awaits unfolding longer := by
  refine ⟨awaits.toBegins.withExpansion found isOpen targets steps,
    (initialized_withSuccessors ..).trans awaits.initialized, fun {other last} foundLast open' => ?_⟩
  rw [added.mem_iff, List.mem_append, List.mem_filter]
  by_cases old : other < graph.nodes.size
  · right
    rw [node?_withExpansion found] at foundLast
    split at foundLast
    case isTrue =>
      obtain rfl := Option.some.inj foundLast
      simp [GraphNode.isIncomplete] at open'
    case isFalse different =>
      have waits := taken.mem_iff.mp (awaits.waits foundLast open')
      exact (List.mem_cons.mp waits).resolve_left different
  · left
    have inside := node?_eq_some_lt foundLast
    rw [ReachabilityGraph.withExpansion, size_modifyNode, size_withSuccessors] at inside
    exact ⟨List.mem_range'_1.mpr ⟨Nat.not_lt.mp old, inside⟩,
      by simp [foundLast, GraphNode.target_of_isIncomplete open']⟩

end Awaits

/-- Number of nodes of the forest below what is to be expanded first. -/
def workLeft (graph : ReachabilityGraph σ α) (unfolding : Unfolding σ α) (levels : Nat) : Nat :=
  if graph.initialized then
    (graph.incompleteNodes.map fun node => unfolding.sizeWithin levels node.state).sum
  else (unfolding.roots.map (unfolding.sizeWithin levels)).sum

/-- The forest is finite, and there is fuel for what is still to be built of it. -/
structure Affords (graph : ReachabilityGraph σ α) (unfolding : Unfolding σ α)
    (levels fuel : Nat) : Prop where
  ends : graph.EndsWithin unfolding levels
  roots : ∀ root ∈ unfolding.roots, unfolding.EndsWithin levels root
  enough : graph.workLeft unfolding levels < fuel

theorem mem_incompleteNodes : node ∈ graph.incompleteNodes ↔
    (∃ id, graph.node? id = some node) ∧ node.isIncomplete = true := by
  rw [incompleteNodes, List.mem_filter, mem_live]

theorem states_withInitials (graph : ReachabilityGraph σ α) (made : List (NodeData σ)) :
    (graph.withInitials made).live.map GraphNode.state =
      graph.live.map GraphNode.state ++ made.map NodeData.state := by
  unfold withInitials
  induction made generalizing graph with
  | nil => simp
  | cons data made ih =>
      have states_eq : (graph.addInitial data).live.map GraphNode.state =
          graph.live.map GraphNode.state ++ [data.state] := by
        simp [live, addInitial, append]
      rw [List.foldl_cons, ih, states_eq, List.append_assoc, List.map_cons, List.singleton_append]

theorem endsWithin_of_states {states : List σ}
    (states_eq : graph.live.map GraphNode.state = states)
    (ends : ∀ state ∈ states, unfolding.EndsWithin levels state) :
    graph.EndsWithin unfolding levels := by
  rintro id node found
  refine ends node.state ?_
  rw [← states_eq]
  exact List.mem_map_of_mem (mem_live.mpr ⟨id, found⟩)

theorem sum_incompleteNodes_le (graph : ReachabilityGraph σ α) (size : σ → Nat) :
    (graph.incompleteNodes.map fun node => size node.state).sum ≤
      ((graph.live.map GraphNode.state).map size).sum := by
  rw [List.map_map]
  exact (List.filter_sublist.map _).sum_le_sum fun _ _ => Nat.zero_le _

end ReachabilityGraph

namespace Explorer

open ReachabilityGraph

variable {ω σ α π : Type} {explorer : Explorer ω σ α π} {precision : π} {version : Nat}

theorem waitlist_contents (graph : ReachabilityGraph σ α) :
    (explorer.waitlist graph).contents.Perm (graph.incompleteNodes.map GraphNode.id) := by
  have contents := (Waitlist.new explorer.strategy).contents_addAll
    (graph.incompleteNodes.map fun node => (node.id, node.depth))
  rwa [Waitlist.contents_new, List.append_nil, List.map_map] at contents

section Waitlists

variable {graph : ReachabilityGraph σ α} {unfolding : Unfolding σ α}

theorem awaits_waitlist (begins : graph.Begins unfolding)
    (initialized : graph.initialized = true) :
    graph.Awaits unfolding (explorer.waitlist graph).contents := by
  refine ⟨begins, initialized, fun {id node} found isOpen => ?_⟩
  rw [(waitlist_contents graph).mem_iff, ← begins.id_eq found]
  exact List.mem_map_of_mem (mem_incompleteNodes.mpr ⟨⟨id, found⟩, isOpen⟩)

theorem fits_waitlist {levels bound : Nat} (forest : graph.Forest)
    (ends : graph.EndsWithin unfolding levels)
    (less : (graph.incompleteNodes.map fun node =>
      unfolding.sizeWithin levels node.state).sum < bound) :
    graph.Fits unfolding levels (explorer.waitlist graph).contents bound := by
  have found : ∀ node ∈ graph.incompleteNodes, graph.node? node.id = some node := by
    intro node member
    obtain ⟨⟨id, found⟩, -⟩ := mem_incompleteNodes.mp member
    rwa [forest.id_eq found]
  refine ⟨ends, fun id member => ?_, ?_⟩
  · obtain ⟨node, isOpen, rfl⟩ :=
      List.mem_map.mp ((waitlist_contents graph).mem_iff.mp member)
    exact ⟨node, found node isOpen⟩
  · rw [((waitlist_contents graph).map _).sum_eq, List.map_map]
    refine Nat.lt_of_le_of_lt (Nat.le_of_eq (congrArg List.sum ?_)) less
    exact List.map_congr_left fun node member => sizeAt_eq (found node member)

end Waitlists

namespace PureAnswers

variable (answers : explorer.PureAnswers) (uncovering : explorer.coverage = .none)
include answers uncovering

/-- What happens to an open node: it is expanded as the forest is, and what is to be expanded
next is put on the waitlist. -/
theorem outcome_expand_enqueue {id : Nat} {node : GraphNode σ α}
    (exploration : ExplorationState ω σ α) (list : Waitlist RandomStream)
    (found : exploration.graph.node? id = some node) :
    (explorer.expand precision version id).Outcome exploration
      (fun new middle => (explorer.enqueue precision new list).Outcome middle
        (fun longer after => ∃ made : List (α × NodeData σ),
          (made.map fun new => (new.1, new.2.state)) =
              (answers.unfolding precision).successors node.state ∧
            (∀ new ∈ made, new.2.target = (answers.unfolding precision).target new.2.state) ∧
              after.graph = exploration.graph.withExpansion id (node.depth + 1) made ∧
                longer.contents.Perm
                  (((List.range' exploration.graph.nodes.size made.length).filter fun new =>
                    (after.graph.node? new).any fun node => !node.target) ++ list.contents))
        fun _ _ => False)
      fun _ _ => False := by
  refine (answers.outcome_expand exploration found).mono ?_ fun _ _ failed => failed
  rintro new ⟨world, graph, status⟩ ⟨made, steps, targets, rfl, rfl⟩
  refine (outcome_enqueue_uncovered uncovering _ list ⟨world, _, status⟩
    fun new member => ?_).mono ?_ fun _ _ failed => failed
  · obtain ⟨last, foundLast, -⟩ := closable_withExpansion found _ made new member
    exact ⟨last, foundLast⟩
  · rintro longer _ ⟨rfl, added⟩
    exact ⟨made, steps, targets, rfl, added⟩

variable (full : explorer.stop = .never)
include full

/-- Exploring completes the forest.  It is stopped only by the budget, or if there is not fuel
for all that is still to be built. -/
theorem outcome_exploreWithin (budget : Budget ω) (fuel : Nat) (list : Waitlist RandomStream)
    (exploration : ExplorationState ω σ α)
    (awaits : exploration.graph.Awaits (answers.unfolding precision) list.contents) :
    (explorer.exploreWithin precision version budget fuel list).Outcome exploration
      (fun _ after => after.graph.Completes (answers.unfolding precision))
      fun _ _ => (∀ world, budget.exceeded? world = none) → ∀ levels,
        ¬ exploration.graph.Fits (answers.unfolding precision) levels list.contents fuel := by
  induction fuel generalizing list exploration with
  | zero => exact fun _ levels fits => absurd fits.fewer (Nat.not_lt_zero _)
  | succ fuel ih =>
      unfold exploreWithin
      simp only [outcome_bind, outcome_get, canStop, full, StopCriterion.targetCount,
        Bool.false_eq_true, if_false]
      split
      case h_1 empty =>
        rw [Waitlist.contents_eq_nil empty] at awaits
        exact awaits.completes
      case h_2 id rest removed =>
        have taken := Waitlist.contents_remove removed
        rw [outcome_bind]
        refine outcome_poll budget ?_ fun error exceeded unlimited => ?_
        · simp only [outcome_bind, outcome_get]
          split
          case isTrue closed =>
            -- A node that needs no expansion leaves the graph as it is.
            have awaits' := awaits.drop taken (by simpa using closed)
            exact (ih rest exploration awaits').mono (fun _ _ completes => completes)
              fun _ _ failed unlimited levels fits => failed unlimited levels (fits.drop taken)
          case isFalse isOpen =>
            obtain ⟨node, found, open'⟩ : ∃ node, exploration.graph.node? id = some node ∧
                node.isIncomplete = true := by
              simpa [Option.any_eq_true] using isOpen
            have unmarked : (answers.unfolding precision).target node.state = false := by
              rw [← awaits.target_eq found, GraphNode.target_of_isIncomplete open']
            rw [outcome_bind]
            refine (outcome_close_uncovered uncovering id exploration).mono ?_
              fun _ _ failed => failed.elim
            rintro closed middle ⟨rfl, rfl⟩
            rw [if_neg Bool.false_ne_true, outcome_bind]
            refine (answers.outcome_expand_enqueue uncovering middle rest found).mono ?_
              fun _ _ failed => failed.elim
            intro new expanded enqueues
            rw [outcome_bind]
            refine enqueues.mono ?_ fun _ _ failed => failed.elim
            rintro longer ⟨world, graph, status⟩ ⟨made, steps, targets, rfl, added⟩
            exact (ih longer _ (awaits.expand taken found open' targets steps added)).mono
              (fun _ _ completes => completes) fun _ _ failed unlimited levels fits =>
                failed unlimited levels (fits.expand taken found unmarked _ _ steps added)
        · rw [unlimited] at exceeded
          cases exceeded

/-- A check completes the forest that the graph begins. -/
theorem outcome_check (budget : Budget ω) (fuel : Nat) (exploration : ExplorationState ω σ α)
    (begins : exploration.graph.Begins (answers.unfolding precision)) :
    (explorer.check fuel precision version budget).Outcome exploration
      (fun _ after => after.graph.Completes (answers.unfolding precision))
      fun _ _ => (∀ world, budget.exceeded? world = none) → ∀ levels,
        ¬ exploration.graph.Affords (answers.unfolding precision) levels fuel := by
  refine Explorer.outcome_check (fun _ graph => graph.Completes (answers.unfolding precision))
    (fun _ _ => (∀ world, budget.exceeded? world = none) → ∀ levels,
      ¬ exploration.graph.Affords (answers.unfolding precision) levels fuel)
    (fun notInitialized => ?_) fun initialized => ?_
  · refine (answers.outcome_createInitial _).mono ?_ fun _ _ failed => failed.elim
    rintro _ ⟨world, graph, status⟩ ⟨made, states, targets, rfl⟩
    have started := begins.withInitials notInitialized targets states
    have noNodes : exploration.graph.live = [] := by
      refine List.eq_nil_iff_forall_not_mem.mpr fun node member => ?_
      obtain ⟨id, found⟩ := mem_live.mp member
      rw [begins.node?_eq_none notInitialized] at found
      cases found
    have states_eq := states_withInitials exploration.graph made
    rw [noNodes, List.map_nil, List.nil_append, states] at states_eq
    refine (answers.outcome_exploreWithin uncovering full budget fuel _ ⟨world, _, status⟩
      (awaits_waitlist started rfl)).mono (fun _ _ completes => completes)
        fun _ _ failed unlimited levels affords => failed unlimited levels ?_
    have enough := affords.enough
    rw [workLeft, notInitialized, if_neg Bool.false_ne_true, ← states_eq] at enough
    exact fits_waitlist started.toForest (endsWithin_of_states states_eq affords.roots)
      (Nat.lt_of_le_of_lt (sum_incompleteNodes_le _ _) enough)
  · refine (answers.outcome_exploreWithin uncovering full budget fuel _
      { exploration with status := .exploring } (awaits_waitlist begins initialized)).mono
        (fun _ _ completes => completes)
          fun _ _ failed unlimited levels affords => failed unlimited levels ?_
    have enough := affords.enough
    rw [workLeft, initialized, if_pos rfl] at enough
    exact fits_waitlist begins.toForest affords.ends enough

end PureAnswers

/-- Whatever the search strategy, a check of the graph that is not limited returns if it has
enough fuel, and the graph has the trees whenever a check of it returns. -/
structure Rebuilds (explorer : Explorer ω σ α π) (precision : π) (graph : ReachabilityGraph σ α)
    (forest : List (StateTree σ α)) : Prop where
  returns : ∃ enough, ∀ (strategy : SearchStrategy) (fuel version : Nat) (budget : Budget ω)
    (world : ω) (status : ExplorationStatus), enough ≤ fuel →
      (∀ world, budget.exceeded? world = none) → ∃ found after,
        { explorer with strategy }.check fuel precision version budget ⟨world, graph, status⟩ =
          (.ok found, after)
  trees_eq (strategy : SearchStrategy) {fuel version : Nat} {budget : Budget ω} {world : ω}
    {status found : ExplorationStatus} {after : ExplorationState ω σ α} :
      { explorer with strategy }.check fuel precision version budget ⟨world, graph, status⟩ =
        (.ok found, after) → after.graph.trees = some forest

/-- Every beginning of a finite forest is completed. -/
theorem PureAnswers.rebuilds (answers : explorer.PureAnswers) (full : explorer.stop = .never)
    (uncovering : explorer.coverage = .none) {graph complete : ReachabilityGraph σ α}
    {levels : Nat} {forest : List (StateTree σ α)}
    (begins : graph.Begins (answers.unfolding precision))
    (ends : graph.EndsWithin (answers.unfolding precision) levels)
    (completes : complete.Completes (answers.unfolding precision))
    (trees_eq : complete.trees = some forest)
    (roots : ∀ root ∈ (answers.unfolding precision).roots,
      (answers.unfolding precision).EndsWithin levels root) :
    explorer.Rebuilds precision graph forest where
  returns := by
    refine ⟨graph.workLeft (answers.unfolding precision) levels + 1,
      fun strategy fuel version budget world status enough unlimited => ?_⟩
    have outcome :
        ({ explorer with strategy }.check fuel precision version budget).Outcome _ _ _ :=
      (answers.reorder strategy).outcome_check uncovering full budget fuel
        ⟨world, graph, status⟩ begins
    rcases run : { explorer with strategy }.check fuel precision version budget
      ⟨world, graph, status⟩ with ⟨_ | found, after⟩
    · exact absurd ⟨ends, roots, enough⟩ (outcome.failed run unlimited levels)
    · exact ⟨found, after, run⟩
  trees_eq strategy {fuel version budget world status _ _} run := by
    have outcome :
        ({ explorer with strategy }.check fuel precision version budget).Outcome _ _ _ :=
      (answers.reorder strategy).outcome_check uncovering full budget fuel
        ⟨world, graph, status⟩ begins
    rw [← trees_eq]
    exact completes.same_trees (outcome.returned run)

/-- Pruning loses nothing that a further check does not build again.  If a check without coverage
builds the whole graph, then pruning at any node of it succeeds, and checks under the same
precision, in whatever order they explore, build the same trees again from what is left as they
build from the graph without nodes. -/
theorem pruning_loses_nothing (answers : explorer.PureAnswers) (full : explorer.stop = .never)
    (uncovering : explorer.coverage = .none) {fuel : Nat} {budget : Budget ω} {world : ω}
    {status found : ExplorationStatus} {first : ExplorationState ω σ α}
    (run : explorer.check fuel precision version budget ⟨world, .empty, status⟩ =
      (.ok found, first)) {id : Nat} {node : GraphNode σ α}
    (live : first.graph.node? id = some node) :
    ∃ pruned forest, ReachabilityGraph.prune id first.graph = (.ok (), pruned) ∧
      first.graph.trees = some forest ∧ explorer.Rebuilds precision .empty forest ∧
        explorer.Rebuilds precision pruned forest := by
  have outcome : (explorer.check fuel precision version budget).Outcome _ _ _ :=
    answers.outcome_check uncovering full budget fuel ⟨world, .empty, status⟩ begins_empty
  have completes := outcome.returned run
  have ends : first.graph.EndsWithin (answers.unfolding precision) first.graph.nodes.size :=
    fun id node found => completes.endsWithin (Nat.le_add_left ..) found
  have roots : ∀ root ∈ (answers.unfolding precision).roots,
      (answers.unfolding precision).EndsWithin first.graph.nodes.size root := by
    intro root isRoot
    obtain ⟨id, node, found, rfl⟩ := completes.exists_initial isRoot
    exact ends found
  obtain ⟨forest, trees_eq⟩ := completes.exists_trees
  obtain ⟨pruned, prunes, begins, stays⟩ := completes.toBegins.prune live
  refine ⟨pruned, forest, prunes, trees_eq, ?_, ?_⟩
  · exact answers.rebuilds full uncovering begins_empty (by simp [EndsWithin]) completes trees_eq
      roots
  · refine answers.rebuilds full uncovering begins (fun id last found => ?_) completes trees_eq
      roots
    obtain ⟨before, foundBefore, state_eq⟩ := stays found
    rw [state_eq]
    exact ends foundBefore

section Stairs

/-- Stairs that are climbed by single or double steps.  There is nothing above the second stair,
which is the target. -/
def stairs : Explorer Unit Nat Bool Unit where
  analysis :=
    { top := fun _ => 0
      isBottom := fun height => 2 < height
      leq := fun _ first second => first = second
      join := fun _ _ _ => none
      hasExactJoin := false
      initialStates := fun _ => return [0, 1]
      successors := fun _ height doubles => return [if doubles then height + 2 else height + 1] }
  enabled := fun _ => [false, true]
  target := fun height => return height = 2
  projection := fun _ => 0
  strategy := .breadthFirst
  stop := .never
  coverage := .none

def stairsAnswers : stairs.PureAnswers where
  initialStates _ := [0, 1]
  successors _ height doubles := [if doubles then height + 2 else height + 1]
  target height := height = 2
  initialStates_eq _ _ := rfl
  successors_eq _ _ _ _ := rfl
  target_eq _ _ := rfl

def waysUp : List (StateTree Nat Bool) :=
  [.node 0 false [(false, .node 1 false [(false, .node 2 true [])]), (true, .node 2 true [])],
    .node 1 false [(false, .node 2 true [])]]

/-- Pruning at the first stair above the ground removes three nodes, which are built again. -/
theorem stairs_rebuilt : ∃ pruned,
    ReachabilityGraph.prune 2
        (stairs.check 9 () 0 (.start {} (fun _ => 0) ()) ⟨(), .empty, .idle⟩).2.graph =
      (.ok (), pruned) ∧ pruned.size = 3 ∧ stairs.Rebuilds () .empty waysUp ∧
        stairs.Rebuilds () pruned waysUp := by
  generalize explored : stairs.check 9 () 0 (.start {} (fun _ => 0) ()) ⟨(), .empty, .idle⟩ = first
  have found : first.1 = .ok .targetFound := by
    rw [← explored]
    cbv
  obtain ⟨node, live⟩ : ∃ node, first.2.graph.node? 2 = some node := by
    rw [← Option.isSome_iff_exists, ← explored]
    cbv
  have trees_eq : first.2.graph.trees = some waysUp := by
    rw [← explored]
    cbv
  obtain ⟨pruned, forest, prunes, trees_eq', fresh, rebuilt⟩ :=
    pruning_loses_nothing stairsAnswers rfl rfl (explored.trans (Prod.ext found rfl)) live
  have same : forest = waysUp := Option.some.inj (trees_eq'.symm.trans trees_eq)
  rw [same] at fresh rebuilt
  refine ⟨pruned, prunes, ?_, fresh, rebuilt⟩
  have pruned_eq : pruned = (ReachabilityGraph.prune 2 first.2.graph).2 := by rw [prunes]
  rw [pruned_eq, ← explored]
  cbv

end Stairs

end Explorer

end AbstractionRefinement
