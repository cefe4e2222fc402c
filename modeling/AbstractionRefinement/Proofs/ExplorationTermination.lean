import Mathlib.Data.Set.Card
import AbstractionRefinement.Proofs.RebuiltTrees

/-!
# Explorations that end

A node is expanded only if no expanded node with its key subsumes it.  So exploring with coverage
expands at most one node for every state that it can come to, and it ends if these are finitely
many: an expansion takes one of the states away from those that are still to be expanded, and
everything else takes a node off the waitlist.
-/

namespace AbstractionRefinement

open AbstractionRefinement.Computation

theorem Computation.Outcome.and {ω α : Type} {computation : Computation ω α} {state : ω}
    {returns returns' : α → ω → Prop} {fails fails' : EngineError → ω → Prop}
    (outcome : computation.Outcome state returns fails)
    (outcome' : computation.Outcome state returns' fails') :
    computation.Outcome state (fun result after => returns result after ∧ returns' result after)
      fun error after => fails error after ∧ fails' error after :=
  outcome_of_run (fun _ _ run => ⟨outcome.returned run, outcome'.returned run⟩)
    fun _ _ run => ⟨outcome.failed run, outcome'.failed run⟩

namespace ReachabilityGraph

variable {σ α : Type} {graph : ReachabilityGraph σ α} {id : Nat} {node : GraphNode σ α}

def expandedStates (graph : ReachabilityGraph σ α) : Set σ :=
  {state | ∃ id node, graph.node? id = some node ∧ node.expanded = true ∧
    node.coveredBy = [] ∧ node.target = false ∧ node.state = state}

theorem expandedStates_withCover (unexpanded : ∀ node, graph.node? id = some node →
    node.expanded = false) (coverers : List Nat) :
    graph.expandedStates ⊆ (graph.withCover id coverers).expandedStates := by
  rintro state ⟨other, last, found, expanded, uncovered, unmarked, rfl⟩
  have different : other ≠ id := by
    rintro rfl
    simp [unexpanded last found] at expanded
  refine ⟨other, { last with
    covers := last.covers ++ List.replicate (coverers.count other) id }, ?_, expanded, uncovered,
    unmarked, rfl⟩
  rw [node?_withCover, found, Option.map_some, if_neg different]

/-- An expansion adds the state of the expanded node. -/
theorem insert_expandedStates_subset (found : graph.node? id = some node)
    (isOpen : node.isIncomplete = true) (depth : Nat) (made : List (α × NodeData σ)) :
    insert node.state graph.expandedStates ⊆
      (graph.withExpansion id depth made).expandedStates := by
  have view := node?_withExpansion found depth made
  obtain ⟨unexpanded, unmarked, uncovered⟩ :
      node.expanded = false ∧ node.target = false ∧ node.coveredBy = [] := by
    simpa [GraphNode.isIncomplete, GraphNode.isCovered, and_assoc] using isOpen
  rintro state (rfl | ⟨other, last, foundLast, expanded, uncovered', unmarked', rfl⟩)
  · exact ⟨id, _, (view id).trans (if_pos rfl), rfl, uncovered, unmarked, rfl⟩
  · have different : other ≠ id := by
      rintro rfl
      obtain rfl := Option.some.inj (found.symm.trans foundLast)
      simp [unexpanded] at expanded
    refine ⟨other, last, ?_, expanded, uncovered', unmarked', rfl⟩
    rw [view, if_neg different, if_pos (node?_eq_some_lt foundLast), foundLast]

end ReachabilityGraph

namespace Explorer

open ReachabilityGraph

variable {ω σ α π : Type} {explorer : Explorer ω σ α π} {precision : π} {version : Nat}

/-- The states that exploring can come to. -/
inductive Attains (explorer : Explorer ω σ α π) (precision : π) : σ → Prop where
  | start {state : σ} (starts : explorer.Starts precision state)
      (satisfiable : explorer.analysis.isBottom state = false) : Attains explorer precision state
  | step {state next : σ} {action : α} (attains : Attains explorer precision state)
      (steps : explorer.Steps precision state action next)
      (satisfiable : explorer.analysis.isBottom next = false) : Attains explorer precision next

theorem Attains.satisfiable {state : σ} (attains : explorer.Attains precision state) :
    explorer.analysis.isBottom state = false := by
  cases attains with
  | start _ satisfiable => exact satisfiable
  | step _ _ satisfiable => exact satisfiable

/-- The nodes have states that exploring can come to, with the keys of these. -/
structure Explores (explorer : Explorer ω σ α π) (precision : π) (graph : ReachabilityGraph σ α) :
    Prop extends graph.Linked where
  attains {id : Nat} {node : GraphNode σ α} : graph.node? id = some node →
    explorer.Attains precision node.state
  key_eq {id : Nat} {node : GraphNode σ α} : graph.node? id = some node →
    node.key = explorer.projection node.state

section Explores

variable {graph after : ReachabilityGraph σ α}

theorem explores_empty : explorer.Explores precision .empty :=
  ⟨linked_empty, by simp, by simp⟩

/-- Nodes that are as before, up to their places, or new with an attained state. -/
theorem Explores.of_created (explores : explorer.Explores precision graph) (linked : after.Linked)
    (nodes : ∀ id other, after.node? id = some other →
      (explorer.Attains precision other.state ∧ other.key = explorer.projection other.state) ∨
        ∃ node, graph.node? id = some node ∧ other.state = node.state ∧ other.key = node.key) :
    explorer.Explores precision after := by
  refine ⟨linked, fun {id other} found => ?_, fun {id other} found => ?_⟩
  · rcases nodes id other found with ⟨attains, -⟩ | ⟨node, foundNode, same, -⟩
    · exact attains
    · exact same ▸ explores.attains foundNode
  · rcases nodes id other found with ⟨-, key_eq⟩ | ⟨node, foundNode, same, sameKey⟩
    · exact key_eq
    · rw [same, sameKey]
      exact explores.key_eq foundNode

/-- Exploring comes only to states that it can come to. -/
theorem keeps_explores : explorer.Keeps precision version
    fun graph : ReachabilityGraph σ α => explorer.Explores precision graph where
  numbered explores := fun _ _ => explores.id_eq
  addInitial {graph data} explores makes starts := by
    refine explores.of_created (explores.toLinked.addInitial _) fun id other found => ?_
    rw [node?_addInitial] at found
    split at found
    case isTrue =>
      obtain rfl := Option.some.inj found
      exact .inl ⟨.start starts makes.satisfiable, makes.key_eq⟩
    case isFalse => exact .inr ⟨other, found, rfl, rfl⟩
  initialized explores :=
    ⟨explores.toLinked.initializedAs true, explores.attains, explores.key_eq⟩
  withSuccessor {graph parent node action data} explores found _ makes steps := by
    refine explores.of_created (explores.toLinked.withSuccessor found _ _ _)
      fun id other foundOther => ?_
    rw [node?_withSuccessor found] at foundOther
    split at foundOther
    case isTrue isParent =>
      obtain rfl := Option.some.inj foundOther
      exact .inr ⟨node, isParent ▸ found, rfl, rfl⟩
    case isFalse =>
      split at foundOther
      case isTrue =>
        obtain rfl := Option.some.inj foundOther
        exact .inl ⟨.step (explores.attains found) steps makes.satisfiable, makes.key_eq⟩
      case isFalse => exact .inr ⟨other, foundOther, rfl, rfl⟩
  markExpanded {graph id node} explores found _ := by
    refine explores.of_created (explores.toLinked.markExpanded found) fun other last foundLast => ?_
    rw [node?_modifyNode] at foundLast
    split at foundLast
    case isTrue =>
      obtain ⟨before, foundBefore, rfl⟩ := Option.map_eq_some_iff.mp foundLast
      exact .inr ⟨before, foundBefore, rfl, rfl⟩
    case isFalse => exact .inr ⟨last, foundLast, rfl, rfl⟩
  withCover {graph id node coverers} explores _ _ _ chosen _ irreflexive := by
    refine explores.of_created (linked_withCover explores.toLinked chosen irreflexive)
      fun other last foundLast => ?_
    rw [node?_withCover] at foundLast
    obtain ⟨before, foundBefore, rfl⟩ := Option.map_eq_some_iff.mp foundLast
    exact .inr ⟨before, foundBefore, rfl, rfl⟩

end Explores

/-- A node without coverers has a state that was not expanded yet. -/
theorem not_mem_expandedStates {graph : ReachabilityGraph σ α} {id : Nat} {node : GraphNode σ α}
    (settled : graph.Settled) (explores : explorer.Explores precision graph)
    (reflexive : explorer.analysis.leq precision node.state node.state = true)
    (found : graph.node? id = some node) (unexpanded : node.expanded = false)
    (none : explorer.coverers? precision graph node = none) :
    node.state ∉ graph.expandedStates := by
  rintro ⟨other, last, foundLast, expanded, uncovered, unmarked, same⟩
  have single : explorer.singleCover? precision node.state ((graph.withKey node.key).filter
      fun candidate => candidate.id ≠ node.id && !candidate.isCovered && !candidate.target) =
        .none := by
    unfold coverers? at none
    dsimp only at none
    split at none
    · cases none
    · assumption
  have listed : last ∈ graph.withKey node.key := by
    have sameKey : last.key = node.key := by
      rw [explores.key_eq foundLast, explores.key_eq found, same]
    exact mem_withKey.mpr
      ⟨other, (settled.keyed node.key).mem_iff.mpr ⟨last, foundLast, sameKey⟩, foundLast⟩
  have different : last.id ≠ node.id := by
    rw [settled.id_eq foundLast, settled.id_eq found]
    rintro rfl
    obtain rfl := Option.some.inj (found.symm.trans foundLast)
    simp [unexpanded] at expanded
  have candidate : last ∈ (graph.withKey node.key).filter
      fun candidate => candidate.id ≠ node.id && !candidate.isCovered && !candidate.target :=
    List.mem_filter.mpr ⟨listed, by simp [different, GraphNode.isCovered, uncovered, unmarked]⟩
  have notCovered := List.find?_eq_none.mp (Option.map_eq_none_iff.mp single) last candidate
  rw [same] at notCovered
  exact notCovered reflexive

/-- Closing covers a node, or leaves everything as it was because nothing covers the node. -/
theorem close_covers {id : Nat} {node : GraphNode σ α} (covering : explorer.coverage ≠ .none)
    (exploration : ExplorationState ω σ α) (numbered : exploration.graph.Numbered)
    (found : exploration.graph.node? id = some node) :
    (explorer.close precision id).Ensures exploration fun closed after =>
      if closed then ∃ coverers, after.graph = exploration.graph.withCover id coverers
      else after = exploration ∧ explorer.coverers? precision exploration.graph node = none := by
  unfold close Ensures
  rw [if_neg covering]
  simp only [outcome_bind, outcome_get, outcome_onGraph, outcome_getNode]
  refine ⟨fun other foundOther => ?_, fun _ _ => trivial⟩
  obtain rfl := Option.some.inj (found.symm.trans foundOther)
  cases chosen : explorer.coverers? precision exploration.graph node with
  | none => exact ⟨rfl, rfl⟩
  | some coverers =>
      obtain ⟨others, mayCover, rfl, -⟩ := coverers?_eq_some chosen
      simp only [outcome_bind, outcome_onGraph, outcome_pure]
      refine outcome_cover found (List.forall_mem_map.mpr fun other member => ?_)
        (fun _ _ _ _ => ⟨_, rfl⟩) fun _ => trivial
      obtain ⟨position, foundOther⟩ := mem_live.mp (mayCover other member).live
      exact ⟨other, (numbered foundOther).symm ▸ foundOther⟩

/-- The given nodes are not expanded. -/
def Unexpanded (graph : ReachabilityGraph σ α) (ids : List Nat) : Prop :=
  ∀ id ∈ ids, ∀ node, graph.node? id = some node → node.expanded = false

theorem Unexpanded.withCover {graph : ReachabilityGraph σ α} {ids : List Nat}
    (unexpanded : Unexpanded graph ids) (covered : Nat) (coverers : List Nat) :
    Unexpanded (graph.withCover covered coverers) ids := by
  intro id member node found
  rw [node?_withCover] at found
  obtain ⟨before, foundBefore, rfl⟩ := Option.map_eq_some_iff.mp found
  exact unexpanded id member before foundBefore

theorem unexpanded_withExpansion {graph : ReachabilityGraph σ α} {id : Nat}
    {node : GraphNode σ α} (found : graph.node? id = some node) (depth : Nat)
    (made : List (α × NodeData σ)) :
    Unexpanded (graph.withExpansion id depth made)
      (List.range' graph.nodes.size made.length) := by
  intro new member last foundLast
  obtain ⟨newer, -⟩ := List.mem_range'_1.mp member
  rcases withExpansion_cases found foundLast with ⟨rfl, -⟩ | ⟨-, old⟩ | ⟨_, -, rfl⟩
  · exact absurd (node?_eq_some_lt found) (Nat.not_lt.mpr newer)
  · exact absurd (node?_eq_some_lt old) (Nat.not_lt.mpr newer)
  · rfl

/-- Putting new nodes on the waitlist makes it longer by at most their number, and no expanded
node is covered. -/
theorem enqueue_adds (covering : explorer.coverage ≠ .none) (new : List Nat)
    (list : Waitlist RandomStream)
    (exploration : ExplorationState ω σ α)
    (explores : explorer.Explores precision exploration.graph)
    (unexpanded : Unexpanded exploration.graph new) :
    (explorer.enqueue precision new list).Ensures exploration fun longer after =>
      longer.contents.length ≤ list.contents.length + new.length ∧
        exploration.graph.expandedStates ⊆ after.graph.expandedStates := by
  induction new generalizing list exploration with
  | nil => exact ⟨Nat.le_refl _, subset_rfl⟩
  | cons id new ih =>
      obtain ⟨isFirst, others⟩ := List.forall_mem_cons.mp unexpanded
      unfold enqueue Ensures
      simp only [outcome_bind, outcome_onGraph, outcome_getNode]
      refine ⟨fun node found => ?_, fun _ _ => trivial⟩
      split
      case isTrue =>
        refine Ensures.mono (ih list exploration explores others) ?_
        rintro longer after ⟨length, subset⟩
        exact ⟨by rw [List.length_cons]; omega, subset⟩
      case isFalse =>
        rw [outcome_bind]
        have keeps : explorer.Keeps precision 0 _ := keeps_explores
        refine ((keeps.outcome_close id exploration explores).and
          (close_covers covering exploration (fun _ _ => explores.id_eq) found)).mono ?_
            fun _ _ _ => trivial
        rintro closed middle ⟨⟨explores', -⟩, covers⟩
        cases closed with
        | true =>
            obtain ⟨coverers, graph_eq⟩ := covers
            rw [if_pos rfl]
            have others' : Unexpanded middle.graph new := by
              rw [graph_eq]
              exact Unexpanded.withCover others id coverers
            have subset := expandedStates_withCover isFirst coverers
            rw [← graph_eq] at subset
            refine Ensures.mono (ih list middle explores' others') ?_
            rintro longer after ⟨length, subset'⟩
            exact ⟨by rw [List.length_cons]; omega, subset.trans subset'⟩
        | false =>
            obtain ⟨rfl, -⟩ := covers
            rw [if_neg Bool.false_ne_true]
            refine Ensures.mono (ih (list.add id node.depth) middle explores others) ?_
            rintro longer after ⟨length, subset⟩
            rw [(list.contents_add id node.depth).length_eq, List.length_cons] at length
            exact ⟨by rw [List.length_cons]; omega, subset⟩

/-- Number of rounds that are left at most: waiting nodes are taken off the waitlist one by one,
and every state that is still to be expanded may put some more on it. -/
noncomputable def roundsLeft (states : Set σ) (degree : Nat) (graph : ReachabilityGraph σ α)
    (list : Waitlist RandomStream) : Nat :=
  list.contents.length + degree * (states \ graph.expandedStates).ncard

theorem ncard_diff_le {states : Set σ} (finite : states.Finite) {before after : Set σ}
    (subset : before ⊆ after) : (states \ after).ncard ≤ (states \ before).ncard :=
  Set.ncard_le_ncard (Set.sdiff_subset_sdiff_right subset) finite.sdiff

section Rounds

variable {states : Set σ} {degree : Nat} {graph after : ReachabilityGraph σ α}
  {list rest longer : Waitlist RandomStream}

theorem roundsLeft_drop (finite : states.Finite)
    (taken : list.contents.length = rest.contents.length + 1)
    (subset : graph.expandedStates ⊆ after.expandedStates) :
    roundsLeft states degree after rest < roundsLeft states degree graph list := by
  have fewer := Nat.mul_le_mul_left degree (ncard_diff_le finite subset)
  unfold roundsLeft
  omega

/-- A round that expands a node. -/
theorem roundsLeft_expand (finite : states.Finite) {state : σ} (isState : state ∈ states)
    (fresh : state ∉ graph.expandedStates)
    (taken : list.contents.length = rest.contents.length + 1)
    (added : longer.contents.length ≤ rest.contents.length + degree)
    (subset : insert state graph.expandedStates ⊆ after.expandedStates) :
    roundsLeft states degree after longer < roundsLeft states degree graph list := by
  have smaller : (states \ after.expandedStates).ncard + 1 ≤
      (states \ graph.expandedStates).ncard := by
    refine Nat.lt_of_le_of_lt (ncard_diff_le finite subset) ?_
    refine Set.ncard_lt_ncard ?_ finite.sdiff
    refine (Set.ssubset_iff_of_subset (Set.sdiff_subset_sdiff_right (Set.subset_insert ..))).mpr ?_
    exact ⟨state, ⟨isState, fresh⟩, fun both => both.2 (Set.mem_insert ..)⟩
  have fewer := Nat.mul_le_mul_left degree smaller
  rw [Nat.mul_add, Nat.mul_one] at fewer
  unfold roundsLeft
  omega

end Rounds

/-- A first check starts from the initial nodes, those that are targets excepted. -/
theorem roundsLeft_withInitials {states : Set σ} (finite : states.Finite) (degree : Nat)
    {made : List (NodeData σ)} {graph : ReachabilityGraph σ α}
    (start : graph = { empty.withInitials made with initialized := true }) :
    roundsLeft states degree graph (explorer.waitlist graph) ≤
      made.length + degree * states.ncard := by
  have live_eq : graph.live = (empty.withInitials made : ReachabilityGraph σ α).live := by
    rw [start]
    rfl
  have lengths := congrArg List.length (states_withInitials (α := α) empty made)
  rw [← live_eq] at lengths
  have waiting : (explorer.waitlist graph).contents.length ≤ made.length := by
    rw [(waitlist_contents _).length_eq, List.length_map, incompleteNodes]
    refine (List.length_filter_le ..).trans (Nat.le_of_eq ?_)
    simpa [live, empty] using lengths
  exact Nat.add_le_add waiting (Nat.mul_le_mul_left degree
    (Set.ncard_le_ncard Set.sdiff_subset finite))

namespace PureAnswers

variable (answers : explorer.PureAnswers) (covering : explorer.coverage ≠ .none)
  (reflexive : ∀ state, explorer.Attains precision state →
    explorer.analysis.leq precision state state = true)

section Rounds

variable {id : Nat} {node : GraphNode σ α} (exploration : ExplorationState ω σ α)
  (settled : exploration.graph.Settled) (explores : explorer.Explores precision exploration.graph)
  (found : exploration.graph.node? id = some node) (isOpen : node.isIncomplete = true)

include covering settled explores found isOpen

/-- Closing an open node does not fail.  If the node is not closed then nothing changes, and its
state was not expanded yet. -/
theorem outcome_close_open
    (reflexive : explorer.analysis.leq precision node.state node.state = true) :
    (explorer.close precision id).Outcome exploration
      (fun closed after => after.graph.Settled ∧ explorer.Explores precision after.graph ∧
        exploration.graph.expandedStates ⊆ after.graph.expandedStates ∧
          (closed = false → after = exploration ∧ node.state ∉ exploration.graph.expandedStates))
      fun _ _ => False := by
  obtain ⟨unexpanded, -, uncovered⟩ :
      node.expanded = false ∧ node.target = false ∧ node.coveredBy = [] := by
    simpa [GraphNode.isIncomplete, GraphNode.isCovered, and_assoc] using isOpen
  have childless : node.children = [] := settled.childless found isOpen
  have keeps : explorer.Keeps precision 0 _ := keeps_explores
  refine (((close_settled exploration settled ⟨node, found, uncovered, childless⟩).and
    (keeps.outcome_close id exploration explores)).and
      (close_covers covering exploration (fun _ _ => explores.id_eq) found)).mono ?_
        fun _ _ failed => failed.1.1
  rintro closed after ⟨⟨⟨advances, -⟩, ⟨explores', -⟩⟩, covers⟩
  refine ⟨advances.settled, explores', ?_⟩
  cases closed with
  | true =>
      obtain ⟨coverers, graph_eq⟩ := covers
      rw [graph_eq]
      refine ⟨expandedStates_withCover (fun other foundOther => ?_) coverers, Bool.noConfusion⟩
      exact Option.some.inj (found.symm.trans foundOther) ▸ unexpanded
  | false =>
      obtain ⟨rfl, none⟩ := covers
      exact ⟨subset_rfl, fun _ => ⟨rfl,
        not_mem_expandedStates settled explores reflexive found unexpanded none⟩⟩

/-- Expanding an open node puts at most as many nodes on the waitlist as it has successors. -/
theorem outcome_expand_open (list : Waitlist RandomStream) :
    (explorer.expand precision version id).Outcome exploration
      (fun new middle => (explorer.enqueue precision new list).Outcome middle
        (fun longer after => after.graph.Settled ∧ explorer.Explores precision after.graph ∧
          insert node.state exploration.graph.expandedStates ⊆ after.graph.expandedStates ∧
            longer.contents.length ≤ list.contents.length +
              ((answers.unfolding precision).successors node.state).length)
        fun _ _ => False)
      fun _ _ => False := by
  have keeps : explorer.Keeps precision version _ := keeps_explores
  refine ((answers.outcome_expand exploration found).and
    (keeps.outcome_expand exploration explores found isOpen)).mono ?_ fun _ _ failed => failed.1
  rintro new ⟨world, graph, status⟩ ⟨⟨made, steps, -, rfl, rfl⟩, explored⟩
  have settled' := settled.withExpansion found isOpen made
  refine (((enqueue_settled _ list ⟨world, _, status⟩ settled' List.nodup_range'
    (closable_withExpansion found _ made)).and
      (keeps.outcome_enqueue _ list ⟨world, _, status⟩ explored)).and
        (enqueue_adds covering _ list ⟨world, _, status⟩ explored
          (unexpanded_withExpansion found _ made))).mono ?_ fun _ _ failed => failed.1.1
  rintro longer after ⟨⟨advances, explores'⟩, added, subset⟩
  refine ⟨advances.settled, explores',
    (insert_expandedStates_subset found isOpen _ made).trans subset, ?_⟩
  have length := congrArg List.length steps
  rw [List.length_map] at length
  rwa [List.length_range', length] at added

end Rounds

variable (finite : {state | explorer.Attains precision state}.Finite) {degree : Nat}
  (branches : ∀ state, explorer.Attains precision state →
    ((answers.unfolding precision).successors state).length ≤ degree)
  {budget : Budget ω} (unlimited : ∀ world, budget.exceeded? world = none)

include answers covering reflexive finite branches unlimited

/-- Exploring ends if there is fuel for all rounds that are left. -/
theorem exploreWithin_ends (fuel : Nat) (list : Waitlist RandomStream)
    (exploration : ExplorationState ω σ α)
    (settled : exploration.graph.Settled) (explores : explorer.Explores precision exploration.graph)
    (enough : roundsLeft {state | explorer.Attains precision state} degree exploration.graph list <
      fuel) :
    (explorer.exploreWithin precision version budget fuel list).Outcome exploration
      (fun _ _ => True) fun _ _ => False := by
  induction fuel generalizing list exploration with
  | zero => exact absurd enough (Nat.not_lt_zero _)
  | succ fuel ih =>
      unfold exploreWithin
      simp only [outcome_bind, outcome_get]
      split
      case isTrue => trivial
      case isFalse =>
        split
        case h_1 => trivial
        case h_2 id rest removed =>
          have taken := (Waitlist.contents_remove removed).length_eq
          have goesOn {left : Nat} (less : left < roundsLeft {state |
              explorer.Attains precision state} degree exploration.graph list) : left < fuel :=
            less.trans_le (Nat.le_of_lt_succ enough)
          rw [outcome_bind]
          refine outcome_poll budget ?_ fun error exceeded => ?_
          · simp only [outcome_bind, outcome_get]
            split
            case isTrue =>
              exact ih rest exploration settled explores
                (goesOn (roundsLeft_drop finite taken subset_rfl))
            case isFalse open' =>
              obtain ⟨node, found, isOpen⟩ : ∃ node, exploration.graph.node? id = some node ∧
                  node.isIncomplete = true := by
                simpa [Option.any_eq_true] using open'
              have attains := explores.attains found
              rw [outcome_bind]
              refine (outcome_close_open covering exploration settled explores found isOpen
                (reflexive _ attains)).mono ?_ fun _ _ failed => failed
              rintro closed middle ⟨settled', explores', subset, unchanged⟩
              split
              case isTrue =>
                exact ih rest middle settled' explores'
                  (goesOn (roundsLeft_drop finite taken subset))
              case isFalse notClosed =>
                obtain ⟨rfl, fresh⟩ := unchanged (by simpa using notClosed)
                rw [outcome_bind]
                refine (answers.outcome_expand_open covering middle settled explores found isOpen
                  rest).mono ?_ fun _ _ failed => failed
                intro new expanded enqueues
                rw [outcome_bind]
                refine enqueues.mono ?_ fun _ _ failed => failed
                rintro longer last ⟨settled, explores, subset, added⟩
                have added := added.trans (Nat.add_le_add_left (branches _ attains) _)
                exact ih longer last settled explores
                  (goesOn (roundsLeft_expand finite attains fresh taken added subset))
          · rw [unlimited] at exceeded
            cases exceeded

/-- A first check ends if there is fuel for the initial states and for the successors of all
states that exploring can come to. -/
theorem check_ends (fuel : Nat) (world : ω) (status : ExplorationStatus)
    (enough : (answers.unfolding precision).roots.length +
      degree * {state | explorer.Attains precision state}.ncard < fuel) :
    ∃ found after, explorer.check fuel precision version budget ⟨world, .empty, status⟩ =
      (.ok found, after) := by
  have keeps : explorer.Keeps precision version _ := keeps_explores
  have outcome : (explorer.check fuel precision version budget).Outcome ⟨world, .empty, status⟩
      (fun _ _ => True) fun _ _ => False := by
    refine Explorer.outcome_check (fun _ _ => True) (fun _ _ => False) (fun _ => ?_)
      fun initialized => by cases initialized
    refine ((answers.outcome_createInitial ⟨world, .empty, .exploring⟩).and
      (keeps.outcome_createInitial ⟨world, .empty, .exploring⟩ explores_empty)).mono ?_
        fun _ _ failed => failed.1
    rintro _ ⟨world, graph, status⟩ ⟨⟨made, states, -, rfl⟩, explores⟩
    refine answers.exploreWithin_ends covering reflexive finite branches unlimited fuel _
      ⟨world, _, status⟩ (settled_empty.withInitials made) explores ?_
    have roots := congrArg List.length states
    rw [List.length_map] at roots
    refine (roundsLeft_withInitials finite degree rfl).trans_lt ?_
    rwa [roots]
  rcases run : explorer.check fuel precision version budget ⟨world, .empty, status⟩ with
    ⟨_ | found, after⟩
  · exact (outcome.failed run).elim
  · exact ⟨found, after, rfl⟩

end PureAnswers

end Explorer

end AbstractionRefinement
