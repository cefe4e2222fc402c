import AbstractionRefinement.Proofs.IfThenElseTermination

/-!
# Reached managers

A manager is reached from an empty one by variables, nodes, cubes, if-then-else calls
and quantifications over edges that it owns.  While at most 32767 nodes are allocated,
a reached manager is canonical: edges are equal exactly if their functions are.  Each
operation then denotes what it should unless the manager is exhausted, except for the
if-then-else calls that overlap, and leaves the functions of earlier edges alone.
-/

namespace AbstractionRefinement

namespace DiagramManager

variable {manager : DiagramManager} {bound : Nat}

theorem foldl_literals_keeps (literals : List Int) (closed : manager.Closed) {current : Edge}
    (owns : manager.Owns current) (nonzero : ∀ literal ∈ literals, literal ≠ 0) :
    manager.Keeps
      (literals.foldl
        (fun (current, manager) (literal : Int) =>
          if literal < 0 then makeNode literal.natAbs current .zero manager
          else makeNode literal.natAbs .zero current manager)
        (current, manager)) := by
  induction literals generalizing manager current with
  | nil => exact ⟨closed, .refl manager, owns⟩
  | cons literal literals ih =>
      have level_pos : 1 ≤ literal.natAbs :=
        Int.natAbs_pos.mpr (nonzero literal List.mem_cons_self)
      have step : manager.Keeps
          (if literal < 0 then makeNode literal.natAbs current .zero manager
            else makeNode literal.natAbs .zero current manager) := by
        split
        · exact makeNode_keeps closed level_pos owns closed.owns_zero
        · exact makeNode_keeps closed level_pos closed.owns_zero owns
      rw [List.foldl_cons]
      exact step.trans (ih step.closed step.owns fun other member =>
        nonzero other (List.mem_cons_of_mem _ member))

/-- Quantification keeps a manager closed while what is remembered is owned. -/
theorem quantifyKnowing_keeps {quantified : Nat → Bool} (fuel : Nat) {edge : Edge}
    {known : Std.TreeMap Edge Edge} (closed : manager.Closed) (owns : manager.Owns edge)
    (remembers : ∀ (other result : Edge), known[other]? = some result → manager.Owns result) :
    manager.Keeps ((quantifyKnowing quantified fuel edge known manager).1.1,
        (quantifyKnowing quantified fuel edge known manager).2) ∧
      ∀ other result : Edge,
        (quantifyKnowing quantified fuel edge known manager).1.2[other]? = some result →
          (quantifyKnowing quantified fuel edge known manager).2.Owns result := by
  induction fuel generalizing edge known manager with
  | zero => exact ⟨⟨closed, .refl manager, owns⟩, remembers⟩
  | succ fuel ih =>
      rw [quantifyKnowing_succ]
      by_cases terminal : edge.isTerminal
      · rw [if_pos terminal]
        exact ⟨⟨closed, .refl manager, owns⟩, remembers⟩
      · rw [if_neg terminal]
        have inner : edge.index ≠ 1 := fun is => terminal ((Edge.isTerminal_iff edge).mpr is)
        cases found : known[edge]? with
        | some result => exact ⟨⟨closed, .refl manager, remembers edge result found⟩, remembers⟩
        | none =>
            have level_pos := (closed.levelOf_pos owns).mpr inner
            have ownsHigh := closed.owns_highOf owns inner
            have lowOutcome := ih closed (closed.owns_lowOf owns inner) remembers
            simp only [quantifyChildren]
            generalize quantifyKnowing quantified fuel (manager.lowOf edge) known manager = low
              at lowOutcome
            obtain ⟨keepsLow, remembersLow⟩ := lowOutcome
            have highOutcome := ih keepsLow.closed (keepsLow.grown.owns ownsHigh) remembersLow
            generalize quantifyKnowing quantified fuel (manager.highOf edge) low.1.2 low.2 = high
              at highOutcome
            obtain ⟨keepsHigh, remembersHigh⟩ := highOutcome
            have ownsLow := keepsHigh.grown.owns keepsLow.owns
            have last : high.2.Keeps
                (if quantified (manager.levelOf edge) then disj low.1.1 high.1.1 high.2
                  else makeNode (manager.levelOf edge) low.1.1 high.1.1 high.2) := by
              split
              · exact (iteRun_iteWithin keepsHigh.closed ownsLow keepsHigh.closed.owns_one
                  keepsHigh.owns (fueled_ite ..)).1
              · exact makeNode_keeps keepsHigh.closed level_pos ownsLow keepsHigh.owns
            refine ⟨keepsLow.trans (keepsHigh.trans last), fun other result found => ?_⟩
            rw [Std.TreeMap.getElem?_insert] at found
            split at found
            · cases found
              exact last.owns
            · exact last.grown.owns (remembersHigh other result found)

theorem quantify_keeps (quantified : Nat → Bool) {edge : Edge} (closed : manager.Closed)
    (owns : manager.Owns edge) : manager.Keeps (quantify quantified edge manager) := by
  have nothing (other result : Edge) (found : (∅ : Std.TreeMap Edge Edge)[other]? = some result) :
      manager.Owns result := by
    rw [Std.TreeMap.getElem?_emptyc] at found
    cases found
  have outcome := @quantifyKnowing_keeps manager quantified (edge.index + 1) edge ∅ closed owns
    nothing
  exact outcome.1

/-- The value of an edge depends on the nodes only. -/
theorem value_eq_of_nodes_eq {first second : DiagramManager} (same : first.nodes = second.nodes)
    (assignment : Nat → Bool) (edge : Edge) :
    first.value assignment edge = second.value assignment edge := by
  have sameNode (index : Nat) : first.nodeAt index = second.nodeAt index := by
    unfold nodeAt
    rw [same]
  have sameValue (index : Nat) :
      first.nodeValue assignment index = second.nodeValue assignment index := by
    induction index using Nat.strongRecOn with
    | ind index ih =>
        rw [nodeValue, nodeValue]
        simp only [sameNode]
        generalize (if assignment (second.nodeAt index).level then (second.nodeAt index).high
          else (second.nodeAt index).low) = child
        by_cases smaller : child.index < index
        · rw [ih _ smaller]
        · simp only [smaller, if_false]
  unfold value
  rw [sameValue]

theorem value_capped (budget : Nat) (manager : DiagramManager) (assignment : Nat → Bool)
    (edge : Edge) : (capped budget manager).value assignment edge =
      manager.value assignment edge :=
  value_eq_of_nodes_eq (by rfl) assignment edge

/-- Whether a call overlaps depends on the nodes only. -/
theorem overlaps_capped {budget : Nat} {f g h : Edge} :
    (capped budget manager).Overlaps f g h ↔ manager.Overlaps f g h := by
  constructor
  · intro overlaps
    induction overlaps with
    | reached inner => exact .reached inner
    | again step _ ih => exact .again step ih
    | low step normal _ ih => exact .low step normal ih
    | high step normal _ ih => exact .high step normal ih
  · intro overlaps
    induction overlaps with
    | reached inner => exact .reached inner
    | again step _ ih => exact .again step ih
    | low step normal _ ih => exact .low step normal ih
    | high step normal _ ih => exact .high step normal ih

/-- An operation of a manager that hands out an edge. -/
inductive Operation where
  | var (level : Nat)
  | node (level : Nat) (low high : Edge)
  | cube (literals : List Int)
  | ite (f g h : Edge)
  | quantify (quantified : Nat → Bool) (edge : Edge)

namespace Operation

/-- Perform an operation; a variable numbered zero is refused. -/
def run? : Operation → DiagramManager → Option (Edge × DiagramManager)
  | var level, manager => makeNode? level .zero .one manager
  | node level low high, manager => makeNode? level low high manager
  | cube literals, manager => cube? literals manager
  | ite f g h, manager => some (DiagramManager.ite f g h manager)
  | quantify quantified edge, manager => some (DiagramManager.quantify quantified edge manager)

def perform : Operation → DiagramManager → Edge × DiagramManager
  | var level => makeVariable level
  | node level low high => makeNode level low high
  | cube literals => cubeOfDescending (descendingLiterals literals)
  | ite f g h => DiagramManager.ite f g h
  | quantify quantified edge => DiagramManager.quantify quantified edge

/-- The literals of a cube have different variables.  The least 32-bit integer, whose
absolute value is not representable, only stands alone. -/
def SortableLiterals (literals : List Int) : Prop :=
  (∀ literal ∈ literals, literal ≠ 0 ∧ minInt32 ≤ literal ∧ literal ≤ maxInt32) ∧
    (literals.map Int.natAbs).Nodup ∧ (minInt32 ∈ literals → literals = [minInt32])

/-- The operands are edges of the manager, the variable of a node is smaller than those of
its children, and the literals of a cube are sorted by their variables. -/
def Legal (manager : DiagramManager) : Operation → Prop
  | var level => 1 ≤ level
  | node level low high => 1 ≤ level ∧ manager.Owns low ∧ manager.Owns high ∧
      manager.Below level low ∧ manager.Below level high
  | cube literals => SortableLiterals literals
  | ite f g h => manager.Owns f ∧ manager.Owns g ∧ manager.Owns h
  | quantify _ edge => manager.Owns edge

/-- The edge has the function that the operation should give it.  An if-then-else call
gives the wrong function exactly if it overlaps. -/
def Denotes (manager : DiagramManager) (edge : Edge) : Operation → Prop
  | var level => ∀ assignment, manager.value assignment edge = assignment level
  | node level low high => ∀ assignment, manager.value assignment edge =
      if assignment level then manager.value assignment high else manager.value assignment low
  | cube literals => ∀ assignment, manager.value assignment edge =
      literals.all (LiteralHolds assignment)
  | ite f g h => (∀ assignment, manager.value assignment edge =
      if manager.value assignment f then manager.value assignment g
        else manager.value assignment h) ↔ ¬ manager.Overlaps f g h
  | quantify quantified operand => ∀ assignment, manager.value assignment edge = true ↔
      ∃ assignment', AgreeOutside quantified assignment assignment' ∧
        manager.value assignment' operand = true

variable {operation : Operation}

theorem denotes_capped {budget : Nat} {edge : Edge} :
    operation.Denotes (capped budget manager) edge ↔ operation.Denotes manager edge := by
  cases operation <;> simp only [Denotes, value_capped, overlaps_capped]

theorem Legal.run?_eq (legal : operation.Legal manager) :
    operation.run? manager = some (operation.perform manager) := by
  cases operation with
  | var level => exact if_neg (Nat.pos_iff_ne_zero.mp legal)
  | node level low high => exact if_neg (Nat.pos_iff_ne_zero.mp legal.1)
  | cube literals =>
      refine if_neg ?_
      rw [List.contains_iff_mem]
      exact fun member => (legal.1 0 member).1 rfl
  | ite f g h => rfl
  | quantify quantified edge => rfl

theorem budgeted_perform (operation : Operation) : Budgeted operation.perform := by
  cases operation with
  | var level => exact budgeted_makeVariable level
  | node level low high => exact budgeted_makeNode level low high
  | cube literals => exact budgeted_cubeOfDescending _
  | ite f g h => exact budgeted_ite f g h
  | quantify quantified edge => exact budgeted_quantify quantified edge

theorem mem_descendingLiterals {literals : List Int} {literal : Int} :
    literal ∈ descendingLiterals literals ↔ literal ∈ literals := by
  simp [descendingLiterals]

/-- The variables of different literals decrease. -/
theorem pairwise_descendingLiterals {literals : List Int} (sortable : SortableLiterals literals) :
    (descendingLiterals literals).Pairwise fun first second => second.natAbs < first.natAbs := by
  obtain ⟨fits, different, alone⟩ := sortable
  by_cases least : minInt32 ∈ literals
  · rw [alone least, descendingLiterals, List.mergeSort_singleton]
    exact List.pairwise_singleton _ _
  let le (first second : Int) : Bool := wrappedAbs first ≤ wrappedAbs second
  have ordered : (literals.mergeSort le).Pairwise fun first second => le first second := by
    apply List.pairwise_mergeSort
    · intro first second third
      simp only [le, decide_eq_true_eq]
      exact Int.le_trans
    · intro first second
      simp only [le, Bool.or_eq_true, decide_eq_true_eq]
      exact Int.le_total ..
  have apart : (literals.mergeSort le).Pairwise fun first second =>
      first.natAbs ≠ second.natAbs := by
    rw [← List.pairwise_map]
    exact ((List.mergeSort_perm literals le).map Int.natAbs).nodup_iff.mpr different
  have wrapped {literal : Int} (member : literal ∈ literals.mergeSort le) :
      wrappedAbs literal = literal.natAbs := by
    rw [List.mem_mergeSort] at member
    obtain ⟨-, lower, upper⟩ := fits literal member
    exact wrappedAbs_of_fits (lt_of_le_of_ne lower fun same => least (same ▸ member)) upper
  unfold descendingLiterals
  rw [List.pairwise_reverse]
  refine (ordered.and apart).imp_of_mem fun {first second} isFirst isSecond both => ?_
  simp only [le, decide_eq_true_eq, wrapped isFirst, wrapped isSecond] at both
  omega

theorem Legal.keeps (legal : operation.Legal manager) (closed : manager.Closed) :
    manager.Keeps (operation.perform manager) := by
  cases operation with
  | var level => exact makeNode_keeps closed legal closed.owns_zero closed.owns_one
  | node level low high => exact makeNode_keeps closed legal.1 legal.2.1 legal.2.2.1
  | cube literals =>
      exact foldl_literals_keeps _ closed closed.owns_one fun literal member =>
        (legal.1 literal (mem_descendingLiterals.mp member)).1
  | ite f g h =>
      exact (iteRun_iteWithin closed legal.1 legal.2.1 legal.2.2 (fueled_ite f g h)).1
  | quantify quantified edge => exact quantify_keeps quantified closed legal

/-- A legal operation on a well-formed manager hands out an edge with the right function,
for a large enough bound on the variables. -/
theorem Legal.delivers (legal : operation.Legal manager) (wellFormed : manager.WellFormed bound)
    (distinct : DistinctKeys manager.nodeLimit) :
    ∃ bound', manager.Delivers bound' (operation.perform manager) fun after edge =>
      operation.Denotes after edge := by
  have larger (level : Nat) : manager.WellFormed (max bound (level + 1)) :=
    wellFormed.mono (Nat.le_max_left ..)
  cases operation with
  | var level => exact ⟨_, makeVariable_delivers (larger level) legal (by omega)⟩
  | node level low high =>
      obtain ⟨level_pos, ownsLow, ownsHigh, lowBelow, highBelow⟩ := legal
      refine ⟨_, (makeNode_delivers (larger level) level_pos (by omega) ownsLow ownsHigh
        (fun _ => lowBelow) fun _ => highBelow).mono ?_⟩
      exact fun _ _ _ selects => selects.value_eq
  | cube literals =>
      refine ⟨_, (cubeOfDescending_delivers (larger (literals.map Int.natAbs).sum)
        (pairwise_descendingLiterals legal) fun literal member => ?_).mono ?_⟩
      · have inside := mem_descendingLiterals.mp member
        have le := List.le_sum_of_mem (List.mem_map_of_mem inside : literal.natAbs ∈ _)
        exact ⟨Int.natAbs_pos.mpr (legal.1 literal inside).1, by omega⟩
      · intro _ _ _ valueEq assignment
        rw [valueEq, Bool.eq_iff_iff, List.all_eq_true, List.all_eq_true]
        simp only [mem_descendingLiterals]
  | ite f g h =>
      exact ⟨bound, (ite_delivers wellFormed distinct legal.1 legal.2.1 legal.2.2).mono
        fun _ _ _ chooses => chooses.value_iff⟩
  | quantify quantified edge =>
      exact ⟨bound, (quantify_delivers wellFormed distinct legal quantified).mono
        fun _ _ _ quantifies => quantifies.value_iff⟩

end Operation

/-- The manager is reached from an empty one by legal operations. -/
inductive Reached (cacheBits nodeLimit : Nat) : DiagramManager → Prop
  | start : Reached cacheBits nodeLimit (new cacheBits nodeLimit)
  | step {manager after : DiagramManager} {operation : Operation} {edge : Edge} :
      Reached cacheBits nodeLimit manager → operation.Legal manager →
      operation.run? manager = some (edge, after) → Reached cacheBits nodeLimit after

/-- No node is stored twice or represents a function that another one represents. -/
structure Canonical (manager : DiagramManager) : Prop where
  index_eq {first second : Nat} : 2 ≤ first → first < manager.nodes.size → 2 ≤ second →
    second < manager.nodes.size → manager.nodeAt first = manager.nodeAt second → first = second
  reduced {index : Nat} : 2 ≤ index → index < manager.nodes.size →
    (manager.nodeAt index).high.isNegated = false ∧
      (manager.nodeAt index).low ≠ (manager.nodeAt index).high ∧
      manager.Below (manager.nodeAt index).level (manager.nodeAt index).low ∧
      manager.Below (manager.nodeAt index).level (manager.nodeAt index).high
  eq_iff {first second : Edge} : manager.Owns first → manager.Owns second →
    (first = second ↔ ∀ assignment, manager.value assignment first =
      manager.value assignment second)

theorem Ordered.canonical (ordered : manager.Ordered bound) : manager.Canonical where
  index_eq le lt le' lt' same := by
    have found := (ordered.unique_iff _ _).mpr ⟨le, lt, same⟩
    have found' := (ordered.unique_iff _ _).mpr ⟨le', lt', rfl⟩
    rw [found] at found'
    exact Option.some.inj found'
  reduced le lt :=
    have placed := ordered.placed le lt
    ⟨placed.high_plain, placed.differ, placed.low_below, placed.high_below⟩
  eq_iff owns owns' := by
    constructor
    · rintro rfl _
      rfl
    · exact ordered.eq_of_value_eq owns owns'

theorem canonical_capped {budget : Nat} (canonical : (capped budget manager).Canonical) :
    manager.Canonical where
  index_eq := canonical.index_eq
  reduced := canonical.reduced
  eq_iff owns owns' := by
    rw [canonical.eq_iff owns owns']
    simp only [value_capped]

def keyBudget : Nat := 32768

theorem distinctKeys_capped (manager : DiagramManager) :
    DistinctKeys (capped keyBudget manager).nodeLimit :=
  distinctKeys_of_le (Nat.min_le_right _ _)

namespace Reached

variable {cacheBits nodeLimit : Nat}

theorem closed (reached : Reached cacheBits nodeLimit manager) : manager.Closed := by
  induction reached with
  | start => exact closed_new cacheBits nodeLimit
  | step _ legal run ih =>
      rw [legal.run?_eq, Option.some.injEq] at run
      have keeps := legal.keeps ih
      rw [run] at keeps
      exact keeps.closed

theorem early (reached : Reached cacheBits nodeLimit manager) :
    manager.deadlinePassed = false := by
  induction reached with
  | start => rfl
  | @step manager _ operation _ _ legal run ih =>
      rw [legal.run?_eq, Option.some.injEq] at run
      have kept := operation.budgeted_perform.late_eq manager
      rw [run] at kept
      exact kept.trans ih

/-- A legal operation on a small manager that stays small and notices no deadline is one on
a well-formed manager with a lowered node limit. -/
theorem delivers_capped {operation : Operation}
    (inTime : manager.deadlinePassed = false ∨
      (operation.perform manager).2.exhaustion.isSome = false)
    (wellFormed : (capped keyBudget manager).WellFormed bound)
    (legal : operation.Legal manager) (few : (operation.perform manager).2.nodes.size ≤ keyBudget) :
    ∃ bound', (capped keyBudget manager).Delivers bound'
      ((operation.perform manager).1, capped keyBudget (operation.perform manager).2)
      fun after edge => operation.Denotes after edge := by
  have legal' : operation.Legal (capped keyBudget manager) := by
    cases operation <;> exact legal
  have same : operation.perform (capped keyBudget manager) =
      ((operation.perform manager).1, capped keyBudget (operation.perform manager).2) :=
    operation.budgeted_perform.steady inTime few
  rw [← same]
  exact legal'.delivers wellFormed (distinctKeys_capped manager)

/-- A small reached manager is well formed with a lowered node limit. -/
theorem wellFormed (reached : Reached cacheBits nodeLimit manager)
    (few : manager.nodes.size ≤ keyBudget) :
    ∃ bound, (capped keyBudget manager).WellFormed bound := by
  induction reached with
  | start => exact ⟨1, wellFormed_new 1 cacheBits (min nodeLimit keyBudget)⟩
  | @step manager after operation edge reached legal run ih =>
      rw [legal.run?_eq, Option.some.injEq] at run
      have smaller := operation.budgeted_perform.nodes_le manager
      rw [run] at smaller
      obtain ⟨bound, wellFormed⟩ := ih (Nat.le_trans smaller few)
      obtain ⟨bound', delivers⟩ := delivers_capped (.inl reached.early) wellFormed legal
        (by rw [run]; exact few)
      rw [run] at delivers
      exact ⟨bound', delivers.wellFormed⟩

/-- The outcome of a legal operation on a reached manager: it is not refused, and earlier
edges keep their functions.  While at most 32767 nodes are allocated, the edge has the right
function unless the manager is exhausted. -/
structure Served (manager : DiagramManager) (operation : Operation)
    (outcome : Edge × DiagramManager) : Prop where
  performed : operation.run? manager = some outcome
  owns : outcome.2.Owns outcome.1
  denotes : outcome.2.size ≤ 32767 → outcome.2.exhaustion = none →
    operation.Denotes outcome.2 outcome.1
  value_eq {earlier : Edge} : manager.Owns earlier → ∀ assignment,
    outcome.2.value assignment earlier = manager.value assignment earlier

theorem served (reached : Reached cacheBits nodeLimit manager) (few : manager.size ≤ 32767)
    {operation : Operation} (legal : operation.Legal manager) :
    Served manager operation (operation.perform manager) := by
  have terminals := reached.closed.terminals
  obtain ⟨bound, wellFormed⟩ := reached.wellFormed (by unfold size at few; unfold keyBudget; omega)
  have keeps := legal.keeps reached.closed
  refine ⟨legal.run?_eq, keeps.owns, fun few' unexhausted => ?_, fun owns assignment => ?_⟩
  · obtain ⟨bound', delivers⟩ := delivers_capped (.inl reached.early) wellFormed legal
      (by unfold size at few'; unfold keyBudget; omega)
    exact Operation.denotes_capped.mp (delivers.meaning unexhausted)
  · -- The grown manager with the lowered node limit, which does not matter for values.
    have grown : (capped keyBudget manager).Extends
        { (operation.perform manager).2 with nodeLimit := (capped keyBudget manager).nodeLimit } :=
      ⟨keeps.grown.size_le, keeps.grown.nodeAt_eq, rfl, keeps.grown.unexhausted⟩
    rw [← value_capped keyBudget manager, ← grown.value_eq wellFormed.toOrdered owns]
    exact value_eq_of_nodes_eq (by rfl) assignment _

/-- A reached manager with at most 32767 nodes is canonical and serves every legal
operation, and the recursion of an if-then-else call ends.  No call of a connective
overlaps. -/
theorem canonical_and_served (reached : Reached cacheBits nodeLimit manager)
    (few : manager.size ≤ 32767) :
    manager.Canonical ∧
      (∀ operation : Operation, operation.Legal manager →
        ∃ outcome, Served manager operation outcome) ∧
      (∀ f g h : Edge, manager.Owns f → manager.Owns g → manager.Owns h →
        ∀ outcome, IteRun manager f g h outcome ↔ ite f g h manager = outcome) ∧
      ∀ f g h : Edge, Connective g h → ¬ manager.Overlaps f g h := by
  have terminals := reached.closed.terminals
  obtain ⟨bound, wellFormed⟩ := reached.wellFormed (by unfold size at few; unfold keyBudget; omega)
  refine ⟨canonical_capped wellFormed.toOrdered.canonical, fun operation legal => ?_, ?_, ?_⟩
  · exact ⟨_, reached.served few legal⟩
  · exact fun f g h ownsF ownsG ownsH outcome => reached.closed.iteRun_iff ownsF ownsG ownsH
  · exact fun f g h connective => connective.not_overlaps

def firstVariable : Edge × DiagramManager :=
  makeVariable 1 (new 4 100)

theorem firstVariable_delivers : (new 4 100).Delivers 2 firstVariable fun after edge =>
    ∀ assignment, after.value assignment edge = assignment 1 :=
  makeVariable_delivers (wellFormed_new 2 4 100) (Nat.le_refl 1) (by decide)

theorem reached_firstVariable : Reached 4 100 firstVariable.2 :=
  have legal : Operation.Legal (new 4 100) (.var 1) := Nat.le_refl 1
  .step .start legal legal.run?_eq

def secondVariable : Edge × DiagramManager :=
  makeVariable 2 firstVariable.2

theorem reached_secondVariable : Reached 4 100 secondVariable.2 :=
  have legal : Operation.Legal firstVariable.2 (.var 2) := by
    show 1 ≤ 2
    decide
  reached_firstVariable.step legal legal.run?_eq

/-- With two variables allocated, their conjunction is served. -/
theorem secondVariable_served : secondVariable.2.size = 3 ∧ secondVariable.2.Canonical ∧
    ∃ outcome, Served secondVariable.2
      (.ite firstVariable.1 secondVariable.1 .zero) outcome := by
  have few : secondVariable.2.size = 3 := by decide
  have legal : Operation.Legal secondVariable.2
      (.ite firstVariable.1 secondVariable.1 .zero) := by
    unfold Operation.Legal Owns
    decide
  have correct := canonical_and_served reached_secondVariable (by rw [few]; decide)
  exact ⟨few, correct.1, correct.2.1 _ legal⟩

theorem ite_firstVariable : ite firstVariable.1 .zero firstVariable.1 firstVariable.2 =
    firstVariable := by
  have inner : firstVariable.1.index ≠ 1 := by decide
  rw [ite, iteWithin, done_of_reached inner]

/-- So not every if-then-else call chooses between its branches. -/
theorem ite_chooses_wrongly : ¬ ∀ (cacheBits nodeLimit : Nat) (manager : DiagramManager),
    Reached cacheBits nodeLimit manager → manager.size ≤ 32767 → ∀ f g h : Edge,
      manager.Owns f → manager.Owns g → manager.Owns h →
      (ite f g h manager).2.size ≤ 32767 → (ite f g h manager).2.exhaustion = none →
      ∀ assignment, (ite f g h manager).2.value assignment (ite f g h manager).1 =
        if manager.value assignment f then manager.value assignment g
          else manager.value assignment h := by
  intro claimed
  have delivers := firstVariable_delivers
  have chosen := claimed 4 100 firstVariable.2 reached_firstVariable (by decide) firstVariable.1
    .zero firstVariable.1 delivers.owns (owns_zero delivers.wellFormed.toOrdered) delivers.owns
  rw [ite_firstVariable] at chosen
  have differs := chosen (by decide) (by decide) fun _ => true
  rw [delivers.meaning (by decide)] at differs
  simp at differs

end Reached

end DiagramManager

end AbstractionRefinement
