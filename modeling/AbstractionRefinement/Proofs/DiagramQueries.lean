import AbstractionRefinement.Proofs.BuiltManagers
import AbstractionRefinement.Proofs.DiagramCounts
import AbstractionRefinement.Proofs.DiagramPaths
import AbstractionRefinement.Proofs.DiagramSupport

/-!
# Queries of decision diagrams

The queries read the function of an edge off its diagram: whether it is satisfiable, its
paths to true as a disjunction of disjoint cubes, the number of its satisfying assignments,
and the variables it depends on.  They are exact in every small manager that is not
exhausted, with one exception.  Cubes are signed 32-bit literals, so they do not describe
functions of variables from `2 ^ 31` on.
-/

namespace AbstractionRefinement

namespace DiagramManager

variable {manager : DiagramManager} {bound : Nat} {edge : Edge}

/-- The cubes describe the function: no assignment satisfies two of them, their literals are
in the order of the variables, and the function is their disjunction. -/
structure DisjointCubes (manager : DiagramManager) (edge : Edge) (cubes : List (List Int)) :
    Prop where
  disjoint : cubes.Pairwise fun first second => ∀ assignment,
    ¬ (first.all (LiteralHolds assignment) ∧ second.all (LiteralHolds assignment))
  increasing {cube : List Int} : cube ∈ cubes →
    cube.Pairwise fun first second => first.natAbs < second.natAbs
  value_eq (assignment : Nat → Bool) : manager.value assignment edge =
    cubes.any fun cube => cube.all (LiteralHolds assignment)

section Paths

variable (ordered : manager.Ordered bound) (owns : manager.Owns edge)
include ordered owns

theorem Ordered.paths?_eq_none_iff (limit : Nat) : manager.paths? edge limit = none ↔
    limit < {path | manager.LeadsToOne edge path}.ncard := by
  rw [paths?_eq, (ordered.ncard_leadsToOne owns).2]
  simp

/-- The enumerated cubes are those of the paths to true. -/
theorem Ordered.disjointCubes_of_paths? (small : manager.HasLiterals edge) {limit : Nat}
    {cubes : List (List Int)} (found : manager.paths? edge limit = some cubes) :
    manager.DisjointCubes edge cubes := by
  rw [paths?_eq] at found
  obtain ⟨-, made⟩ := Option.ite_none_right_eq_some.mp found
  cases made
  have mem_iff {path : List (Nat × Bool)} :
      path ∈ manager.pathList (edge.index + 1) edge ↔ manager.LeadsToOne edge path :=
    ordered.mem_pathList _ owns (Nat.le_succ _)
  refine ⟨?_, ?_, ?_⟩
  · rw [List.pairwise_map]
    refine (nodup_pathList manager _ edge).imp_of_mem ?_
    rintro first second inside inside' differ assignment ⟨holds, holds'⟩
    have leads := mem_iff.mp inside
    have leads' := mem_iff.mp inside'
    exact differ (leads.unique leads' ((leads.literals_hold_iff ordered owns small).mp holds)
      ((leads'.literals_hold_iff ordered owns small).mp holds'))
  · intro cube member
    obtain ⟨path, inside, rfl⟩ := List.mem_map.mp member
    exact (mem_iff.mp inside).literals_increase ordered owns small
  · intro assignment
    rw [Bool.eq_iff_iff, List.any_map, List.any_eq_true]
    constructor
    · intro holds
      obtain ⟨path, leads, follows⟩ := ordered.exists_leadsToOne owns holds
      exact ⟨path, mem_iff.mpr leads, (leads.literals_hold_iff ordered owns small).mpr follows⟩
    · rintro ⟨path, inside, holds⟩
      have leads := mem_iff.mp inside
      exact leads.value_eq ordered owns ((leads.literals_hold_iff ordered owns small).mp holds)

theorem Ordered.onePath?_eq_none_iff :
    manager.onePath? edge = none ↔ ∀ assignment, manager.value assignment edge = false := by
  unfold onePath?
  constructor
  · intro isNone assignment
    split at isNone
    case isTrue zero => rw [of_decide_eq_true zero, value_zero]
    case isFalse => cases isNone
  · intro unsatisfiable
    have zero : edge = .zero := ordered.eq_of_value_eq owns (owns_zero ordered) fun assignment => by
      rw [unsatisfiable, value_zero]
    rw [if_pos (by simpa [Edge.isZero] using zero)]

theorem Ordered.value_of_onePath? (small : manager.HasLiterals edge) {path : List Int}
    (found : manager.onePath? edge = some path) {assignment : Nat → Bool}
    (holds : path.all (LiteralHolds assignment)) : manager.value assignment edge = true := by
  unfold onePath? at found
  split at found
  case isTrue => cases found
  case isFalse satisfiable =>
    cases found
    obtain ⟨path, leads, same⟩ := ordered.exists_of_pathFrom (edge.index + 1) owns
      (by simpa [Edge.isZero] using satisfiable) (Nat.le_succ _)
    rw [same] at holds
    exact leads.value_eq ordered owns ((leads.literals_hold_iff ordered owns small).mp holds)

end Paths

/-- The queries agree with the function of the edge. -/
structure QueriesExact (manager : DiagramManager) (edge : Edge) : Prop where
  finite : {path | manager.LeadsToOne edge path}.Finite
  paths_none (limit : Nat) : manager.paths? edge limit = none ↔
    limit < {path | manager.LeadsToOne edge path}.ncard
  paths_some : manager.HasLiterals edge → ∀ limit cubes,
    manager.paths? edge limit = some cubes → manager.DisjointCubes edge cubes
  onePath_none : manager.onePath? edge = none ↔
    ∀ assignment, manager.value assignment edge = false
  onePath_some : manager.HasLiterals edge → ∀ path, manager.onePath? edge = some path →
    ∀ assignment, path.all (LiteralHolds assignment) → manager.value assignment edge = true
  counted (levels : Nat) : manager.DependsWithin levels edge →
    manager.countAssignments edge levels = (manager.satisfying levels edge).card
  supported (level : Nat) : level ∈ manager.support edge ↔ manager.DependsOn edge level

/-- In a manager that is built by its operations, is not exhausted and has at most 32767
nodes, the queries agree with the functions of all edges. -/
theorem Built.queriesExact {cacheBits nodeLimit : Nat} (built : Built cacheBits nodeLimit manager)
    (usable : manager.exhaustion = none) (few : manager.size ≤ 32767)
    (owns : manager.Owns edge) : manager.QueriesExact edge := by
  obtain ⟨bound, ordered⟩ := built.ordered usable few
  exact {
    finite := (ordered.ncard_leadsToOne owns).1
    paths_none := ordered.paths?_eq_none_iff owns
    paths_some := fun small _ _ found => ordered.disjointCubes_of_paths? owns small found
    onePath_none := ordered.onePath?_eq_none_iff owns
    onePath_some := fun small _ found _ holds =>
      ordered.value_of_onePath? owns small found holds
    counted := fun _ within => ordered.countAssignments_eq owns within
    supported := fun _ => ordered.mem_support owns }

/-- The queries agree with the function of a first variable. -/
theorem firstVariable_queriesExact : Reached.firstVariable.2.exhaustion = none ∧
    Reached.firstVariable.2.size ≤ 32767 ∧
    Reached.firstVariable.2.Owns Reached.firstVariable.1 ∧
    Reached.firstVariable.2.QueriesExact Reached.firstVariable.1 := by
  have usable : Reached.firstVariable.2.exhaustion = none := by decide
  have few : Reached.firstVariable.2.size ≤ 32767 := by decide
  have owns : Reached.firstVariable.2.Owns Reached.firstVariable.1 :=
    Reached.firstVariable_delivers.owns
  exact ⟨usable, few, owns, Reached.reached_firstVariable.built.queriesExact usable few owns⟩

def greatestVariable : Edge × DiagramManager :=
  makeVariable 4294967295 (new 4 100)

/-- The literal of the greatest variable is written as that of the negated first variable.
So not every completion of a single path satisfies the function. -/
theorem onePath_satisfies_wrongly : ¬ ∀ (cacheBits nodeLimit : Nat) (manager : DiagramManager),
    Built cacheBits nodeLimit manager → manager.exhaustion = none → manager.size ≤ 32767 →
    ∀ edge, manager.Owns edge → ∀ path, manager.onePath? edge = some path →
    ∀ assignment, path.all (LiteralHolds assignment) →
      manager.value assignment edge = true := by
  intro claimed
  have delivers : (new 4 100).Delivers 4294967296 greatestVariable fun after edge =>
      ∀ assignment, after.value assignment edge = assignment 4294967295 :=
    makeVariable_delivers (wellFormed_new _ 4 100) (by decide) (by decide)
  have legal : Operation.Legal (new 4 100) (.var 4294967295) := by
    show 1 ≤ 4294967295
    decide
  have usable : greatestVariable.2.exhaustion = none := by decide
  have holds := claimed 4 100 greatestVariable.2 (.step .start legal legal.run?_eq) usable
    (by decide) greatestVariable.1 delivers.owns [-1] (by decide) (fun _ => false) (by decide)
  rw [delivers.meaning usable] at holds
  cases holds

end DiagramManager

end AbstractionRefinement
