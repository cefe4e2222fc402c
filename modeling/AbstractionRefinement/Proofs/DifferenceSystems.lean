import Mathlib.Algebra.Group.Pointwise.Set.Basic
import Mathlib.Algebra.Order.Group.Unbundled.Basic
import Mathlib.Algebra.Order.Ring.Rat
import Mathlib.Algebra.Order.UpperLower
import Mathlib.Data.Finset.Basic
import Mathlib.Data.Finset.Lattice.Lemmas
import Mathlib.Data.Finset.Range
import Mathlib.Data.Finset.SDiff
import Mathlib.Order.UpperLower.Basic
import Mathlib.Tactic.Linarith

/-!
# Systems of difference constraints

A system says for every pair of unknowns which differences of their values are allowed; with
a difference all lower ones are allowed.  In a closed system nothing more follows from
chaining two constraints, and then values of some unknowns that obey the constraints among
them extend to a solution.  What chains of constraints allow is the sum along a walk.
-/

namespace AbstractionRefinement

open scoped Pointwise

/-- The allowed differences of any two unknowns, downward closed and not empty. -/
structure DifferenceSystem where
  limit : Nat → Nat → Set ℚ
  isLowerSet (first second : Nat) : IsLowerSet (limit first second)
  nonempty (first second : Nat) : (limit first second).Nonempty

namespace DifferenceSystem

variable {system : DifferenceSystem} {size : Nat} {known : Finset Nat} {values : Nat → ℚ}

/-- All differences of the known unknowns are allowed. -/
def Solves (system : DifferenceSystem) (known : Finset Nat) (values : Nat → ℚ) : Prop :=
  ∀ first ∈ known, ∀ second ∈ known, values first - values second ∈ system.limit first second

theorem Solves.congr {values' : Nat → ℚ} (solves : system.Solves known values)
    (same : ∀ index ∈ known, values' index = values index) : system.Solves known values' := by
  intro first isFirst second isSecond
  rw [same first isFirst, same second isSecond]
  exact solves first isFirst second isSecond

theorem Solves.shift (solves : system.Solves known values) (offset : ℚ) :
    system.Solves known fun index => values index + offset := by
  intro first isFirst second isSecond
  rw [add_sub_add_right_eq_sub]
  exact solves first isFirst second isSecond

theorem Solves.max {values' : Nat → ℚ} (solves : system.Solves known values)
    (solves' : system.Solves known values') :
    system.Solves known fun index => max (values index) (values' index) := by
  intro first isFirst second isSecond
  have limit := solves first isFirst second isSecond
  have limit' := solves' first isFirst second isSecond
  rcases le_total (values first) (values' first) with le | le
  · refine system.isLowerSet first second ?_ limit'
    dsimp only
    rw [max_eq_right le]
    exact sub_le_sub_left (le_max_right _ _) _
  · refine system.isLowerSet first second ?_ limit
    dsimp only
    rw [max_eq_left le]
    exact sub_le_sub_left (le_max_left _ _) _

/-- Two chained constraints never say more than a single one. -/
structure Closed (system : DifferenceSystem) (size : Nat) : Prop where
  zero_mem {index : Nat} : index < size → (0 : ℚ) ∈ system.limit index index
  triangle {first via second : Nat} : first < size → via < size → second < size →
    system.limit first second ⊆ system.limit first via + system.limit via second

/-- Among finitely many downward closed sets there is a least one. -/
theorem exists_least {ι : Type} {sets : ι → Set ℚ} {indices : Finset ι}
    (lower : ∀ index ∈ indices, IsLowerSet (sets index)) (nonempty : indices.Nonempty) :
    ∃ least ∈ indices, ∀ index ∈ indices, sets least ⊆ sets index := by
  induction nonempty using Finset.Nonempty.cons_induction with
  | singleton index => exact ⟨index, by simp, by simp⟩
  | cons index indices fresh _ ih =>
      rw [Finset.forall_mem_cons] at lower
      obtain ⟨least, isIndex, isLeast⟩ := ih lower.2
      rcases (lower.1).total (lower.2 least isIndex) with less | less
      · refine ⟨index, Finset.mem_cons_self .., ?_⟩
        rw [Finset.forall_mem_cons]
        exact ⟨subset_rfl, fun other isOther => less.trans (isLeast other isOther)⟩
      · refine ⟨least, Finset.mem_cons_of_mem isIndex, ?_⟩
        rw [Finset.forall_mem_cons]
        exact ⟨less, isLeast⟩

/-- The values that an unknown may have next to some known values, from above and from below,
have one in common, if this is so for any two of the limits. -/
theorem exists_between {ι : Type} {lowers uppers : ι → Set ℚ} {indices : Finset ι}
    {above : Set ℚ} (lower : ∀ index ∈ indices, IsLowerSet (lowers index))
    (upper : ∀ index ∈ indices, IsUpperSet (uppers index)) (isUpper : IsUpperSet above)
    (nonempty : above.Nonempty)
    (meets : ∀ index ∈ indices, ∀ other ∈ indices, (lowers index ∩ uppers other).Nonempty)
    (meetsAbove : ∀ index ∈ indices, (lowers index ∩ above).Nonempty) :
    ∃ value ∈ above, ∀ index ∈ indices, value ∈ lowers index ∧ value ∈ uppers index := by
  rcases indices.eq_empty_or_nonempty with rfl | some
  · obtain ⟨value, isAbove⟩ := nonempty
    exact ⟨value, isAbove, by simp⟩
  obtain ⟨least, isIndex, isLeast⟩ := exists_least lower some
  -- Complements turn upward closed sets into downward closed ones.
  obtain ⟨highest, isOther, isHighest⟩ :=
    exists_least (fun index isIndex _ _ le member => upper index isIndex (neg_le_neg le) member :
      ∀ index ∈ indices, IsLowerSet (Set.preimage Neg.neg (uppers index))) some
  have isHighest' : ∀ index ∈ indices, uppers highest ⊆ uppers index := by
    intro index isIndex value member
    simpa using isHighest index isIndex (a := -value) (by simpa using member)
  rcases (upper highest isOther).total isUpper with less | less
  · obtain ⟨value, inLeast, inHighest⟩ := meets least isIndex highest isOther
    exact ⟨value, less inHighest, fun index isIndex =>
      ⟨isLeast index isIndex inLeast, isHighest' index isIndex inHighest⟩⟩
  · obtain ⟨value, inLeast, isAbove⟩ := meetsAbove least isIndex
    exact ⟨value, isAbove, fun index isIndex =>
      ⟨isLeast index isIndex inLeast, isHighest' index isIndex (less isAbove)⟩⟩

/-- A solution for some unknowns extends to one more, even if its value is also bounded from
below, as long as this bound agrees with each of the known values. -/
theorem Closed.extend_one (closed : system.Closed size) (inside : known ⊆ Finset.range size)
    {index : Nat} (isIndex : index < size) (fresh : index ∉ known)
    (solves : system.Solves known values) {above : Set ℚ} (upper : IsUpperSet above)
    (nonempty : above.Nonempty)
    (agrees : ∀ other ∈ known, ∃ value ∈ above, value - values other ∈ system.limit index other) :
    ∃ value ∈ above,
      system.Solves (insert index known) (Function.update values index value) := by
  let lowers (other : Nat) : Set ℚ := { value | value - values other ∈ system.limit index other }
  let uppers (other : Nat) : Set ℚ := { value | values other - value ∈ system.limit other index }
  have meets : ∀ lower ∈ known, ∀ upper ∈ known, (lowers lower ∩ uppers upper).Nonempty := by
    intro lowerIndex isLower upperIndex isUpper
    have inRange {other : Nat} (isOther : other ∈ known) : other < size :=
      Finset.mem_range.mp (inside isOther)
    obtain ⟨larger, isLarger, smaller, isSmaller, sum⟩ := Set.mem_add.mp
      (closed.triangle (inRange isUpper) isIndex (inRange isLower)
        (solves upperIndex isUpper lowerIndex isLower))
    refine ⟨values lowerIndex + smaller, ?_, ?_⟩
    · show values lowerIndex + smaller - values lowerIndex ∈ system.limit index lowerIndex
      rwa [add_sub_cancel_left]
    · have same : values upperIndex - (values lowerIndex + smaller) = larger := by linarith
      show values upperIndex - (values lowerIndex + smaller) ∈ system.limit upperIndex index
      rwa [same]
  have lower : ∀ other ∈ known, IsLowerSet (lowers other) := fun other _ _ _ le member =>
    system.isLowerSet index other (sub_le_sub_right le _) member
  have upper' : ∀ other ∈ known, IsUpperSet (uppers other) := fun other _ _ _ le member =>
    system.isLowerSet other index (sub_le_sub_left le _) member
  obtain ⟨value, isAbove, between⟩ := exists_between lower upper'
    upper nonempty meets fun other isOther => by
      obtain ⟨value, isAbove, allowed⟩ := agrees other isOther
      exact ⟨value, allowed, isAbove⟩
  refine ⟨value, isAbove, fun first isFirst second isSecond => ?_⟩
  have differs {other : Nat} (isOther : other ∈ known) : other ≠ index := by
    rintro rfl
    exact fresh isOther
  rcases Finset.mem_insert.mp isFirst with rfl | known₁ <;>
    rcases Finset.mem_insert.mp isSecond with rfl | known₂
  · rw [sub_self]
    exact closed.zero_mem isIndex
  · rw [Function.update_self, Function.update_of_ne (differs known₂)]
    exact (between second known₂).1
  · rw [Function.update_self, Function.update_of_ne (differs known₁)]
    exact (between first known₁).2
  · rw [Function.update_of_ne (differs known₁), Function.update_of_ne (differs known₂)]
    exact solves first known₁ second known₂

/-- A solution for some unknowns extends to all of them. -/
theorem Closed.extend (closed : system.Closed size) (inside : known ⊆ Finset.range size)
    (solves : system.Solves known values) :
    ∃ extended, system.Solves (Finset.range size) extended ∧
      ∀ index ∈ known, extended index = values index := by
  have partly (rest : Finset Nat) (outside : Disjoint known rest)
      (inRange : rest ⊆ Finset.range size) : ∃ extended,
        system.Solves (rest ∪ known) extended ∧
          ∀ index ∈ known, extended index = values index := by
    induction rest using Finset.induction_on with
    | empty => exact ⟨values, by simpa using solves, fun _ _ => rfl⟩
    | insert index rest fresh ih =>
        obtain ⟨isIndex, inRange⟩ := Finset.insert_subset_iff.mp inRange
        obtain ⟨unknown, outside⟩ := Finset.disjoint_insert_right.mp outside
        obtain ⟨extended, solved, same⟩ := ih outside inRange
        have fresh' : index ∉ rest ∪ known := by simp [fresh, unknown]
        obtain ⟨value, -, solved'⟩ := closed.extend_one (Finset.union_subset inRange inside)
          (Finset.mem_range.mp isIndex) fresh' solved isUpperSet_univ Set.univ_nonempty
          fun other _ => by
            obtain ⟨limit, allowed⟩ := system.nonempty index other
            exact ⟨extended other + limit, trivial, by simpa using allowed⟩
        refine ⟨_, by rwa [Finset.insert_union], fun other isOther => ?_⟩
        have differs : other ≠ index := by
          rintro rfl
          exact unknown isOther
        rw [Function.update_of_ne differs]
        exact same other isOther
  obtain ⟨extended, solved, same⟩ :=
    partly (Finset.range size \ known) Finset.disjoint_sdiff Finset.sdiff_subset
  exact ⟨extended, by rwa [Finset.sdiff_union_of_subset inside] at solved, same⟩

/-- A closed system can be solved with any difference of two unknowns that it allows. -/
theorem Closed.exists_solution (closed : system.Closed size) {first second : Nat}
    (isFirst : first < size) (isSecond : second < size) {difference : ℚ}
    (allowed : difference ∈ system.limit first second)
    (allowed' : -difference ∈ system.limit second first) (differ : first ≠ second) :
    ∃ solution, system.Solves (Finset.range size) solution ∧
      solution first - solution second = difference := by
  have solves : system.Solves {first, second} (Function.update (fun _ => 0) first difference) := by
    intro one isOne other isOther
    rw [Finset.mem_insert, Finset.mem_singleton] at isOne isOther
    rcases isOne with rfl | rfl <;> rcases isOther with rfl | rfl
    · rw [sub_self]
      exact closed.zero_mem isFirst
    · simpa [Function.update_of_ne differ.symm] using allowed
    · simpa [Function.update_of_ne differ.symm] using allowed'
    · rw [sub_self]
      exact closed.zero_mem isSecond
  obtain ⟨solution, solved, same⟩ := closed.extend (by
    simp [Finset.insert_subset_iff, isFirst, isSecond]) solves
  refine ⟨solution, solved, ?_⟩
  rw [same first (by simp), same second (by simp), Function.update_self,
    Function.update_of_ne differ.symm, sub_zero]

/-- The limits of a closed system are tight: downward closed sets with the differences of all
solutions have all that the system allows. -/
theorem Closed.limit_subset (closed : system.Closed size)
    (diagonal : ∀ index < size, system.limit index index ⊆ Set.Iic 0) {first second : Nat}
    (isFirst : first < size) (isSecond : second < size) {allowed : Set ℚ}
    (lower : IsLowerSet allowed) (implied : ∀ solution,
      system.Solves (Finset.range size) solution → solution first - solution second ∈ allowed) :
    system.limit first second ⊆ allowed := by
  intro difference isLimit
  by_cases same : first = second
  · subst same
    have nothing : system.Solves ∅ fun _ => 0 := by simp [Solves]
    obtain ⟨solution, solves, -⟩ := closed.extend (Finset.empty_subset _) nothing
    apply lower (diagonal first isFirst isLimit)
    simpa using implied solution solves
  -- The difference may have to be raised, so that its opposite is not too high.
  · obtain ⟨there, isThere, back, isBack, sum⟩ :=
      Set.mem_add.mp (closed.triangle isFirst isSecond isFirst (closed.zero_mem isFirst))
    have raised : max difference there ∈ system.limit first second := by
      rcases max_choice difference there with same | same <;> rwa [same]
    have opposite : -max difference there ∈ system.limit second first := by
      apply system.isLowerSet second first _ isBack
      linarith [le_max_right difference there]
    obtain ⟨solution, solves, attained⟩ :=
      closed.exists_solution isFirst isSecond raised opposite same
    apply lower (le_max_left difference there)
    rw [← attained]
    exact implied solution solves

/-- The differences that are allowed along a walk, given by the unknowns on the way. -/
def walk (system : DifferenceSystem) : Nat → List Nat → Nat → Set ℚ
  | first, [], last => system.limit first last
  | first, via :: rest, last => system.limit first via + system.walk via rest last

theorem walk_append (first : Nat) (before : List Nat) (via : Nat) (after : List Nat) (last : Nat) :
    system.walk first (before ++ via :: after) last =
      system.walk first before via + system.walk via after last := by
  induction before generalizing first with
  | nil => rfl
  | cons index before ih => rw [List.cons_append, walk, ih, walk, add_assoc]

/-- No walk around a cycle is contradictory. -/
def Consistent (system : DifferenceSystem) (size : Nat) : Prop :=
  ∀ index < size, ∀ between : List Nat, (∀ via ∈ between, via < size) →
    (0 : ℚ) ∈ system.walk index between index

theorem exists_append_of_not_nodup {list : List Nat} (repeats : ¬ list.Nodup) :
    ∃ before index between after, list = before ++ index :: (between ++ index :: after) := by
  induction list with
  | nil => exact absurd List.nodup_nil repeats
  | cons head tail ih =>
      rw [List.nodup_cons, not_and] at repeats
      by_cases again : head ∈ tail
      · obtain ⟨between, after, rfl⟩ := List.append_of_mem again
        exact ⟨[], head, between, after, rfl⟩
      · obtain ⟨before, index, between, after, rfl⟩ := ih (repeats again)
        exact ⟨head :: before, index, between, after, rfl⟩

/-- A walk without its cycles allows no more than the walk. -/
theorem Consistent.exists_nodup (consistent : system.Consistent size) (first last : Nat)
    (between : List Nat) (inside : ∀ index ∈ between, index < size) :
    ∃ simple : List Nat, simple.Nodup ∧ simple ⊆ between ∧
      system.walk first simple last ⊆ system.walk first between last := by
  induction length : between.length using Nat.strongRecOn generalizing between with
  | ind _ ih =>
      by_cases nodup : between.Nodup
      · exact ⟨between, nodup, List.Subset.refl _, subset_rfl⟩
      obtain ⟨before, index, cycle, after, rfl⟩ := exists_append_of_not_nodup nodup
      have isIndex : index < size := inside index (by simp)
      have shorter : (before ++ index :: after).length <
          (before ++ index :: (cycle ++ index :: after)).length := by
        simp only [List.length_append, List.length_cons]
        omega
      have subset : before ++ index :: after ⊆ before ++ index :: (cycle ++ index :: after) := by
        intro via
        simp only [List.mem_append, List.mem_cons]
        tauto
      obtain ⟨simple, nodup, subset', less⟩ := ih _ (length ▸ shorter) (before ++ index :: after)
        (fun via member => inside via (subset member)) rfl
      refine ⟨simple, nodup, List.Subset.trans subset' subset, less.trans ?_⟩
      rw [walk_append, walk_append, walk_append]
      refine Set.add_subset_add_left (Set.subset_add_right _ ?_)
      exact consistent index isIndex cycle fun via member => inside via (by simp [member])

/-- If walks around cycles without repetitions are not contradictory then none is. -/
theorem consistent_of_nodup
    (simple : ∀ index < size, ∀ between : List Nat, between.Nodup → (∀ via ∈ between, via < size) →
      (0 : ℚ) ∈ system.walk index between index) : system.Consistent size := by
  intro index isIndex between inside
  induction length : between.length using Nat.strongRecOn generalizing index between with
  | ind _ ih =>
      by_cases nodup : between.Nodup
      · exact simple index isIndex between nodup inside
      obtain ⟨before, again, cycle, after, rfl⟩ := exists_append_of_not_nodup nodup
      simp only [List.length_append, List.length_cons] at length
      have isAgain : again < size := inside again (by simp)
      have inner : (0 : ℚ) ∈ system.walk again cycle again :=
        ih _ (by omega) again isAgain cycle (fun via member => inside via (by simp [member])) rfl
      have outer : (0 : ℚ) ∈ system.walk index (before ++ again :: after) index := by
        refine ih _ (by simp only [List.length_append, List.length_cons]; omega) index isIndex
          (before ++ again :: after) (fun via member => inside via ?_) rfl
        simp only [List.mem_append, List.mem_cons] at member ⊢
        tauto
      rw [walk_append] at outer
      rw [walk_append, walk_append]
      exact Set.add_subset_add_left (Set.subset_add_right _ inner) outer

/-- One row is tightened by the detours over an unknown. -/
structure Relaxes (size via row : Nat) (before after : DifferenceSystem) : Prop where
  tightened {second : Nat} : second < size → after.limit row second =
    before.limit row second ∩ (before.limit row via + before.limit via second)
  same {first second : Nat} : first < size → second < size → first ≠ row →
    after.limit first second = before.limit first second

/-- Rows are tightened one after the other, each by the detours over some unknown. -/
inductive Relaxed (size : Nat) : List (Nat × Nat) → DifferenceSystem → DifferenceSystem → Prop where
  | nil (system : DifferenceSystem) : Relaxed size [] system system
  | cons {via row : Nat} {steps : List (Nat × Nat)} {before next after : DifferenceSystem}
      (isVia : via < size) (isRow : row < size) (first : Relaxes size via row before next)
      (rest : Relaxed size steps next after) : Relaxed size ((via, row) :: steps) before after

/-- Every row is tightened by the detours over every one of the first unknowns. -/
def rounds (size count : Nat) : List (Nat × Nat) :=
  (List.range count).flatMap fun via => (List.range size).map fun row => (via, row)

theorem mem_rounds {count : Nat} {step : Nat × Nat} :
    step ∈ rounds size count ↔ step.1 < count ∧ step.2 < size := by
  obtain ⟨via, row⟩ := step
  simp [rounds]

section Relaxation

variable {base before after : DifferenceSystem} {steps : List (Nat × Nat)}

theorem Relaxed.exists_of_append {others : List (Nat × Nat)}
    (relaxed : Relaxed size (steps ++ others) before after) :
    ∃ middle, Relaxed size steps before middle ∧ Relaxed size others middle after := by
  induction steps generalizing before with
  | nil => exact ⟨before, .nil before, relaxed⟩
  | cons step steps ih =>
      cases relaxed with
      | cons isVia isRow first rest =>
          obtain ⟨middle, early, late⟩ := ih rest
          exact ⟨middle, .cons isVia isRow first early, late⟩

theorem Relaxes.subset {via row : Nat} (relaxes : Relaxes size via row before after)
    {first second : Nat} (isFirst : first < size) (isSecond : second < size) :
    after.limit first second ⊆ before.limit first second := by
  by_cases isRow : first = row
  · subst isRow
    rw [relaxes.tightened isSecond]
    exact Set.inter_subset_left
  · rw [relaxes.same isFirst isSecond isRow]

theorem Relaxed.subset (relaxed : Relaxed size steps before after) {first second : Nat}
    (isFirst : first < size) (isSecond : second < size) :
    after.limit first second ⊆ before.limit first second := by
  induction relaxed with
  | nil => exact subset_rfl
  | cons _ _ relaxes _ ih => exact ih.trans (relaxes.subset isFirst isSecond)

/-- Detours are implied, so that no solution is lost, nor is one won. -/
theorem Relaxed.solves_iff (relaxed : Relaxed size steps before after) :
    after.Solves (Finset.range size) values ↔ before.Solves (Finset.range size) values := by
  constructor
  · intro solves first isFirst second isSecond
    exact relaxed.subset (Finset.mem_range.mp isFirst) (Finset.mem_range.mp isSecond)
      (solves first isFirst second isSecond)
  · intro solves
    induction relaxed with
    | nil => exact solves
    | @cons via row _ _ _ _ isVia isRow relaxes _ ih =>
        refine ih fun first isFirst second isSecond => ?_
        by_cases same : first = row
        · subst same
          rw [relaxes.tightened (Finset.mem_range.mp isSecond)]
          refine ⟨solves first isFirst second isSecond, ?_⟩
          rw [← sub_add_sub_cancel (values first) (values via) (values second)]
          have isVia' := Finset.mem_range.mpr isVia
          exact Set.add_mem_add (solves first isFirst via isVia') (solves via isVia' second isSecond)
        · rw [relaxes.same (Finset.mem_range.mp isFirst) (Finset.mem_range.mp isSecond) same]
          exact solves first isFirst second isSecond

/-- Every limit allows what some walk of the base over the first unknowns allows. -/
def AboveWalks (size count : Nat) (base system : DifferenceSystem) : Prop :=
  ∀ first < size, ∀ second < size, ∃ between : List Nat, (∀ via ∈ between, via < count) ∧
    base.walk first between second ⊆ system.limit first second

theorem aboveWalks_self (size count : Nat) (base : DifferenceSystem) :
    AboveWalks size count base base :=
  fun _ _ _ _ => ⟨[], by simp, subset_rfl⟩

theorem Relaxed.aboveWalks {count : Nat} (relaxed : Relaxed size steps before after)
    (inside : ∀ step ∈ steps, step.1 < count) (above : AboveWalks size count base before) :
    AboveWalks size count base after := by
  induction relaxed with
  | nil => exact above
  | @cons via row _ start _ _ isVia isRow relaxes _ ih =>
      obtain ⟨inVia, inside⟩ := List.forall_mem_cons.mp inside
      refine ih inside fun first isFirst second isSecond => ?_
      obtain ⟨direct, inDirect, lessDirect⟩ := above first isFirst second isSecond
      by_cases same : first = row
      · subst same
        obtain ⟨toVia, inTo, lessTo⟩ := above first isFirst via isVia
        obtain ⟨fromVia, inFrom, lessFrom⟩ := above via isVia second isSecond
        have detour : base.walk first (toVia ++ via :: fromVia) second ⊆ _ :=
          (walk_append first toVia via fromVia second).subset.trans
            (Set.add_subset_add lessTo lessFrom)
        rw [relaxes.tightened isSecond]
        -- Of two downward closed sets the smaller one is their intersection.
        rcases (start.isLowerSet first second).total
          ((start.isLowerSet first via).add_right (t := start.limit via second)) with less | less
        · exact ⟨direct, inDirect, Set.subset_inter lessDirect (lessDirect.trans less)⟩
        · refine ⟨toVia ++ via :: fromVia, fun index member => ?_,
            Set.subset_inter (detour.trans less) detour⟩
          rcases List.mem_append.mp member with early | late
          · exact inTo index early
          · rcases List.mem_cons.mp late with rfl | late
            · exact inVia
            · exact inFrom index late
      · rw [relaxes.same isFirst isSecond same]
        exact ⟨direct, inDirect, lessDirect⟩

/-- No limit allows more than the walks over different ones of the first unknowns. -/
def BelowWalks (size count : Nat) (base system : DifferenceSystem) : Prop :=
  ∀ first < size, ∀ second < size, ∀ between : List Nat, between.Nodup →
    (∀ via ∈ between, via < count) → system.limit first second ⊆ base.walk first between second

theorem BelowWalks.relax {count via row : Nat} (below : BelowWalks size count base before)
    (relaxes : Relaxes size via row before after) : BelowWalks size count base after :=
  fun first isFirst second isSecond between nodup inside =>
    (relaxes.subset isFirst isSecond).trans
      (below first isFirst second isSecond between nodup inside)

/-- After a round every relaxed row is below the walks that pass the unknown of the round once. -/
theorem Relaxed.below_round {via : Nat} {rows : List Nat}
    (relaxed : Relaxed size (rows.map fun row => (via, row)) before after)
    (below : BelowWalks size via base before) :
    BelowWalks size via base after ∧ ∀ row ∈ rows, ∀ second < size, ∀ early late : List Nat,
      early.Nodup → late.Nodup → (∀ index ∈ early, index < via) → (∀ index ∈ late, index < via) →
      after.limit row second ⊆ base.walk row (early ++ via :: late) second := by
  induction rows generalizing before with
  | nil =>
      cases relaxed
      exact ⟨below, by simp⟩
  | cons row rows ih =>
      cases relaxed with
      | cons isVia isRow relaxes rest =>
          obtain ⟨below', others⟩ := ih rest (below.relax relaxes)
          refine ⟨below', List.forall_mem_cons.mpr ⟨?_, others⟩⟩
          intro second isSecond early late nodup nodup' inside inside'
          refine (rest.subset isRow isSecond).trans ?_
          rw [relaxes.tightened isSecond, walk_append]
          exact Set.inter_subset_right.trans (Set.add_subset_add
            (below row isRow via isVia early nodup inside)
            (below via isVia second isSecond late nodup' inside'))

theorem Relaxed.below_rounds {count : Nat}
    (relaxed : Relaxed size (rounds size count) base after) :
    BelowWalks size count base after := by
  induction count generalizing after with
  | zero =>
      cases relaxed
      intro first _ second _ between _ inside
      cases between with
      | nil => exact subset_rfl
      | cons via _ => exact absurd (inside via List.mem_cons_self) (Nat.not_lt_zero via)
  | succ count ih =>
      rw [rounds, List.range_succ, List.flatMap_append, List.flatMap_singleton] at relaxed
      obtain ⟨middle, early, round⟩ := relaxed.exists_of_append
      obtain ⟨below, passing⟩ := round.below_round (ih early)
      intro first isFirst second isSecond between nodup inside
      have smaller {part : List Nat} (isPart : part ⊆ between) (avoids : count ∉ part) :
          ∀ via ∈ part, via < count := fun via member => by
        have differs : via ≠ count := fun same => avoids (same ▸ member)
        have := inside via (isPart member)
        omega
      by_cases passes : count ∈ between
      · obtain ⟨early, late, rfl⟩ := List.append_of_mem passes
        have nodup' := List.nodup_middle.mp nodup
        rw [List.nodup_cons, List.mem_append, not_or, List.nodup_append] at nodup'
        obtain ⟨⟨avoids, avoids'⟩, nodupEarly, nodupLate, -⟩ := nodup'
        exact passing first (List.mem_range.mpr isFirst) second isSecond early late nodupEarly
          nodupLate (smaller (List.subset_append_left _ _) avoids)
          (smaller (fun via member =>
            List.mem_append_right _ (List.mem_cons_of_mem _ member)) avoids')
      · exact below first isFirst second isSecond between nodup
          (smaller (List.Subset.refl _) passes)

/-- After rounds over all unknowns, a system without a contradiction is closed. -/
theorem Relaxed.closed (relaxed : Relaxed size (rounds size size) base after)
    (zero_mem : ∀ index < size, (0 : ℚ) ∈ after.limit index index) : after.Closed size where
  zero_mem := zero_mem _
  triangle {first via second} isFirst isVia isSecond := by
    have below := relaxed.below_rounds
    have consistent : base.Consistent size :=
      consistent_of_nodup fun index isIndex between nodup inside =>
        below index isIndex index isIndex between nodup inside (zero_mem index isIndex)
    have above : AboveWalks size size base after :=
      relaxed.aboveWalks (fun step member => (mem_rounds.mp member).1)
        (aboveWalks_self size size base)
    obtain ⟨toVia, inTo, lessTo⟩ := above first isFirst via isVia
    obtain ⟨fromVia, inFrom, lessFrom⟩ := above via isVia second isSecond
    have inside : ∀ index ∈ toVia ++ via :: fromVia, index < size := by
      simp only [List.mem_append, List.mem_cons]
      rintro index (early | rfl | late)
      · exact inTo index early
      · exact isVia
      · exact inFrom index late
    obtain ⟨simple, nodup, subset, less⟩ :=
      consistent.exists_nodup first second (toVia ++ via :: fromVia) inside
    calc after.limit first second
        ⊆ base.walk first simple second :=
          below first isFirst second isSecond simple nodup fun index member =>
            inside index (subset member)
      _ ⊆ base.walk first (toVia ++ via :: fromVia) second := less
      _ = base.walk first toVia via + base.walk via fromVia second := walk_append ..
      _ ⊆ after.limit first via + after.limit via second := Set.add_subset_add lessTo lessFrom

end Relaxation

end DifferenceSystem

end AbstractionRefinement
