import AbstractionRefinement.Proofs.PathFormulas

/-!
# Interpolation along traces

Where the formulas of a trace are cut in two, the first ones say something about the store
in between: it is reached by admitted values that fulfil them.  This holds of the stores
of a run of an analysis along the trace, if the analysis lists no state without a reason,
and in the end it contradicts the target condition.  So such a run is excluded where the
states tell apart what the first formulas tell apart.
-/

namespace AbstractionRefinement

open AbstractionRefinement.Computation

/-- The symbol occurs in one of the formulas. -/
def Occurs (symbol : Symbol) (formulas : List Expr) : Prop :=
  ∃ formula ∈ formulas, symbol ∈ formula.symbols

theorem occurs_append {symbol : Symbol} {first second : List Expr} :
    Occurs symbol (first ++ second) ↔ Occurs symbol first ∨ Occurs symbol second := by
  simp [Occurs, or_and_right, exists_or]

theorem fulfills_append {values : Symbol → Value} {first second : List Expr} :
    Fulfills values (first ++ second) ↔ Fulfills values first ∧ Fulfills values second :=
  List.forall_mem_append

theorem Fulfills.congr {values values' : Symbol → Value} {formulas : List Expr}
    (fulfills : Fulfills values formulas)
    (same : ∀ symbol, Occurs symbol formulas → values symbol = values' symbol) :
    Fulfills values' formulas := by
  intro formula member
  rw [← fulfills formula member]
  exact Expr.truth_congr fun symbol occurs => congrArg some (same symbol ⟨_, member, occurs⟩).symm

namespace Expr

/-- The symbols of the formula are at the given steps or later. -/
def From (steps : VarDecl → Nat) (formula : Expr) : Prop :=
  ∀ symbol ∈ formula.symbols, ∃ step, symbol.index = some step ∧ steps symbol.decl ≤ step

/-- The symbols of the formula are at the given steps or earlier. -/
def UpTo (steps : VarDecl → Nat) (formula : Expr) : Prop :=
  ∀ symbol ∈ formula.symbols, ∃ step, symbol.index = some step ∧ step ≤ steps symbol.decl

variable {steps steps' : VarDecl → Nat} {formula : Expr}

theorem From.mono (later : formula.From steps') (le : ∀ decl, steps decl ≤ steps' decl) :
    formula.From steps := fun symbol occurs =>
  have ⟨step, isIndex, bound⟩ := later symbol occurs
  ⟨step, isIndex, (le _).trans bound⟩

theorem UpTo.mono (earlier : formula.UpTo steps) (le : ∀ decl, steps decl ≤ steps' decl) :
    formula.UpTo steps' := fun symbol occurs =>
  have ⟨step, isIndex, bound⟩ := earlier symbol occurs
  ⟨step, isIndex, bound.trans (le _)⟩

namespace IsCurrent

variable (current : formula.IsCurrent) (indexing : Indexing)
include current

theorem unfold_eq_moved : formula.unfold indexing =
    formula.moved fun symbol => some (indexing.get symbol.decl) := by
  rw [unfold_eq_atVersions current.unprimed, atVersions_eq_moved]
  refine moved_congr fun symbol occurs => ?_
  rw [current.index_eq_none symbol occurs, Option.getD_none]

theorem index_of_mem_symbols_unfold {symbol : Symbol}
    (occurs : symbol ∈ (formula.unfold indexing).symbols) :
    symbol.index = some (indexing.get symbol.decl) := by
  rw [current.unfold_eq_moved, mem_symbols_moved] at occurs
  obtain ⟨other, -, rfl⟩ := occurs
  rfl

end IsCurrent

theorem IsConjunction.truth_iff {operands : List Expr}
    (isConjunction : IsConjunction operands formula) (assignment : Symbol → Option Value) :
    formula.truth assignment = true ↔ ∀ operand ∈ operands, operand.truth assignment = true := by
  cases isConjunction with
  | nil => simp; rfl
  | singleton => simp
  | many => rw [truth_and, List.all_eq_true]

end Expr

/-- The strongest condition on a store at the given steps that follows from the first
formulas and speaks only about symbols that the second formulas speak about, too. -/
def StrongestInterpolant (range : SolverConfig) (first second : List Expr)
    (steps : VarDecl → Nat) (store : Store) : Prop :=
  ∃ values, (∀ symbol, range.Admits symbol.decl (values symbol)) ∧ Fulfills values first ∧
    ∀ decl, Occurs ⟨decl, some (steps decl)⟩ first → Occurs ⟨decl, some (steps decl)⟩ second →
      values ⟨decl, some (steps decl)⟩ = store decl

section Merging

variable {range : SolverConfig} {first middle second : List Expr} {values : Symbol → Value}
  (admitted : ∀ symbol, range.Admits symbol.decl (values symbol))

include admitted

theorem strongestInterpolant_of_fulfills (fulfills : Fulfills values first) (second : List Expr)
    (steps : VarDecl → Nat) :
    StrongestInterpolant range first second steps (storeAt values steps) :=
  ⟨values, admitted, fulfills, fun _ _ _ => rfl⟩

/-- Values that agree on the shared symbols of two lists of formulas can be merged. -/
theorem exists_merged {values' : Symbol → Value}
    (admitted' : ∀ symbol, range.Admits symbol.decl (values' symbol))
    (fulfills : Fulfills values first) (fulfills' : Fulfills values' second)
    (agree : ∀ symbol, Occurs symbol first → Occurs symbol second →
      values symbol = values' symbol) :
    ∃ merged, (∀ symbol, range.Admits symbol.decl (merged symbol)) ∧
      Fulfills merged (first ++ second) ∧
      (∀ symbol, Occurs symbol first → merged symbol = values symbol) ∧
      ∀ symbol, ¬ Occurs symbol first → merged symbol = values' symbol := by
  classical
  refine ⟨fun symbol => if Occurs symbol first then values symbol else values' symbol,
    fun symbol => ?_, fulfills_append.mpr ⟨fulfills.congr fun symbol occurs => ?_,
      fulfills'.congr fun symbol occurs' => ?_⟩, fun symbol occurs => if_pos occurs,
    fun symbol absent => if_neg absent⟩
  · dsimp only
    split
    · exact admitted symbol
    · exact admitted' symbol
  · exact (if_pos occurs).symm
  · split
    · exact (agree symbol ‹_› occurs').symm
    · rfl

/-- The first formulas and the ones after them can be fulfilled together where the latter
go on from a store that the former allow. -/
theorem StrongestInterpolant.exists_merged {steps : VarDecl → Nat}
    (interpolant : StrongestInterpolant range first (middle ++ second) steps
      (storeAt values steps))
    (upTo : ∀ formula ∈ first, formula.UpTo steps)
    (later : ∀ formula ∈ middle, formula.From steps) (fulfills : Fulfills values middle) :
    ∃ past merged : Symbol → Value, (∀ symbol, range.Admits symbol.decl (merged symbol)) ∧
      Fulfills merged (first ++ middle) ∧
      (∀ symbol, Occurs symbol first → merged symbol = past symbol) ∧
      (∀ symbol, ¬ Occurs symbol first → merged symbol = values symbol) ∧
      ∀ decl, Occurs ⟨decl, some (steps decl)⟩ first →
        Occurs ⟨decl, some (steps decl)⟩ (middle ++ second) →
          past ⟨decl, some (steps decl)⟩ = values ⟨decl, some (steps decl)⟩ := by
  obtain ⟨past, admittedPast, fulfillsPast, agrees⟩ := interpolant
  -- A symbol on both sides of the cut is at its step there.
  have agree (symbol : Symbol) (occurs : Occurs symbol first) (occurs' : Occurs symbol middle) :
      past symbol = values symbol := by
    obtain ⟨formula, member, inside⟩ := occurs
    obtain ⟨formula', member', inside'⟩ := occurs'
    obtain ⟨step, isIndex, le⟩ := upTo formula member symbol inside
    obtain ⟨step', isIndex', ge⟩ := later formula' member' symbol inside'
    obtain rfl : step = step' := Option.some_injective _ (isIndex.symm.trans isIndex')
    obtain ⟨decl, index⟩ := symbol
    obtain rfl : index = some (steps decl) := isIndex.trans (congrArg some (Nat.le_antisymm le ge))
    exact agrees decl ⟨_, member, inside⟩ (occurs_append.mpr (.inl ⟨_, member', inside'⟩))
  obtain ⟨merged, admittedMerged, fulfillsMerged, same, other⟩ :=
    AbstractionRefinement.exists_merged admittedPast admitted fulfillsPast fulfills agree
  exact ⟨past, merged, admittedMerged, fulfillsMerged, same, other, agrees⟩

/-- What the first formulas say survives the formulas after them. -/
theorem StrongestInterpolant.advance {steps steps' : VarDecl → Nat}
    (interpolant : StrongestInterpolant range first (middle ++ second) steps
      (storeAt values steps))
    (upTo : ∀ formula ∈ first, formula.UpTo steps)
    (later : ∀ formula ∈ middle, formula.From steps)
    (le : ∀ decl, steps decl ≤ steps' decl) (fulfills : Fulfills values middle) :
    StrongestInterpolant range (first ++ middle) second steps' (storeAt values steps') := by
  obtain ⟨past, merged, admittedMerged, fulfillsMerged, same, other, agrees⟩ :=
    interpolant.exists_merged admitted upTo later fulfills
  refine ⟨merged, admittedMerged, fulfillsMerged, fun decl _ occurs' => ?_⟩
  by_cases occurs : Occurs ⟨decl, some (steps' decl)⟩ first
  · obtain ⟨formula, member, inside⟩ := occurs
    obtain ⟨step, isIndex, bound⟩ := upTo formula member _ inside
    obtain rfl : steps' decl = step := Option.some_injective _ isIndex
    have same' : steps' decl = steps decl := Nat.le_antisymm bound (le decl)
    rw [same _ ⟨formula, member, inside⟩]
    rw [same'] at inside occurs' ⊢
    rw [agrees decl ⟨formula, member, inside⟩ (occurs_append.mpr (.inr occurs'))]
    exact congrArg (fun step => values ⟨decl, some step⟩) same'.symm
  · exact other _ occurs

/-- The first formulas cannot lead to where the formulas after them go on, if together
they are not fulfilled. -/
theorem StrongestInterpolant.elim {steps : VarDecl → Nat}
    (interpolant : StrongestInterpolant range first second steps (storeAt values steps))
    (upTo : ∀ formula ∈ first, formula.UpTo steps)
    (later : ∀ formula ∈ second, formula.From steps) (fulfills : Fulfills values second)
    (refuted : ∀ values, (∀ symbol, range.Admits symbol.decl (values symbol)) →
      ¬ Fulfills values (first ++ second)) : False := by
  rw [← List.append_nil second] at interpolant
  obtain ⟨past, merged, admittedMerged, fulfillsMerged, -⟩ :=
    interpolant.exists_merged admitted upTo later fulfills
  exact refuted merged admittedMerged fulfillsMerged

end Merging

end AbstractionRefinement
