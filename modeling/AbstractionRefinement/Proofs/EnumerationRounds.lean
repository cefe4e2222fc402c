import AbstractionRefinement.Proofs.QueryOutcomes

/-!
# Rounds of an enumeration

While models are enumerated, every round finds a projection that was not found before.  An
enumeration ends when the check of the remaining formulas is unsatisfiable or inconclusive,
when the projections exceed the limit, or after as many rounds as it was given.  This is so
for all formulas; what the projections are projections of is known for those formulas only
that do not choose between truth values.
-/

namespace AbstractionRefinement

open AbstractionRefinement.Computation

/-- The valuation has admitted values for exactly the listed symbols that occur, and they
belong to a solution of those formulas that do not choose between truth values. -/
structure Valuation.Restricts (projection : Valuation) (config : SolverConfig)
    (symbols : List Symbol) (formulas : List Expr) : Prop where
  sorted : OrderedMap.Sorted projection.entries
  mem_symbols {symbol : Symbol} : symbol ∈ projection.symbols ↔
    symbol ∈ symbols ∧ Occurs symbol formulas
  solved : ∃ values, config.AdmitsAll values formulas ∧
    (∀ formula ∈ formulas, formula.choosesTruth = false → formula.truth (total values) = true) ∧
    projection.Matches values

namespace Valuation

variable {projection : Valuation} {config : SolverConfig} {symbols : List Symbol}
  {formulas : List Expr}

theorem Restricts.projects (restricts : projection.Restricts config symbols formulas)
    (plain : ∀ formula ∈ formulas, formula.choosesTruth = false) :
    projection.Projects config symbols formulas := by
  obtain ⟨values, admits, fulfills, isMatch⟩ := restricts.solved
  exact ⟨restricts.sorted, restricts.mem_symbols, values, admits,
    fun formula member => fulfills formula member (plain formula member), isMatch⟩

theorem Restricts.admits (restricts : projection.Restricts config symbols formulas)
    {entry : Symbol × Value} (member : entry ∈ projection.entries) :
    config.Admits entry.1.decl entry.2 := by
  obtain ⟨values, admits, -, isMatch⟩ := restricts.solved
  obtain ⟨-, formula, isFormula, occurs⟩ :=
    restricts.mem_symbols.mp (List.mem_map_of_mem member)
  rw [← isMatch entry member]
  exact admits formula isFormula entry.1 occurs

theorem Restricts.wellTyped (restricts : projection.Restricts config symbols formulas) :
    projection.WellTyped :=
  fun _ member => (restricts.admits member).1

theorem Restricts.occurs_exclusion (restricts : projection.Restricts config symbols formulas)
    {symbol : Symbol} (occurs : symbol ∈ projection.exclusion.symbols) :
    Occurs symbol formulas := by
  rw [exclusion, Expr.mem_symbols_unary] at occurs
  exact (restricts.mem_symbols.mp (restricts.wellTyped.mem_symbols_toExpr occurs)).2

theorem WellTyped.mkNot_toExpr (wellTyped : projection.WellTyped) :
    Expr.mkNot projection.toExpr = .ok projection.exclusion := by
  rw [Expr.mkNot, Expr.expectType, if_pos wellTyped.encodable.2]
  rfl

theorem WellTyped.exclusion_plain (wellTyped : projection.WellTyped) :
    projection.exclusion.choosesTruth = false :=
  (wellTyped.encodable.1.not wellTyped.encodable.2).plain

end Valuation

namespace Query

open OpenSession

variable {config : SolverConfig} {alphabet symbols : List Symbol} {limit : Option Nat}
  {base : List Expr} {found : List Valuation} {state : OpenSession}

theorem occurs_excluding (restrict : ∀ projection ∈ found, projection.Restricts config symbols base)
    {formula : Expr} (member : formula ∈ excluding base found) {symbol : Symbol}
    (occurs : symbol ∈ formula.symbols) : Occurs symbol base := by
  rcases List.mem_append.mp member with inBase | isExclusion
  · exact ⟨formula, inBase, occurs⟩
  · obtain ⟨projection, isFound, rfl⟩ := List.mem_map.mp isExclusion
    exact (restrict projection isFound).occurs_exclusion occurs

/-- A model of the exclusions restricts to something new. -/
theorem restricts_restrictModel
    (restrict : ∀ projection ∈ found, projection.Restricts config symbols base) {model : Valuation}
    (solves : config.SolvesPlain (excluding base found) model) (lawful : config.Lawful) :
    (restrictModel model symbols).Restricts config symbols base ∧
      restrictModel model symbols ∉ found := by
  obtain ⟨values, admits, fulfills, given⟩ := solves
  have included : ∀ formula ∈ base, formula ∈ excluding base found :=
    fun formula member => List.mem_append_left _ member
  have occurs : ∀ formula ∈ excluding base found, ∀ symbol ∈ formula.symbols,
      Occurs symbol base := fun formula member symbol => occurs_excluding restrict member
  have isMatch : (restrictModel model symbols).Matches values := fun entry stored =>
    ((mem_entries_restrictModel given included occurs).mp stored).2
  refine ⟨⟨OrderedMap.sorted_ofList _, mem_symbols_restrictModel given included occurs, values,
    fun formula member => admits formula (included formula member),
    fun formula member => fulfills formula (included formula member), isMatch⟩, fun isFound => ?_⟩
  -- The exclusion of the restriction is among the formulas, and the model makes it true.
  have wellTyped := (restrict _ isFound).wellTyped
  have member : (restrictModel model symbols).exclusion ∈ excluding base found :=
    List.mem_append_right _ (List.mem_map_of_mem isFound)
  have holds := fulfills _ member wellTyped.exclusion_plain
  obtain ⟨completed, admitted, same⟩ := lawful.exists_completion
    fun formula member => admits formula (included formula member)
  have sameTruth : (restrictModel model symbols).exclusion.truth (total values) =
      (restrictModel model symbols).exclusion.truth (total completed) :=
    Expr.truth_congr fun symbol occursHere =>
      congrArg some (same symbol ((restrict _ isFound).occurs_exclusion occursHere)).symm
  rw [sameTruth, Valuation.exclusion, Expr.truth_not, Bool.not_eq_true', ← Bool.not_eq_true,
    wellTyped.truth_toExpr fun symbol => (admitted symbol).1] at holds
  refine holds fun entry stored => ?_
  rw [same entry.1 (((restrict _ isFound).mem_symbols.mp (List.mem_map_of_mem stored)).2)]
  exact isMatch entry stored

/-- What has been found while models are enumerated. -/
structure Progress (config : SolverConfig) (symbols : List Symbol) (limit : Option Nat)
    (base : List Expr) (found : List Valuation) : Prop where
  restrict : ∀ projection ∈ found, projection.Restricts config symbols base
  nodup : found.Nodup
  within : ∀ bound, limit = some bound → found.length ≤ bound

theorem Progress.finding (progress : Progress config symbols limit base found)
    (plain : ∀ formula ∈ base, formula.choosesTruth = false) :
    Finding config symbols limit base found :=
  ⟨fun projection member => (progress.restrict projection member).projects plain, progress.nodup,
    progress.within⟩

/-- How an enumeration ends that may find the given number of projections: with a result, with an
inconclusive check of what is left, or because it may not go on.  Once something was found, the
assertions of the outer frames are known to be encoded. -/
inductive Ended (config : SolverConfig) (symbols : List Symbol) (limit : Option Nat)
    (base : List Expr) (outer : List (List Assertion)) (rounds : Nat) :
    Except EngineError (Option (List Valuation)) → OpenSession → Prop
  | returned {models : Option (List Valuation)} (after : OpenSession)
      (encoded : models ≠ some [] → ∀ assertion ∈ outer.reverse.flatten,
        ∃ edge, assertion.encoded = .ok edge) :
      Ended config symbols limit base outer rounds (.ok models) after
  | inconclusive {found : List Valuation} {after : OpenSession} {cause : UnknownCause}
      (progress : Progress config symbols limit base found)
      (answers : (∀ formula ∈ base, formula.choosesTruth = false) → after.session.Roomy →
        Session.answer config (excluding base found) = .unknown cause) :
      Ended config symbols limit base outer rounds (.error (.solverUnknown cause)) after
  | outOfFuel {found : List Valuation} {after : OpenSession}
      (progress : Progress config symbols limit base found) (length_eq : found.length = rounds)
      (encoded : found ≠ [] → ∀ assertion ∈ outer.reverse.flatten,
        ∃ edge, assertion.encoded = .ok edge) :
      Ended config symbols limit base outer rounds (.error .outOfFuel) after

/-- What a round does with a projection that it finds: it is excluded, and the enumeration goes
on, unless nothing is left to exclude or there are too many. -/
def extend (symbols : List Symbol) (limit : Option Nat) (fuel : Nat) (found : List Valuation)
    (projection : Valuation) : Query (Option (List Valuation)) :=
  if projection.isEmpty then return some (found ++ [projection])
  else do
    add (← ofFormula (Expr.mkNot projection.toExpr))
    if limit.any (· < (found ++ [projection]).length) then return none
    else enumerateModels symbols limit fuel (found ++ [projection])

theorem enumerateModels_succ (symbols : List Symbol) (limit : Option Nat) (fuel : Nat)
    (found : List Valuation) : enumerateModels symbols limit (fuel + 1) found = (do
      if ← isSatisfiable then
        extend symbols limit fuel found (restrictModel (← model) symbols)
      else return some found) :=
  rfl

theorem evolving_extend (projection : Valuation) {fuel : Nat}
    (evolving : ∀ found, (enumerateModels symbols limit fuel found).Evolving) :
    (extend symbols limit fuel found projection).Evolving := by
  unfold extend
  split
  · exact evolving_pure _
  · refine (evolving_ofFormula _).bind fun formula => (evolving_add formula).bind fun _ => ?_
    split
    · exact evolving_pure _
    · exact evolving _

theorem evolving_enumerateModels (symbols : List Symbol) (limit : Option Nat) (fuel : Nat)
    (found : List Valuation) : (enumerateModels symbols limit fuel found).Evolving := by
  induction fuel generalizing found with
  | zero => exact evolving_throw _
  | succ fuel ih =>
      rw [enumerateModels_succ]
      refine evolving_isSatisfiable.bind fun answer => ?_
      split
      · exact evolving_model.bind fun model => evolving_extend _ ih
      · exact evolving_pure _

/-- A composed query is the same with another second part that is the same where the first one
has enough fuel. -/
theorem bind_eq_of_enough {α β : Type} {query : Query β} {next next' : β → Query α}
    (same : ∀ result after, (next result after).1 ≠ .error .outOfFuel →
      next' result after = next result after)
    (enough : ((query >>= next) state).1 ≠ .error .outOfFuel) :
    (query >>= next') state = (query >>= next) state := by
  revert enough
  rw [bind_run, bind_run]
  rcases query state with ⟨error | result, after⟩
  · exact fun _ => rfl
  · exact same result after

/-- An enumeration that has enough fuel is the same with more. -/
theorem enumerateModels_of_le {fuel fuel' : Nat} (le : fuel ≤ fuel')
    (enough : (enumerateModels symbols limit fuel found state).1 ≠ .error .outOfFuel) :
    enumerateModels symbols limit fuel' found state =
      enumerateModels symbols limit fuel found state := by
  induction fuel generalizing fuel' found state with
  | zero => exact absurd rfl enough
  | succ fuel ih =>
      obtain ⟨fuel', rfl⟩ : ∃ more, fuel' = more + 1 := ⟨fuel' - 1, by omega⟩
      rw [enumerateModels_succ] at enough ⊢
      rw [enumerateModels_succ]
      refine bind_eq_of_enough (fun answer answered enough => ?_) enough
      cases answer with
      | false => rfl
      | true =>
          refine bind_eq_of_enough (fun model modelled enough => ?_) enough
          unfold extend at enough ⊢
          split
          case isTrue => rfl
          case isFalse occupied =>
            rw [if_neg occupied] at enough
            refine bind_eq_of_enough (fun formula built enough => ?_) enough
            refine bind_eq_of_enough (fun _ added enough => ?_) enough
            split
            case isTrue => rfl
            case isFalse inside =>
              rw [if_neg inside] at enough
              exact ih (Nat.le_of_succ_le_succ le) enough

variable (workable : config.Workable) (punctual : config.timeoutPasses = false)
  (fewLevels : Encoding.levelTotal config alphabet < 2147483648)
  (listed : ∀ formula ∈ base, ∀ symbol ∈ formula.symbols, symbol ∈ alphabet)

include listed in
/-- A round that finds a new restriction ends the enumeration or asserts its exclusion. -/
theorem settles_extend {fuel rounds : Nat} {last : Valuation}
    (inUse : state.InUse config alphabet (excluding base found))
    (progress : Progress config symbols limit base found)
    (restricts : last.Restricts config symbols base) (fresh : last ∉ found)
    (encoded : ∀ assertion ∈ state.session.outer.reverse.flatten,
      ∃ edge, assertion.encoded = .ok edge)
    (goesOn : ∀ after : OpenSession, after.session.outer = state.session.outer →
      after.InUse config alphabet (excluding base (found ++ [last])) →
      Progress config symbols limit base (found ++ [last]) →
        (enumerateModels symbols limit fuel (found ++ [last])).Settles after
          (Ended config symbols limit base state.session.outer rounds)) :
    (extend symbols limit fuel found last).Settles state
      (Ended config symbols limit base state.session.outer rounds) := by
  unfold extend
  split
  case isTrue => exact settles_pure (.returned _ fun _ => encoded)
  case isFalse =>
    refine settles_bind_ofFormula restricts.wellTyped.mkNot_toExpr ?_
    have continues (result : Unit) : Evolving (if limit.any (· < (found ++ [last]).length) then
        return none else enumerateModels symbols limit fuel (found ++ [last])) := by
      split
      · exact evolving_pure _
      · exact evolving_enumerateModels symbols limit fuel _
    refine settles_bind continues (fun _ => settles_add inUse rfl fun symbol occurs => ?_)
      (evolving_add _) ?_ ?_
    · obtain ⟨formula, member, occurs⟩ := restricts.occurs_exclusion occurs
      exact listed formula member symbol occurs
    · rintro error after ⟨⟨⟩, -⟩
    · rintro _ after - ⟨-, inUse', frames⟩
      split
      case isTrue => exact settles_pure (.returned _ fun _ => encoded)
      case isFalse inside =>
        refine goesOn after frames ?_ ⟨?_, ?_, ?_⟩
        · rwa [excluding, List.append_assoc, ← List.map_singleton, ← List.map_append] at inUse'
        · exact List.forall_mem_append.mpr
            ⟨progress.restrict, List.forall_mem_singleton.mpr restricts⟩
        · rw [List.nodup_append_comm, List.singleton_append, List.nodup_cons]
          exact ⟨fresh, progress.nodup⟩
        · rintro bound rfl
          exact Nat.not_lt.mp (mt decide_eq_true inside)

include workable punctual fewLevels listed

/-- An enumeration of projections after those found so far ends in one of the ways. -/
theorem settles_enumerateModels (fuel : Nat)
    (inUse : state.InUse config alphabet (excluding base found))
    (progress : Progress config symbols limit base found)
    (encoded : found ≠ [] → ∀ assertion ∈ state.session.outer.reverse.flatten,
      ∃ edge, assertion.encoded = .ok edge) :
    (enumerateModels symbols limit fuel found).Settles state
      (Ended config symbols limit base state.session.outer (found.length + fuel)) := by
  induction fuel generalizing state found with
  | zero => exact fun _ => .outOfFuel progress rfl encoded
  | succ fuel ih =>
      rw [enumerateModels_succ]
      have extends_ (model : Valuation) :
          (extend symbols limit fuel found (restrictModel model symbols)).Evolving :=
        evolving_extend _ (evolving_enumerateModels symbols limit fuel)
      have rest (answer : Bool) : Evolving (if answer then do
          extend symbols limit fuel found (restrictModel (← model) symbols)
          else return some found) := by
        split
        · exact evolving_model.bind extends_
        · exact evolving_pure _
      refine settles_bind rest
        (fun _ => settles_isSatisfiable inUse workable.lawful punctual) evolving_isSatisfiable ?_ ?_
      · rintro _ after ⟨-, -, -, -, cause, rfl, -, answers⟩
        exact .inconclusive progress fun plain => answers ((progress.finding plain).plain plain)
      · rintro answer after few ⟨inUse', frames, -, status, given⟩
        rw [given] at status
        cases answer with
        | false =>
            refine settles_pure (.returned _ fun something => encoded ?_)
            rintro rfl
            exact something rfl
        | true =>
            have live : ∀ assertion ∈ state.session.outer.reverse.flatten,
                ∃ edge, assertion.encoded = .ok edge := by
              intro assertion member
              refine inUse'.serves.within.encoded few.nodes_le status assertion ?_
              rw [Session.live, frames]
              exact List.mem_append_left _ member
            refine settles_bind extends_
              (fun _ => settles_model inUse'.serves fewLevels status) evolving_model ?_ ?_
            · rintro error _ ⟨-, _, ⟨⟩, -⟩
            · rintro model _ - ⟨rfl, _, ⟨⟩, solves⟩
              have next := restricts_restrictModel progress.restrict solves workable.lawful
              rw [← frames] at live ⊢
              refine settles_extend listed inUse' progress next.1 next.2 live ?_
              intro later frames' inUse'' progress'
              have goesOn := ih inUse'' progress' fun _ => frames' ▸ live
              rwa [frames', List.length_append, List.length_singleton, Nat.add_assoc,
                Nat.add_comm 1 fuel] at goesOn

end Query

end AbstractionRefinement
