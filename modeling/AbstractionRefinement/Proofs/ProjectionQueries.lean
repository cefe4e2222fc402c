import AbstractionRefinement.Proofs.ForcedValueOutcomes
import AbstractionRefinement.Proofs.SupportedFormulas

/-!
# Projections of models in range

For assertions that have values wherever their symbols are in range, an enumeration lists the
projections of the models in range exactly, unless there are more than the limit, and the
values that are found to be determined are those that all models in range share.  Both queries
end for every session in use and leave its assertions as they were.  This fails for formulas
that choose between truth values.
-/

namespace AbstractionRefinement

open AbstractionRefinement.Computation

namespace SolverConfig

variable {config : SolverConfig} {symbols : List Symbol} {formulas : List Expr}
  {values : Symbol → Value}

/-- Every symbol of the formulas has a domain and an admitted value. -/
def Encloses (config : SolverConfig) (formulas : List Expr) (values : Symbol → Value) : Prop :=
  ∀ symbol, Occurs symbol formulas →
    Encoder.symbolFailure config symbol = none ∧ config.Admits symbol.decl (values symbol)

/-- The values are in range, and all formulas evaluate to true. -/
structure InRangeModel (config : SolverConfig) (formulas : List Expr)
    (values : Symbol → Value) : Prop where
  encloses : config.Encloses formulas values
  satisfies : Satisfies values formulas

/-- Formulas without choices between truth values that have truth values wherever their symbols
are in range. -/
structure Evaluates (config : SolverConfig) (formulas : List Expr) : Prop where
  encodable : ∀ formula ∈ formulas, formula.Encodable
  decided {values : Symbol → Value} : config.Encloses formulas values →
    ∀ formula ∈ formulas, (formula.evalBool (total values)).isSome

theorem Encloses.admitsAll (encloses : config.Encloses formulas values) :
    config.AdmitsAll values formulas :=
  fun formula member symbol occurs => (encloses symbol ⟨formula, member, occurs⟩).2

namespace Evaluates

variable (evaluates : config.Evaluates formulas)
include evaluates

theorem plain : ∀ formula ∈ formulas, formula.choosesTruth = false :=
  fun formula member => (evaluates.encodable formula member).plain

theorem inRangeModel_iff (encloses : config.Encloses formulas values) :
    config.InRangeModel formulas values ↔ Fulfills values formulas := by
  refine ⟨fun model => model.satisfies.fulfills evaluates.encodable encloses.admitsAll,
    fun fulfills => ⟨encloses, fun formula member => ?_⟩⟩
  obtain ⟨truth, known⟩ := Option.isSome_iff_exists.mp (evaluates.decided encloses formula member)
  have same := (evaluates.encodable formula member).refines_truth
    (encloses.admitsAll formula member) truth known
  rw [← fulfills formula member, same]
  exact known

theorem exists_solution (lawful : config.Lawful) (model : config.InRangeModel formulas values) :
    ∃ completed, config.Solution formulas completed ∧
      ∀ symbol, Occurs symbol formulas → completed symbol = values symbol :=
  lawful.exists_solution model.encloses.admitsAll
    ((evaluates.inRangeModel_iff model.encloses).mp model)

theorem inRangeModel_of_solution (solution : config.Solution formulas values)
    (hasDomain : ∀ symbol, Occurs symbol formulas → Encoder.symbolFailure config symbol = none) :
    config.InRangeModel formulas values :=
  (evaluates.inRangeModel_iff fun symbol occurs =>
    ⟨hasDomain symbol occurs, solution.admits symbol⟩).mpr solution.fulfills

end Evaluates

end SolverConfig

/-- The valuation gives the listed symbols that occur their values. -/
structure Valuation.IsProjection (projection : Valuation) (symbols : List Symbol)
    (formulas : List Expr) (values : Symbol → Value) : Prop where
  sorted : OrderedMap.Sorted projection.entries
  get?_eq_some_iff {symbol : Symbol} {value : Value} : projection.get? symbol = some value ↔
    (symbol ∈ symbols ∧ Occurs symbol formulas) ∧ values symbol = value

/-- The projections of the models in range. -/
def SolverConfig.projections (config : SolverConfig) (symbols : List Symbol)
    (formulas : List Expr) : Set Valuation :=
  { projection | ∃ values, config.InRangeModel formulas values ∧
      projection.IsProjection symbols formulas values }

namespace Query

open OpenSession

variable {config : SolverConfig} {alphabet symbols : List Symbol} {limit : Option Nat}
  {formulas : List Expr} {state : OpenSession}

theorem isProjection_of_matches {projection : Valuation} {values : Symbol → Value}
    (projects : projection.Projects config symbols formulas) (isMatch : projection.Matches values) :
    projection.IsProjection symbols formulas values where
  sorted := projects.sorted
  get?_eq_some_iff := projects.sorted.find?_eq_some_iff.trans (projects.mem_entries isMatch)

/-- A projection is determined by the values of the symbols that occur. -/
theorem eq_of_isProjection {projection other : Valuation} {values values' : Symbol → Value}
    (isProjection : projection.IsProjection symbols formulas values)
    (isProjection' : other.IsProjection symbols formulas values')
    (same : ∀ symbol, Occurs symbol formulas → values symbol = values' symbol) :
    projection = other := by
  have entries_eq : projection.entries = other.entries := by
    refine isProjection.sorted.eq_of_find? isProjection'.sorted fun symbol => Option.ext fun value =>
      isProjection.get?_eq_some_iff.trans <| Iff.trans ?_ isProjection'.get?_eq_some_iff.symm
    exact and_congr_right fun occurs => by rw [same symbol occurs.2]
  cases projection
  cases other
  exact congrArg Valuation.mk entries_eq

theorem eq_empty_of_unlisted {projection : Valuation} {values : Symbol → Value}
    (isProjection : projection.IsProjection symbols formulas values)
    (nowhere : ∀ symbol ∈ symbols, ¬ Occurs symbol formulas) : projection = .empty := by
  have entries_eq : projection.entries = [] :=
    List.eq_nil_iff_forall_not_mem.mpr fun entry stored =>
      have occurs := (isProjection.get?_eq_some_iff.mp
        (isProjection.sorted.find?_eq_some_iff.mpr stored)).1
      nowhere entry.1 occurs.1 occurs.2
  cases projection
  exact congrArg Valuation.mk entries_eq

theorem encard_le_length {found : List Valuation} {projections : Set Valuation}
    (subset : ∀ projection ∈ projections, projection ∈ found) :
    projections.encard ≤ found.length := by
  classical
  calc projections.encard ≤ (found.toFinset : Set Valuation).encard :=
        Set.encard_le_encard fun projection member =>
          List.mem_toFinset.mpr (subset projection member)
    _ = found.toFinset.card := Set.encard_coe_eq_coe_finsetCard _
    _ ≤ found.length := Nat.cast_le.mpr (List.toFinset_card_le found)

theorem length_le_encard {found : List Valuation} (nodup : found.Nodup)
    {projections : Set Valuation} (subset : ∀ projection ∈ found, projection ∈ projections) :
    (found.length : ℕ∞) ≤ projections.encard := by
  classical
  calc (found.length : ℕ∞) = found.toFinset.card := by rw [List.toFinset_card_of_nodup nodup]
    _ = (found.toFinset : Set Valuation).encard := (Set.encard_coe_eq_coe_finsetCard _).symm
    _ ≤ projections.encard := Set.encard_le_encard fun projection member =>
        subset projection (List.mem_toFinset.mp member)

/-- The models in range have more projections than the limit. -/
def ExceedsLimit (config : SolverConfig) (symbols : List Symbol) (limit : Option Nat)
    (formulas : List Expr) : Prop :=
  ∃ bound : Nat, limit = some bound ∧ bound < (config.projections symbols formulas).encard

theorem ExceedsLimit.exists_model (more : ExceedsLimit config symbols limit formulas) :
    ∃ values, config.InRangeModel formulas values := by
  obtain ⟨bound, -, less⟩ := more
  obtain ⟨projection, values, model, -⟩ :=
    Set.nonempty_of_encard_ne_zero (ne_bot_of_gt less)
  exact ⟨values, model⟩

section Lists

variable {found : List Valuation} (evaluates : config.Evaluates formulas) (lawful : config.Lawful)
include evaluates lawful

theorem mem_projections {projection : Valuation}
    (projects : projection.Projects config symbols formulas)
    (hasDomain : ∀ symbol, Occurs symbol formulas → Encoder.symbolFailure config symbol = none) :
    projection ∈ config.projections symbols formulas := by
  obtain ⟨values, solution, isMatch⟩ := projects.exists_solution lawful
  exact ⟨values, evaluates.inRangeModel_of_solution solution hasDomain,
    isProjection_of_matches projects isMatch⟩

theorem Lists.mem_of_mem_projections (lists : Lists config symbols formulas found)
    {projection : Valuation} (projected : projection ∈ config.projections symbols formulas) :
    projection ∈ found := by
  obtain ⟨values, model, isProjection⟩ := projected
  obtain ⟨completed, solution, same⟩ := evaluates.exists_solution lawful model
  obtain ⟨other, member, isMatch⟩ := lists.complete solution
  have same := eq_of_isProjection isProjection
    (isProjection_of_matches (lists.projects other member) isMatch)
    fun symbol occurs => (same symbol occurs).symm
  exact same ▸ member

theorem Lists.not_exceedsLimit (lists : Lists config symbols formulas found)
    (within : ∀ bound, limit = some bound → found.length ≤ bound) :
    ¬ ExceedsLimit config symbols limit formulas := by
  rintro ⟨bound, limited, less⟩
  have few : (config.projections symbols formulas).encard ≤ found.length :=
    encard_le_length fun _ => lists.mem_of_mem_projections evaluates lawful
  exact absurd (Nat.cast_lt.mp (lt_of_lt_of_le less few)) (Nat.not_lt.mpr (within bound limited))

/-- If none of the listed symbols occurs, the list says whether there is a model. -/
theorem Lists.eq_of_unlisted (lists : Lists config symbols formulas found)
    (nowhere : ∀ symbol ∈ symbols, ¬ Occurs symbol formulas)
    (member_iff : ∀ projection,
      projection ∈ found ↔ projection ∈ config.projections symbols formulas) :
    (∃ values, config.InRangeModel formulas values) ∧ found = [.empty] ∨
      (¬ ∃ values, config.InRangeModel formulas values) ∧ found = [] := by
  rcases found with _ | ⟨first, others⟩
  · refine .inr ⟨?_, rfl⟩
    rintro ⟨values, model⟩
    obtain ⟨completed, solution, -⟩ := evaluates.exists_solution lawful model
    obtain ⟨_, ⟨⟩, -⟩ := lists.complete solution
  · obtain ⟨values, model, isProjection⟩ := (member_iff first).mp List.mem_cons_self
    have isEmpty := eq_empty_of_unlisted isProjection nowhere
    refine .inl ⟨⟨values, model⟩, ?_⟩
    have alone : others = [] := List.eq_nil_iff_forall_not_mem.mpr fun other member => by
      obtain ⟨_, -, isProjection'⟩ := (member_iff other).mp (List.mem_cons_of_mem _ member)
      have same := eq_empty_of_unlisted isProjection' nowhere
      rw [isEmpty, ← same] at lists
      exact (List.nodup_cons.mp lists.nodup).1 member
    rw [alone, isEmpty]

theorem Exceeds.exceedsLimit (more : Exceeds config symbols limit formulas found)
    (hasDomain : ∀ symbol, Occurs symbol formulas → Encoder.symbolFailure config symbol = none) :
    (∃ symbol ∈ symbols, Occurs symbol formulas) ∧
      ExceedsLimit config symbols limit formulas := by
  obtain ⟨projection, member, occupied⟩ := more.occupied
  obtain ⟨entry, stored⟩ := List.exists_mem_of_ne_nil _ occupied
  have occurs := (more.projects projection member).mem_symbols.mp (List.mem_map_of_mem stored)
  obtain ⟨bound, limited, less⟩ := more.exceeds
  refine ⟨⟨entry.1, occurs⟩, bound, limited, lt_of_lt_of_le (Nat.cast_lt.mpr less) ?_⟩
  exact length_le_encard more.nodup fun other member' =>
    mem_projections evaluates lawful (more.projects other member') hasDomain

end Lists

/-- A list that is returned holds the projections of the models in range, each of them once.  If
none of the listed symbols occurs, the only projection is the empty one.  There is no list only
if there are more projections than the limit, and always then if all formulas are encoded and
there is room for nodes. -/
structure EnumeratesProjections (config : SolverConfig) (symbols : List Symbol)
    (limit : Option Nat) (formulas : List Expr)
    (result : Except EngineError (Option (List Valuation))) (after : OpenSession) : Prop where
  listed {found : List Valuation} : result = .ok (some found) → found.Nodup ∧
    ∀ projection, projection ∈ found ↔ projection ∈ config.projections symbols formulas
  unlisted {models : Option (List Valuation)} : (∀ symbol ∈ symbols, ¬ Occurs symbol formulas) →
    result = .ok models →
      (∃ values, config.InRangeModel formulas values) ∧ models = some [.empty] ∨
        (¬ ∃ values, config.InRangeModel formulas values) ∧ models = some []
  exceeds : result = .ok none →
    (∃ symbol ∈ symbols, Occurs symbol formulas) ∧ ExceedsLimit config symbols limit formulas
  exceeded : ExceedsLimit config symbols limit formulas →
    (∃ symbol ∈ symbols, Occurs symbol formulas) → after.session.Roomy →
    (∀ formula ∈ formulas, formula.hasPrime = false) →
    (∀ formula ∈ formulas, Encoder.assertionFailure config formula ≠ some .resourceLimit) →
      result = .ok none

/-- Formulas without primes and large atoms are encoded if all symbols have domains. -/
theorem assertionFailure_eq_none (unprimed : ∀ formula ∈ formulas, formula.hasPrime = false)
    (small : ∀ formula ∈ formulas, Encoder.assertionFailure config formula ≠ some .resourceLimit)
    (hasDomain : ∀ symbol, Occurs symbol formulas → Encoder.symbolFailure config symbol = none) :
    ∀ formula ∈ formulas, Encoder.assertionFailure config formula = none := by
  intro formula member
  cases fails : Encoder.assertionFailure config formula with
  | none => rfl
  | some cause =>
      cases Encoder.refuses_of_assertionFailure fails with
      | primed primed =>
          rw [unprimed formula member] at primed
          cases primed
      | unbounded occurs noDomain =>
          rw [hasDomain _ ⟨formula, member, occurs⟩] at noDomain
          cases noDomain
      | limited => exact absurd fails (small formula member)

section Enumerations

variable (workable : config.Workable) (punctual : config.timeoutPasses = false)
  (evaluates : config.Evaluates formulas)
include workable evaluates

/-- When the check of what is left is inconclusive although all formulas are encoded, nothing is
left. -/
theorem Progress.lists {found : List Valuation}
    (progress : Progress config symbols limit formulas found) {cause : UnknownCause}
    (answers : Session.answer config (excluding formulas found) = .unknown cause)
    (passes : ∀ formula ∈ formulas, Encoder.assertionFailure config formula = none) :
    Lists config symbols formulas found := by
  have supports : ∀ symbol, Occurs symbol formulas → Encoder.Supports config symbol := by
    rintro symbol ⟨formula, member, occurs⟩
    exact Encoder.supports_of_encodingFailure workable.countable
      (Option.or_eq_none_iff.mp (passes formula member)).1 occurs
  have noFailure : (excluding formulas found).findSome? (Encoder.assertionFailure config) =
      none := by
    rw [List.findSome?_eq_none_iff]
    refine List.forall_mem_append.mpr ⟨passes, List.forall_mem_map.mpr fun projection member => ?_⟩
    have restricts := progress.restrict projection member
    exact Encoder.assertionFailure_exclusion restricts.wellTyped fun symbol occurs =>
      supports symbol (restricts.mem_symbols.mp occurs).2
  have unsatisfiable : ¬ config.Satisfiable (excluding formulas found) := by
    intro satisfiable
    rw [Session.answer, noFailure] at answers
    dsimp only at answers
    rw [if_pos satisfiable] at answers
    cases answers
  refine (progress.finding evaluates.plain).lists fun values admits fulfills => unsatisfiable
    ⟨values, fun formula member symbol occurs => ?_, fulfills⟩
  -- Admitted values of supported symbols are in their domains.
  have supported := supports symbol (occurs_excluding progress.restrict member occurs)
  obtain ⟨⟨domain, size⟩, isDomain⟩ := exists_of_failure?_eq_none supported.hasDomain
  refine (SolverConfig.inDomain_iff_admits workable.lawful isDomain fun integer => ?_).mpr
    (admits formula member symbol occurs)
  have small := supported.small (by rw [integer]; rfl)
  unfold Encoder.domainSize at small
  rw [isDomain] at small
  exact lt_of_le_of_lt (Int.ofNat_le.mpr small) workable.countable

section Runs

variable (fewLevels : Encoding.levelTotal config alphabet < 2147483648)
  (inUse : state.InUse config alphabet formulas) (few : (allModels symbols limit state).2.Few)
include fewLevels inUse few

theorem enumerated_of_run {models : Option (List Valuation)}
    (run : (allModels symbols limit state).1 = .ok models) :
    Enumerated config symbols limit formulas models := by
  have fewBefore : state.Few := few.of_evolves (evolving_allModels symbols limit state)
  have keeps : (allModels symbols limit).Keeps state _ :=
    keeps_allModels workable fewLevels evaluates.plain (inUse.serves.mem_alphabet fewBefore)
      fun _ => inUse.serves
  exact (keeps.of_run (Prod.ext run rfl) few).1.1

include punctual

omit evaluates in
theorem hasDomain_of_run {models : Option (List Valuation)}
    (run : (allModels symbols limit state).1 = .ok models) (something : models ≠ some [])
    (symbol : Symbol) (occurs : Occurs symbol formulas) :
    Encoder.symbolFailure config symbol = none := by
  have encoded := (settles_allModels workable punctual fewLevels inUse few).2
  exact inUse.serves.hasDomain (few.of_evolves (evolving_allModels symbols limit state))
    (encoded models run something) occurs

theorem mem_iff_of_run {found : List Valuation}
    (run : (allModels symbols limit state).1 = .ok (some found)) (projection : Valuation) :
    projection ∈ found ↔ projection ∈ config.projections symbols formulas := by
  have lists := (enumerated_of_run workable evaluates fewLevels inUse few run).1
  refine ⟨fun member => ?_, lists.mem_of_mem_projections evaluates workable.lawful⟩
  refine mem_projections evaluates workable.lawful (lists.projects projection member)
    (hasDomain_of_run workable punctual fewLevels inUse few run ?_)
  rintro ⟨⟩
  cases member

theorem exceedsLimit_of_run (run : (allModels symbols limit state).1 = .ok none) :
    (∃ symbol ∈ symbols, Occurs symbol formulas) ∧
      ExceedsLimit config symbols limit formulas := by
  obtain ⟨_, more⟩ := enumerated_of_run workable evaluates fewLevels inUse few run
  exact more.exceedsLimit evaluates workable.lawful
    (hasDomain_of_run workable punctual fewLevels inUse few run (by rintro ⟨⟩))

/-- Neither a complete list nor an inconclusive check fits more projections than the limit. -/
theorem eq_none_of_exceedsLimit (more : ExceedsLimit config symbols limit formulas)
    (somewhere : ∃ symbol ∈ symbols, Occurs symbol formulas)
    (roomy : (allModels symbols limit state).2.session.Roomy)
    (unprimed : ∀ formula ∈ formulas, formula.hasPrime = false)
    (small : ∀ formula ∈ formulas, Encoder.assertionFailure config formula ≠ some .resourceLimit) :
    (allModels symbols limit state).1 = .ok none := by
  have lawful := workable.lawful
  cases run : (allModels symbols limit state).1 with
  | ok models =>
      have enumerated := enumerated_of_run workable evaluates fewLevels inUse few run
      cases models with
      | none => rfl
      | some found =>
          obtain ⟨lists, within | ⟨projection, member, isEmpty⟩⟩ := enumerated
          · exact absurd more (lists.not_exceedsLimit evaluates lawful within)
          · obtain ⟨symbol, isListed, occurs⟩ := somewhere
            have assigned := (lists.projects projection member).mem_symbols.mpr
              ⟨isListed, occurs⟩
            rw [Valuation.symbols, isEmpty] at assigned
            cases assigned
  | error error =>
      obtain ⟨found, cause, rfl, progress, answers⟩ :=
        (settles_allModels workable punctual fewLevels inUse few).1 error run
      obtain ⟨values, model⟩ := more.exists_model
      have passes := assertionFailure_eq_none unprimed small fun symbol occurs =>
        (model.encloses symbol occurs).1
      have lists := progress.lists workable evaluates (answers evaluates.plain roomy) passes
      exact absurd more (lists.not_exceedsLimit evaluates lawful progress.within)

/-- Enumerations are exact while few nodes are allocated. -/
theorem enumeratesProjections :
    EnumeratesProjections config symbols limit formulas (allModels symbols limit state).1
      (allModels symbols limit state).2 where
  listed run :=
    ⟨(enumerated_of_run workable evaluates fewLevels inUse few run).1.nodup,
      mem_iff_of_run workable punctual evaluates fewLevels inUse few run⟩
  unlisted {models} nowhere run := by
    cases models with
    | none =>
        obtain ⟨⟨symbol, isListed, occurs⟩, -⟩ :=
          exceedsLimit_of_run workable punctual evaluates fewLevels inUse few run
        exact absurd occurs (nowhere symbol isListed)
    | some found =>
        have lists := (enumerated_of_run workable evaluates fewLevels inUse few run).1
        exact (lists.eq_of_unlisted evaluates workable.lawful nowhere
          (mem_iff_of_run workable punctual evaluates fewLevels inUse few run)).imp
          (And.imp_right (congrArg some)) (And.imp_right (congrArg some))
  exceeds := exceedsLimit_of_run workable punctual evaluates fewLevels inUse few
  exceeded := eq_none_of_exceedsLimit workable punctual evaluates fewLevels inUse few

end Runs

end Enumerations

/-- A valuation is returned if the first check is conclusive.  It is empty if there is no model,
and if there is one and all checks are conclusive, it assigns exactly the listed symbols that
have the same value in all models. -/
structure DeterminesValues (config : SolverConfig) (symbols : List Symbol) (formulas : List Expr)
    (before : OpenSession) (result : Except EngineError Valuation) (after : OpenSession) :
    Prop where
  returns : (∀ cause, (Session.check before.session).1 ≠ .unknown cause) →
    ∃ forced, result = .ok forced
  unsatisfiable {forced : Valuation} : result = .ok forced →
    (¬ ∃ values, config.InRangeModel formulas values) → forced = .empty
  determined {forced : Valuation} : result = .ok forced →
    (∃ values, config.InRangeModel formulas values) →
      after.statistics.unknowns ≤ before.statistics.unknowns → ∀ symbol value,
        forced.get? symbol = some value ↔ symbol ∈ symbols ∧ Occurs symbol formulas ∧
          ∀ values, config.InRangeModel formulas values → values symbol = value

/-- Solutions and models in range force the same values of symbols that occur. -/
theorem forces_iff (evaluates : config.Evaluates formulas) (lawful : config.Lawful)
    (hasDomain : ∀ symbol, Occurs symbol formulas → Encoder.symbolFailure config symbol = none)
    {symbol : Symbol} (occurs : Occurs symbol formulas) {value : Value} :
    Forces config formulas symbol value ↔
      ∀ values, config.InRangeModel formulas values → values symbol = value := by
  constructor
  · intro forces values model
    obtain ⟨completed, solution, same⟩ := evaluates.exists_solution lawful model
    rw [← same symbol occurs]
    exact forces completed solution
  · exact fun forces values solution =>
      forces values (evaluates.inRangeModel_of_solution solution hasDomain)

theorem evolving_forcedValues (symbols : List Symbol) : (forcedValues symbols).Evolving := by
  rw [forcedValues_eq]
  refine evolving_isSatisfiable.bind fun answer => ?_
  split
  · exact evolving_model.bind fun model => evolving_collection model symbols .empty
  · exact evolving_pure _

/-- The forced values are exact while few nodes are allocated. -/
theorem determinesValues (workable : config.Workable) (punctual : config.timeoutPasses = false)
    (evaluates : config.Evaluates formulas)
    (fewLevels : Encoding.levelTotal config alphabet < 2147483648)
    (inUse : state.InUse config alphabet formulas) (few : (forcedValues symbols state).2.Few) :
    DeterminesValues config symbols formulas state (forcedValues symbols state).1
      (forcedValues symbols state).2 := by
  have lawful := workable.lawful
  have fewBefore : state.Few := few.of_evolves (evolving_forcedValues symbols state)
  have occursIn := inUse.serves.mem_alphabet fewBefore
  have searched : Searched config formulas state (forcedValues symbols state).1 :=
    settles_forcedValues workable punctual fewLevels inUse few
  refine ⟨fun conclusive => ?_, fun {forced} run noModel => ?_,
    fun {forced} run ⟨values, model⟩ conclusive symbol value => ?_⟩
  · generalize (forcedValues symbols state).1 = result at searched
    cases searched with
    | inconclusive unknown => exact absurd unknown (conclusive _)
    | unsatisfiable => exact ⟨_, rfl⟩
    | satisfiable => exact ⟨_, rfl⟩
  · rw [run] at searched
    cases searched with
    | unsatisfiable => rfl
    | satisfiable solves encoded =>
        obtain ⟨values, solution, -⟩ := (solves.solves evaluates.plain).exists_solution lawful
        exact absurd ⟨values, evaluates.inRangeModel_of_solution solution fun symbol =>
          inUse.serves.hasDomain fewBefore encoded⟩ noModel
  · have keeps : (forcedValues symbols).Keeps state _ :=
      keeps_forcedValues workable fewLevels evaluates.plain occursIn
        (Nat.le_refl state.statistics.unknowns) fun _ => inUse.serves
    have hasDomain : ∀ symbol, Occurs symbol formulas →
        Encoder.symbolFailure config symbol = none :=
      fun symbol occurs => (model.encloses symbol occurs).1
    rcases keeps.of_run (Prod.ext run rfl) few with excludes | collects
    · obtain ⟨completed, solution, -⟩ := evaluates.exists_solution lawful model
      exact absurd solution (excludes.not_solution completed)
    · constructor
      · intro found
        obtain ⟨isListed, occurs, forces⟩ := collects.forces found
        exact ⟨isListed, occurs, (forces_iff evaluates lawful hasDomain occurs).mp forces⟩
      · rintro ⟨isListed, occurs, forces⟩
        exact collects.complete conclusive isListed occurs
          ((forces_iff evaluates lawful hasDomain occurs).mpr forces)

theorem inUse_after (lawful : config.Lawful) (punctual : config.timeoutPasses = false)
    {theme : SessionTheme} {calls : List SessionCall}
    (history : state.session = (Session.start config theme).after calls) :
    state.InUse config (assertedSymbols calls) state.session.formulas := by
  refine ⟨⟨?_, rfl⟩, theme, calls, history⟩
  rw [history]
  exact (Session.start_soundWithin lawful (Nat.le_refl _) punctual theme).after calls
    fun call member formula asserts symbol => mem_assertedSymbols member asserts

/-- Both queries leave the assertions of every session as they were, however they end.  With few
nodes an enumeration ends after at most as many rounds as there are assignments, with an
inconclusive check as its only error, and if the formulas have values in range, it lists the
projections of the models in range.  The forced values are then those that all these models
share. -/
theorem modelQueries_exact (workable : config.Workable) (punctual : config.timeoutPasses = false)
    {theme : SessionTheme} {calls : List SessionCall}
    (history : state.session = (Session.start config theme).after calls)
    (fewLevels : Encoding.levelTotal config (assertedSymbols calls) < 2147483648)
    (symbols : List Symbol) :
    (∀ limit, (allModels symbols limit).KeepsFrames ∧
      ((allModels symbols limit state).2.Few →
        (∀ fuel, assignmentCount state.session + 2 ≤ fuel →
          inFrame (enumerateModels symbols limit fuel []) state = allModels symbols limit state) ∧
        (∀ error, (allModels symbols limit state).1 = .error error →
          ∃ cause, error = .solverUnknown cause) ∧
        (config.Evaluates state.session.formulas →
          EnumeratesProjections config symbols limit state.session.formulas
            (allModels symbols limit state).1 (allModels symbols limit state).2))) ∧
      (forcedValues symbols).KeepsFrames ∧
      ((forcedValues symbols state).2.Few → config.Evaluates state.session.formulas →
        DeterminesValues config symbols state.session.formulas state
          (forcedValues symbols state).1 (forcedValues symbols state).2) := by
  have inUse := inUse_after workable.lawful punctual history
  refine ⟨fun limit => ⟨keepsFrames_allModels symbols limit, fun few => ⟨fun fuel le => ?_,
    fun error fails => ?_, fun evaluates => ?_⟩⟩, keepsFrames_forcedValues symbols,
    fun few evaluates => ?_⟩
  · exact allModels_eq_of_le workable punctual fewLevels inUse few le
  · obtain ⟨_, cause, same, -⟩ :=
      (settles_allModels workable punctual fewLevels inUse few).1 error fails
    exact ⟨cause, same⟩
  · exact enumeratesProjections workable punctual evaluates fewLevels inUse few
  · exact determinesValues workable punctual evaluates fewLevels inUse few

def amountChoice : Expr :=
  .nary .or [Session.amountIs 1, Session.amountIs 2] .bool

def amountChoiceCalls : List SessionCall :=
  [.add amountChoice, .push, .track (Session.amountIs 2), .check, .pop]

def amountChoiceSession : OpenSession :=
  ⟨(Session.start Session.narrowConfig .plain).after amountChoiceCalls, {}⟩

theorem evaluates_amountChoice : Session.narrowConfig.Evaluates [amountChoice] := by
  have wellTyped : amountChoice.WellTyped := ⟨⟨rfl, by decide⟩,
    (Session.encodable_amountIs (by decide)).wellTyped,
    (Session.encodable_amountIs (by decide)).wellTyped, trivial⟩
  refine ⟨List.forall_mem_singleton.mpr ⟨wellTyped, rfl⟩, fun {values} _ => ?_⟩
  have known (number : Int) : (Session.amountIs number).evalBool (total values) =
      some (decide (values Session.amount = .int number)) :=
    rfl
  rw [List.forall_mem_singleton, amountChoice, Expr.evalBool_or, List.map_cons, List.map_cons,
    known, known]
  cases decide (values Session.amount = .int 1) <;>
    cases decide (values Session.amount = .int 2) <;> rfl

/-- Both numbers are listed, they are too many for one, and neither is forced. -/
theorem amountChoice_queried :
    Session.narrowConfig.Workable ∧ Session.narrowConfig.timeoutPasses = false ∧
      Encoding.levelTotal Session.narrowConfig (assertedSymbols amountChoiceCalls) < 2147483648 ∧
      amountChoiceSession.session.formulas = [amountChoice] ∧
      Session.narrowConfig.Evaluates [amountChoice] ∧
      (allModels [Session.amount] none amountChoiceSession).2.Few ∧
      (allModels [Session.amount] none amountChoiceSession).1 = .ok (some
        [⟨[(Session.amount, .int 1)]⟩, ⟨[(Session.amount, .int 2)]⟩]) ∧
      EnumeratesProjections Session.narrowConfig [Session.amount] none [amountChoice]
        (allModels [Session.amount] none amountChoiceSession).1
        (allModels [Session.amount] none amountChoiceSession).2 ∧
      (allModels [Session.amount] (some 1) amountChoiceSession).2.Few ∧
      (allModels [Session.amount] (some 1) amountChoiceSession).1 = .ok none ∧
      EnumeratesProjections Session.narrowConfig [Session.amount] (some 1) [amountChoice]
        (allModels [Session.amount] (some 1) amountChoiceSession).1
        (allModels [Session.amount] (some 1) amountChoiceSession).2 ∧
      (forcedValues [Session.amount] amountChoiceSession).2.Few ∧
      (forcedValues [Session.amount] amountChoiceSession).1 = .ok .empty ∧
      DeterminesValues Session.narrowConfig [Session.amount] [amountChoice] amountChoiceSession
        (forcedValues [Session.amount] amountChoiceSession).1
        (forcedValues [Session.amount] amountChoiceSession).2 := by
  have workable : Session.narrowConfig.Workable := ⟨Session.narrowConfig_lawful, by decide⟩
  have history : amountChoiceSession.session =
      (Session.start Session.narrowConfig .plain).after amountChoiceCalls := by
    rw [amountChoiceSession]
  have fewLevels : Encoding.levelTotal Session.narrowConfig
      (assertedSymbols amountChoiceCalls) < 2147483648 := by
    decide +kernel
  have asserted : amountChoiceSession.session.formulas = [amountChoice] := by
    decide +kernel
  have few : (allModels [Session.amount] none amountChoiceSession).2.Few := by
    decide +kernel
  have fewLimited : (allModels [Session.amount] (some 1) amountChoiceSession).2.Few := by
    decide +kernel
  have fewForced : (forcedValues [Session.amount] amountChoiceSession).2.Few := by
    decide +kernel
  obtain ⟨enumerations, -, forced⟩ :=
    modelQueries_exact workable rfl history fewLevels [Session.amount]
  rw [asserted] at enumerations forced
  exact ⟨workable, rfl, fewLevels, asserted, evaluates_amountChoice, few, by decide +kernel,
    ((enumerations none).2 few).2.2 evaluates_amountChoice, fewLimited, by decide +kernel,
    ((enumerations (some 1)).2 fewLimited).2.2 evaluates_amountChoice, fewForced,
    by decide +kernel, forced fewForced evaluates_amountChoice⟩

def flagSymbol : Symbol :=
  ⟨⟨"flag", .bool⟩, none⟩

theorem occurs_negatedChoice {symbol : Symbol} :
    Occurs symbol [Session.negatedChoice] ↔ symbol = flagSymbol := by
  have only : Session.negatedChoice.symbols = [flagSymbol] := by
    decide +kernel
  simp [Occurs, only]

theorem mem_projections_negatedChoice : ⟨[(flagSymbol, .bool true)]⟩ ∈
    Session.narrowConfig.projections [flagSymbol] [Session.negatedChoice] := by
  have sorted : OrderedMap.Sorted [(flagSymbol, Value.bool true)] :=
    List.pairwise_singleton _ _
  refine ⟨fun _ => .bool true, ⟨fun symbol occurs => ?_, ?_⟩, sorted, fun {symbol value} => ?_⟩
  · rw [occurs_negatedChoice.mp occurs]
    exact ⟨rfl, SolverConfig.admits_bool rfl true⟩
  · exact List.forall_mem_singleton.mpr rfl
  · refine sorted.find?_eq_some_iff.trans ?_
    rw [occurs_negatedChoice, List.mem_singleton, List.mem_singleton, and_self, Prod.mk.injEq,
      eq_comm (a := value)]

def negatedChoiceSession : OpenSession :=
  ⟨(Session.start Session.narrowConfig .plain).after [.add Session.negatedChoice], {}⟩

/-- With formulas that choose between truth values a projection can be missing, although
all of them have values and no limit is reached. -/
theorem choice_enumerated_wrongly : ¬ ∀ (config : SolverConfig) (theme : SessionTheme)
    (calls : List SessionCall) (state : OpenSession) (symbols : List Symbol)
    (found : List Valuation), config.Workable → config.timeoutPasses = false →
      state.session = (Session.start config theme).after calls →
      (∀ formula ∈ state.session.formulas, formula.WellTyped ∧ formula.hasPrime = false) →
      (∀ values, config.Encloses state.session.formulas values →
        ∀ formula ∈ state.session.formulas, (formula.evalBool (total values)).isSome) →
      (allModels symbols none state).2.session.Roomy →
      (allModels symbols none state).1 = .ok (some found) →
      ∀ projection ∈ config.projections symbols state.session.formulas, projection ∈ found := by
  intro claimed
  have history : negatedChoiceSession.session =
      (Session.start Session.narrowConfig .plain).after [.add Session.negatedChoice] := by
    rw [negatedChoiceSession]
  have asserted : negatedChoiceSession.session.formulas = [Session.negatedChoice] := by
    decide +kernel
  have listed := claimed Session.narrowConfig .plain _ negatedChoiceSession [flagSymbol]
    [⟨[(flagSymbol, .bool false)]⟩] ⟨Session.narrowConfig_lawful, by decide⟩ rfl history
  rw [asserted] at listed
  have missing := listed ?_ ?_ ⟨by decide +kernel, by decide +kernel⟩ (by decide +kernel) _
    mem_projections_negatedChoice
  · revert missing
    decide
  · rw [List.forall_mem_singleton]
    exact ⟨⟨⟨rfl, rfl⟩, ⟨rfl, rfl, rfl⟩, trivial, trivial, trivial⟩, rfl⟩
  · intro values encloses
    obtain ⟨truth, same⟩ := (encloses flagSymbol (occurs_negatedChoice.mpr rfl)).2.1.exists_bool
    rw [List.forall_mem_singleton]
    show (truthOf (UnaryOperator.not.evaluate (TernaryOperator.ite.evaluate
      (some (values flagSymbol)) (some (.bool false)) (some (values flagSymbol))))).isSome
    rw [same]
    cases truth <;> rfl

end Query

end AbstractionRefinement
