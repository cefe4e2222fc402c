import AbstractionRefinement.Proofs.EnumerationRounds

/-!
# Termination of enumerations

Every projection that is found assigns values of their domains to the listed symbols that
occur, so there are at most as many as the encoded symbols have assignments.  As many rounds
are allowed, so an enumeration never runs out of rounds, and its only error is an inconclusive
check.
-/

namespace AbstractionRefinement

open AbstractionRefinement.Computation

/-- Valuations of the same symbols differ in the values that they choose, so there are at most
as many as choices. -/
theorem Valuation.length_le_prod {found : List Valuation} (nodup : found.Nodup)
    {occurring : Finset Symbol} {choices : Symbol → Finset Value}
    (sorted : ∀ projection ∈ found, OrderedMap.Sorted projection.entries)
    (mem_symbols : ∀ projection ∈ found, ∀ symbol,
      symbol ∈ projection.symbols ↔ symbol ∈ occurring)
    (chosen : ∀ projection ∈ found, ∀ entry ∈ projection.entries, entry.2 ∈ choices entry.1) :
    found.length ≤ ∏ symbol ∈ occurring, (choices symbol).card := by
  classical
  let valueAt (projection : Valuation) (symbol : Symbol) (_ : symbol ∈ occurring) : Value :=
    (projection.get? symbol).getD default
  have entry_iff {projection : Valuation} (member : projection ∈ found) {symbol : Symbol}
      {value : Value} : (symbol, value) ∈ projection.entries ↔
        ∃ inside : symbol ∈ occurring, valueAt projection symbol inside = value := by
    have known : ∀ symbol ∈ occurring, ∃ value, projection.get? symbol = some value ∧
        (symbol, value) ∈ projection.entries := by
      intro symbol inside
      obtain ⟨⟨_, value⟩, stored, rfl⟩ :=
        List.mem_map.mp ((mem_symbols projection member symbol).mpr inside)
      exact ⟨value, (sorted projection member).find?_eq_some_iff.mpr stored, stored⟩
    constructor
    · intro stored
      have inside := (mem_symbols projection member symbol).mp (List.mem_map_of_mem stored)
      have found : projection.get? symbol = some value :=
        (sorted projection member).find?_eq_some_iff.mpr stored
      exact ⟨inside, by simp [valueAt, found]⟩
    · rintro ⟨inside, rfl⟩
      obtain ⟨value, found, stored⟩ := known symbol inside
      simpa [valueAt, found] using stored
  calc found.length = found.toFinset.card := (List.toFinset_card_of_nodup nodup).symm
    _ ≤ (occurring.pi choices).card := by
      refine Finset.card_le_card_of_injOn valueAt (fun projection member => ?_)
        fun projection member other member' same => ?_
      · have member := List.mem_toFinset.mp member
        refine Finset.mem_pi.mpr fun symbol inside => ?_
        exact chosen projection member _ ((entry_iff member).mpr ⟨inside, rfl⟩)
      · have member := List.mem_toFinset.mp member
        have member' := List.mem_toFinset.mp member'
        refine Valuation.ext_of_sorted (sorted projection member) (sorted other member') ?_
        rintro ⟨symbol, value⟩
        rw [entry_iff member, entry_iff member', same]
    _ = ∏ symbol ∈ occurring, (choices symbol).card := Finset.card_pi ..

namespace Encoder

variable {config : SolverConfig} {encoder : Encoder} {symbol : Symbol}

def sizeOf (encoder : Encoder) (symbol : Symbol) : Nat :=
  match OrderedMap.find? symbol encoder.symbols with
  | some encoded => encoded.size
  | none => 0

def choices (encoder : Encoder) (symbol : Symbol) : Finset Value :=
  match OrderedMap.find? symbol encoder.symbols with
  | some encoded => (Finset.range encoded.size).image encoded.domain.value
  | none => ∅

theorem card_choices_le (encoder : Encoder) (symbol : Symbol) :
    (encoder.choices symbol).card ≤ encoder.sizeOf symbol := by
  unfold choices sizeOf
  split
  · exact Finset.card_image_le.trans (Finset.card_range _).le
  · exact Nat.le_refl 0

theorem mem_choices (enumerable : encoder.Enumerable symbol) (has : encoder.HasDomains config)
    (workable : config.Workable) {value : Value} (admits : config.Admits symbol.decl value) :
    value ∈ encoder.choices symbol := by
  obtain ⟨encoded, found, few⟩ := enumerable
  rw [has.limit_eq] at few
  obtain ⟨offset, small, rfl⟩ := exists_offset_of_admits workable.lawful (has.known found)
    (fun integer => lt_of_le_of_lt (Int.ofNat_le.mpr (few integer)) workable.countable) admits
  unfold choices
  rw [found]
  exact Finset.mem_image_of_mem _ (Finset.mem_range.mpr small)

/-- The values of some encoded symbols can be combined in at most as many ways as those of
all. -/
theorem prod_sizeOf_le (has : encoder.HasDomains config)
    (sorted : OrderedMap.Sorted encoder.symbols) {occurring : Finset Symbol}
    (knows : ∀ symbol ∈ occurring, encoder.Knows symbol) :
    ∏ symbol ∈ occurring, encoder.sizeOf symbol ≤
      (encoder.symbols.map fun entry => entry.2.size).prod := by
  have sizeOf_eq {entry : Symbol × SymbolBits} (member : entry ∈ encoder.symbols) :
      encoder.sizeOf entry.1 = entry.2.size := by
    unfold sizeOf
    rw [sorted.find?_eq_some_iff.mpr member]
  have subset : occurring ⊆ (encoder.symbols.map Prod.fst).toFinset := by
    intro symbol inside
    obtain ⟨encoded, found⟩ := knows symbol inside
    exact List.mem_toFinset.mpr (List.mem_map_of_mem (OrderedMap.mem_of_find? found))
  have positive (symbol : Symbol) (member : symbol ∈ (encoder.symbols.map Prod.fst).toFinset) :
      1 ≤ encoder.sizeOf symbol := by
    obtain ⟨entry, stored, rfl⟩ := List.mem_map.mp (List.mem_toFinset.mp member)
    rw [sizeOf_eq stored]
    exact size_pos_of_domainOf (has.known (sorted.find?_eq_some_iff.mpr stored))
  calc ∏ symbol ∈ occurring, encoder.sizeOf symbol
      ≤ ∏ symbol ∈ (encoder.symbols.map Prod.fst).toFinset, encoder.sizeOf symbol :=
        Finset.prod_le_prod_of_subset_of_one_le' subset fun symbol member _ =>
          positive symbol member
    _ = ((encoder.symbols.map Prod.fst).map encoder.sizeOf).prod :=
        List.prod_toFinset _ sorted.nodup
    _ = (encoder.symbols.map fun entry => entry.2.size).prod := by
        rw [List.map_map]
        exact congrArg List.prod (List.map_congr_left fun entry member => sizeOf_eq member)

end Encoder

namespace OpenSession.Serves

variable {config : SolverConfig} {alphabet : List Symbol} {base : List Expr}
  {state : OpenSession} {symbol : Symbol} (serves : state.Serves config alphabet base)
  (few : state.Few) (encoded : ∀ assertion ∈ state.session.live, ∃ edge, assertion.encoded = .ok edge)
  (occurs : Occurs symbol base)
include serves few encoded occurs

theorem enumerable : state.session.encoder.Enumerable symbol := by
  obtain ⟨formula, member, occurs⟩ := occurs
  rw [← serves.formulas_eq] at member
  obtain ⟨assertion, live, rfl⟩ := List.mem_map.mp member
  obtain ⟨edge, isEdge⟩ := encoded assertion live
  exact ((serves.within.sound few.nodes_le).decides assertion live edge isEdge).enumerable
    (List.mem_singleton_self _) symbol occurs

theorem hasDomain : Encoder.symbolFailure config symbol = none := by
  obtain ⟨bits, found⟩ := (serves.enumerable few encoded occurs).knows
  unfold Encoder.symbolFailure
  rw [(Session.SoundWithin.hasDomains serves.within few).known found]
  rfl

end OpenSession.Serves

namespace Query

open OpenSession

variable {config : SolverConfig} {alphabet symbols : List Symbol} {limit : Option Nat}
  {base : List Expr} {found : List Valuation} {state : OpenSession}

theorem assignmentCount_eq (session : Session) : assignmentCount session =
    (session.encoder.symbols.map fun entry => entry.2.size).prod := by
  rw [List.prod_eq_foldl, List.foldl_map]
  rfl

/-- If all assertions are encoded, at most as many projections are found as there are
assignments. -/
theorem Progress.length_le (progress : Progress config symbols limit base found)
    (serves : state.Serves config alphabet base) (few : state.Few) (workable : config.Workable)
    (encoded : ∀ assertion ∈ state.session.live, ∃ edge, assertion.encoded = .ok edge) :
    found.length ≤ assignmentCount state.session := by
  classical
  have sound := serves.within.sound few.nodes_le
  have has := Session.SoundWithin.hasDomains serves.within few
  have enumerable {symbol : Symbol} (occurs : Occurs symbol base) :
      state.session.encoder.Enumerable symbol := serves.enumerable few encoded occurs
  have mem_occurring (symbol : Symbol) :
      symbol ∈ (symbols.filter fun symbol => Occurs symbol base).toFinset ↔
        symbol ∈ symbols ∧ Occurs symbol base := by
    rw [List.mem_toFinset, List.mem_filter, decide_eq_true_iff]
  calc found.length
      ≤ ∏ symbol ∈ (symbols.filter fun symbol => Occurs symbol base).toFinset,
          (state.session.encoder.choices symbol).card := by
        refine Valuation.length_le_prod progress.nodup
          (fun projection member => (progress.restrict projection member).sorted)
          (fun projection member symbol => ?_) fun projection member entry stored => ?_
        · rw [mem_occurring, (progress.restrict projection member).mem_symbols]
        · have restricts := progress.restrict projection member
          exact Encoder.mem_choices
            (enumerable (restricts.mem_symbols.mp (List.mem_map_of_mem stored)).2) has workable
            (restricts.admits stored)
    _ ≤ ∏ symbol ∈ (symbols.filter fun symbol => Occurs symbol base).toFinset,
          state.session.encoder.sizeOf symbol :=
        Finset.prod_le_prod' fun symbol _ => state.session.encoder.card_choices_le symbol
    _ ≤ (state.session.encoder.symbols.map fun entry => entry.2.size).prod :=
        Encoder.prod_sizeOf_le has sound.encoder.sorted fun symbol inside =>
          (enumerable ((mem_occurring symbol).mp inside).2).knows
    _ = assignmentCount state.session := (assignmentCount_eq state.session).symm

theorem evolving_allModels (symbols : List Symbol) (limit : Option Nat) :
    (allModels symbols limit).Evolving :=
  evolving_get.bind fun _ => evolving_inFrame (evolving_enumerateModels symbols limit _ [])

theorem keepsFrames_allModels (symbols : List Symbol) (limit : Option Nat) :
    (allModels symbols limit).KeepsFrames :=
  keepsFrames_get.bind fun _ => keepsFrames_inFrame (evolving_enumerateModels symbols limit _ [])

theorem Ended.discard {outer : List (List Assertion)} {rounds : Nat}
    {result : Except EngineError (Option (List Valuation))} {after : OpenSession}
    (ended : Ended config symbols limit base outer rounds result after)
    (frames : List (List Assertion)) (innermost : List Assertion) :
    Ended config symbols limit base outer rounds result { after with
      session := { after.session with outer := frames, innermost, status := none } } := by
  cases ended with
  | returned after encoded => exact .returned _ encoded
  | inconclusive progress answers =>
      exact .inconclusive progress fun plain roomy => answers plain ⟨roomy.unexhausted, roomy.few⟩
  | outOfFuel progress length_eq encoded => exact .outOfFuel progress length_eq encoded

variable (workable : config.Workable) (punctual : config.timeoutPasses = false)
  (fewLevels : Encoding.levelTotal config alphabet < 2147483648)
  (inUse : state.InUse config alphabet base)
include workable punctual fewLevels inUse

/-- The only error of an enumeration is an inconclusive check of what is left, and all
assertions are encoded if it finds something. -/
theorem settles_allModels : (allModels symbols limit).Settles state fun result after =>
    (∀ error, result = .error error → ∃ found cause, error = .solverUnknown cause ∧
      Progress config symbols limit base found ∧
      ((∀ formula ∈ base, formula.choosesTruth = false) → after.session.Roomy →
        Session.answer config (excluding base found) = .unknown cause)) ∧
    ∀ models, result = .ok models → models ≠ some [] →
      ∀ assertion ∈ state.session.live, ∃ edge, assertion.encoded = .ok edge := by
  intro few
  have fewBefore : state.Few := few.of_evolves (evolving_allModels symbols limit state)
  have listed := inUse.serves.mem_alphabet fewBefore
  have ended : (inFrame (enumerateModels symbols limit (assignmentCount state.session + 2)
      [])).Settles state (Ended config symbols limit base
        (state.session.innermost :: state.session.outer) (assignmentCount state.session + 2)) := by
    refine settles_inFrame (evolving_enumerateModels symbols limit _ []) inUse ?_
      fun result after frames innermost ended => ended.discard frames innermost
    intro framed inUse' frames
    have framedUse : framed.InUse config alphabet (excluding base []) := by
      rwa [excluding, List.map_nil, List.append_nil]
    have nothing : Progress config symbols limit base [] :=
      ⟨List.forall_mem_nil _, List.nodup_nil, fun _ _ => Nat.zero_le _⟩
    have ended := settles_enumerateModels workable punctual fewLevels listed
      (assignmentCount state.session + 2) framedUse nothing (absurd rfl)
    rwa [List.length_nil, Nat.zero_add, frames] at ended
  have ended := ended few
  change Ended config symbols limit base (state.session.innermost :: state.session.outer)
    (assignmentCount state.session + 2) (allModels symbols limit state).1
    (allModels symbols limit state).2 at ended
  generalize (allModels symbols limit state).1 = result at ended
  generalize (allModels symbols limit state).2 = after at ended
  have live_eq : (state.session.innermost :: state.session.outer).reverse.flatten =
      state.session.live := by
    rw [List.reverse_cons, List.flatten_append, List.flatten_singleton, Session.live]
  constructor
  · rintro error rfl
    cases ended with
    | inconclusive progress answers => exact ⟨_, _, rfl, progress, answers⟩
    | outOfFuel progress length_eq encoded =>
        -- There would be more projections than assignments.
        exfalso
        rw [live_eq] at encoded
        have bound := progress.length_le inUse.serves fewBefore workable
          (encoded (by rintro rfl; cases length_eq))
        omega
  · rintro models rfl something
    cases ended with
    | returned after encoded => exact live_eq ▸ encoded something

theorem allModels_eq_of_le (few : (allModels symbols limit state).2.Few) {fuel : Nat}
    (le : assignmentCount state.session + 2 ≤ fuel) :
    inFrame (enumerateModels symbols limit fuel []) state = allModels symbols limit state := by
  have enough : (enumerateModels symbols limit (assignmentCount state.session + 2) []
      { state with session := (Session.push state.session).2 }).1 ≠ .error .outOfFuel := by
    intro outOfFuel
    obtain ⟨_, _, ⟨⟩, -⟩ :=
      (settles_allModels workable punctual fewLevels inUse few).1 .outOfFuel outOfFuel
  show _ = inFrame (enumerateModels symbols limit (assignmentCount state.session + 2) []) state
  rw [inFrame_run, inFrame_run, enumerateModels_of_le le enough]

end Query

end AbstractionRefinement
