import AbstractionRefinement.Proofs.SessionAnswers
import AbstractionRefinement.Proofs.StrongestConsequences

/-!
# Interpolants of sessions

After an unsatisfiable answer, the assertions of some partitions have an interpolant with
the other ones: it mentions only symbols of both, follows from the former and contradicts
the latter.  It is the strongest one unless arithmetic overflows.  All this is meant over
the intervals that the interpolant is computed over, holds for assertions that do not
choose between truth values, and as long as at most `32767` nodes are allocated.
-/

namespace AbstractionRefinement

/-- Whether the assertion belongs to one of the partitions. -/
def Assertion.isIn (markers : List Nat) (assertion : Assertion) : Bool :=
  match assertion.marker with
  | some marker => markers.contains marker
  | none => false

namespace Session

variable {config : SolverConfig} {theme : SessionTheme} {alphabet : List Symbol}
  {calls : List SessionCall} {session : Session} {markers : List Nat}

/-- The formulas of the partitions. -/
def inside (session : Session) (markers : List Nat) : List Expr :=
  (session.live.filter (Assertion.isIn markers)).map Assertion.formula

/-- The formulas of the other assertions. -/
def outside (session : Session) (markers : List Nat) : List Expr :=
  (session.live.filter fun assertion => !assertion.isIn markers).map Assertion.formula

/-- The symbols that occur only inside the partitions. -/
def localSymbols (session : Session) (markers : List Nat) : List Symbol :=
  (Expr.collectSymbolsAll (session.inside markers) []).filter fun symbol =>
    !OrderedSet.contains symbol (Expr.collectSymbolsAll (session.outside markers) [])

/-- The encodings that an interpolant over widened intervals takes. -/
def widenedInterpolation (formulas : List Expr) (symbols : List Symbol) : Encoding Expr := do
  let edge ← Encoder.encodeAllValid formulas
  projectAway symbols edge

/-- The encoder over the widened intervals, if an interpolant is computed over these. -/
def interpolationStart (session : Session) (markers : List Nat) : Option Encoder :=
  (widenedEncoder session.config session.formulas false).filter fun encoder =>
    (widenedInterpolation (session.inside markers) (session.localSymbols markers)
      encoder).1.isOk

/-- The computation of an interpolant, with the encoder at its end. -/
def interpolation (session : Session) (markers : List Nat) : Except UnknownCause Expr × Encoder :=
  match session.interpolationStart markers with
  | some encoder =>
      widenedInterpolation (session.inside markers) (session.localSymbols markers) encoder
  | none =>
      interpolationEncoding (session.live.filter (Assertion.isIn markers))
        (session.localSymbols markers) session.encoder

/-- The intervals that an interpolant is computed over: the widened ones, or the configured
ones if these are trusted, if no integer symbol occurs, or if there is no result over the
widened ones. -/
def interpolationRanges (session : Session) (markers : List Nat) : SolverConfig :=
  if (session.interpolationStart markers).isSome then
    session.config.widened (Expr.literalBoundsAll none session.formulas)
  else session.config

/-- Interpolants are given after unsatisfiable answers. -/
theorem interpolant_eq_ok {interpolant : Expr}
    (given : (Session.interpolant markers session).1 = .ok interpolant) :
    session.status = some .unsat ∧ (session.interpolation markers).1 = .ok interpolant := by
  generalize run : Session.interpolant markers session = outcome at given
  unfold Session.interpolant at run
  rw [SessionState.bind_run, SessionState.get_run] at run
  dsimp only at run
  split at run
  case isTrue =>
    rw [← run] at given
    cases given
  case isFalse =>
    rw [SessionState.bind_run, SessionState.get_run] at run
    dsimp only at run
    generalize markers.find? (fun marker => session.markers ≤ marker) = unknown at run
    cases unknown with
    | some marker =>
        rw [← run] at given
        cases given
    | none =>
        dsimp only at run
        rw [SessionState.bind_run, SessionState.get_run] at run
        dsimp only at run
        split at run
        case isTrue =>
          rw [← run] at given
          cases given
        case isFalse answered =>
          refine ⟨not_not.mp answered, ?_⟩
          rw [SessionState.bind_run, SessionState.get_run] at run
          dsimp only at run
          rw [SessionState.bind_run, SessionState.get_run] at run
          dsimp only at run
          generalize computed : (widenedEncoder session.config _ false).bind _ = overWidened at run
          change (widenedEncoder session.config session.formulas false).bind (fun encoder =>
            (widenedInterpolation (session.inside markers) (session.localSymbols markers)
              encoder).1.toOption) = overWidened at computed
          cases overWidened with
          | some result =>
              rw [← run] at given
              cases given
              obtain ⟨encoder, widened, returned⟩ := Option.bind_eq_some_iff.mp computed
              have returned := eq_ok_of_toOption_eq_some returned
              have start : session.interpolationStart markers = some encoder := by
                rw [interpolationStart, widened, Option.filter_some, returned]
                rfl
              rw [interpolation, start, returned]
          | none =>
              rw [← run] at given
              have start : session.interpolationStart markers = none := by
                rw [interpolationStart, Option.filter_eq_none_iff]
                intro encoder widened isOk
                rw [widened, Option.bind_some] at computed
                cases returned : (widenedInterpolation (session.inside markers)
                    (session.localSymbols markers) encoder).1 with
                | error cause =>
                    rw [returned] at isOk
                    cases isOk
                | ok result =>
                    rw [returned] at computed
                    cases computed
              rw [interpolation, start]
              change ((interpolationEncoding (session.live.filter (Assertion.isIn markers))
                (session.localSymbols markers) session.encoder).1.mapError SolverError.incomplete) =
                  .ok interpolant at given
              dsimp only
              generalize (interpolationEncoding _ _ session.encoder).1 = result at given ⊢
              cases result with
              | error cause => cases given
              | ok result => exact congrArg Except.ok (Except.ok.inj given)

open Encoding

theorem levelsOf_eq_of_grown {before after : Encoder} (grown : before.Extends alphabet after)
    {symbols : List Symbol} (knows : ∀ symbol ∈ symbols, before.Knows symbol) :
    after.levelsOf symbols = before.levelsOf symbols := by
  refine List.flatMap_congr fun symbol member => ?_
  obtain ⟨encoded, found⟩ := knows symbol member
  rw [found, grown.find?_eq found]

/-- What is left after some symbols of formulas are projected away is decoded from a
projection. -/
theorem ensures_projectAway {encoder : Encoder} {formulas : List Expr} {edge : Edge}
    {symbols : List Symbol} (among : ∀ symbol ∈ symbols, Occurs symbol formulas)
    (plain : ∀ formula ∈ formulas, formula.choosesTruth = false)
    (decides : encoder.Decides formulas edge) :
    Ensures alphabet (projectAway symbols edge) encoder fun consequence after =>
      after.config.Exact → after.nextLevel ≤ 2147483648 →
        after.ProjectsTo formulas symbols consequence := by
  have knows : ∀ symbol ∈ symbols, encoder.Knows symbol := by
    intro symbol member
    obtain ⟨formula, inside, occurs⟩ := among symbol member
    exact (decides.enumerable inside symbol occurs).knows
  apply ensures_of_wellFormed
  intro wellFormed
  refine ensures_get.bind ?_
  rintro _ _ - - ⟨rfl, rfl⟩
  refine (ensures_diagram fun wellFormed => DiagramManager.quantify_delivers wellFormed.diagrams
    wellFormed.distinct decides.means.owns _).bind ?_
  intro projected after grown wellFormed' ⟨owns, quantifies⟩
  refine ensures_checkExhausted.bind ?_
  intro _ last grown' wellFormed'' unexhausted
  refine ensures_get.bind ?_
  rintro _ _ - - ⟨rfl, rfl⟩
  refine ensures_lift.mono ?_
  rintro consequence _ - - ⟨decoded, rfl⟩ exact_ few
  have quantifies' := grown'.diagrams.quantifies wellFormed'.diagrams.toOrdered
    (grown.diagrams.owns decides.means.owns) owns
    (quantifies (grown'.diagrams.unexhausted unexhausted))
  rw [← levelsOf_eq_of_grown (grown.trans grown') knows] at quantifies'
  exact ⟨edge, projected, ⟨wellFormed'', exact_, few, unexhausted, plain,
    (decides.grow wellFormed grown).grow wellFormed' grown', grown'.diagrams.owns owns,
    quantifies'⟩, decoded⟩

theorem budgeted_widenedInterpolation (formulas : List Expr) (symbols : List Symbol) :
    Encoding.Budgeted (widenedInterpolation formulas symbols) :=
  (budgeted_encodeAllValid formulas).bind fun edge => budgeted_projectAway symbols edge

theorem hasPrime_of_encodeAllValid {encoder : Encoder} {formulas : List Expr} {edge : Edge}
    (returned : (Encoder.encodeAllValid formulas encoder).1 = .ok edge) :
    ∀ formula ∈ formulas, formula.hasPrime = false := by
  intro formula member
  obtain ⟨_, _, folded, -⟩ := exists_of_bind returned
  obtain ⟨_, _, _, round⟩ := exists_of_foldlM folded member
  obtain ⟨_, _, encodedValid, -⟩ := exists_of_bind round
  obtain ⟨_, _, encoded, -⟩ := exists_of_bind encodedValid
  exact hasPrime_of_encode encoded

theorem occurs_of_mem_localSymbols {symbol : Symbol}
    (isLocal : symbol ∈ session.localSymbols markers) : Occurs symbol (session.inside markers) := by
  have member := (List.mem_filter.mp isLocal).1
  rw [Expr.mem_collectSymbolsAll] at member
  exact member.resolve_left List.not_mem_nil

theorem strongestConsequence_of_capped {budget : Nat} {formulas : List Expr}
    {kept : Symbol → Prop} {consequence : Expr}
    (strongest : StrongestConsequence (config.capped budget) formulas kept consequence) :
    StrongestConsequence config formulas kept consequence :=
  ⟨strongest.encodable, strongest.boolean, strongest.unprimed, strongest.mentions,
    strongest.decided, strongest.follows, strongest.completes⟩

/-- A projection over widened intervals. -/
theorem exists_projectsTo_of_widened (exact_ : (config.capped 32768).Exact)
    (trusted : 0 ≤ config.margin) {formulas first : List Expr} {symbols : List Symbol}
    (among : ∀ symbol ∈ symbols, Occurs symbol first)
    (plain : ∀ formula ∈ first, formula.choosesTruth = false) {encoder : Encoder}
    (widened : widenedEncoder config formulas false = some encoder)
    (few : (widenedInterpolation first symbols encoder).2.manager.nodes.size ≤ 32768)
    (fewLevels : (widenedInterpolation first symbols encoder).2.nextLevel ≤ 2147483648)
    {consequence : Expr}
    (returned : (widenedInterpolation first symbols encoder).1 = .ok consequence) :
    ∃ last : Encoder,
      last.config = (config.widened (Expr.literalBoundsAll none formulas)).capped 32768 ∧
        last.ProjectsTo first symbols consequence := by
  have ensures : Ensures (Expr.collectSymbolsAll first []) (widenedInterpolation first symbols)
      (encoder.capped 32768) fun consequence after => after.config.Exact →
        after.nextLevel ≤ 2147483648 → after.ProjectsTo first symbols consequence := by
    refine (ensures_encodeAllValid fun formula member symbol occurs =>
      (Expr.mem_collectSymbolsAll first []).mpr (.inr ⟨formula, member, occurs⟩)).bind ?_
    intro edge after _ _ ⟨_, decides⟩
    exact ensures_projectAway among plain decides
  have exactWidened : ((config.widened (Expr.literalBoundsAll none formulas)).capped 32768).Exact :=
    exact_.widened trusted _
  have isNew : encoder.capped 32768 = (Encoder.new
      ((config.widened (Expr.literalBoundsAll none formulas)).capped 32768)).timed false := by
    unfold widenedEncoder at widened
    split at widened
    · cases widened
    · cases widened
      rfl
  have wellFormed : (encoder.capped 32768).WellFormed := by
    rw [isNew]
    exact (Encoder.wellFormed_new exactWidened.distinct).timed false
  obtain ⟨-, grown, returns⟩ := (budgeted_widenedInterpolation first symbols).ensures
    (early_of_widenedEncoder widened) few ensures wellFormed
  have sameConfig := grown.config_eq
  rw [isNew] at sameConfig
  exact ⟨_, sameConfig,
    returns consequence returned (by rw [sameConfig]; exact exactWidened) fewLevels⟩

/-- A projection over the configured intervals. -/
theorem SoundWithin.exists_projectsTo_of_configured
    (within : session.SoundWithin 32768 config alphabet) (exact_ : (config.capped 32768).Exact)
    {condition : Assertion → Bool} {symbols : List Symbol}
    (among : ∀ symbol ∈ symbols,
      Occurs symbol ((session.live.filter condition).map Assertion.formula))
    (plain : ∀ formula ∈ (session.live.filter condition).map Assertion.formula,
      formula.choosesTruth = false)
    (few : (interpolationEncoding (session.live.filter condition) symbols
      session.encoder).2.manager.nodes.size ≤ 32768)
    (fewLevels : (interpolationEncoding (session.live.filter condition) symbols
      session.encoder).2.nextLevel ≤ 2147483648) {consequence : Expr}
    (returned : (interpolationEncoding (session.live.filter condition) symbols
      session.encoder).1 = .ok consequence) :
    ∃ last : Encoder, last.config = config.capped 32768 ∧
      last.ProjectsTo ((session.live.filter condition).map Assertion.formula) symbols
        consequence := by
  have budgeted := budgeted_interpolationEncoding (session.live.filter condition) symbols
  have sound := within.sound (Nat.le_trans (budgeted.nodes_le session.encoder) few)
  have ensures : Ensures alphabet (interpolationEncoding (session.live.filter condition) symbols)
      (session.encoder.capped 32768) fun consequence after => after.config.Exact →
        after.nextLevel ≤ 2147483648 → after.ProjectsTo
          ((session.live.filter condition).map Assertion.formula) symbols consequence := by
    refine (ensures_conjoin fun assertion member edge encoded => sound.decides assertion
      (List.mem_filter.mp member).1 edge encoded).bind ?_
    intro edge after _ _ ⟨_, _, decides⟩
    exact ensures_projectAway among plain decides
  obtain ⟨-, grown, returns⟩ := budgeted.ensures within.early few ensures sound.encoder
  have sameConfig : ((interpolationEncoding (session.live.filter condition) symbols
      session.encoder).2.capped 32768).config = config.capped 32768 := by
    rw [grown.config_eq, ← within.config_eq]
    exact sound.config_eq
  exact ⟨_, sameConfig, returns consequence returned (by rw [sameConfig]; exact exact_) fewLevels⟩

/-- What is computed as an interpolant is decoded from a projection of the formulas inside. -/
theorem SoundWithin.exists_projectsTo (within : session.SoundWithin 32768 config alphabet)
    (exact_ : (config.capped 32768).Exact) (trusted : 0 ≤ config.margin)
    (plain : ∀ formula ∈ session.inside markers, formula.choosesTruth = false)
    (few : (session.interpolation markers).2.manager.nodes.size ≤ 32768)
    (fewLevels : (session.interpolation markers).2.nextLevel ≤ 2147483648) {interpolant : Expr}
    (returned : (session.interpolation markers).1 = .ok interpolant) :
    ∃ last : Encoder, last.config = (session.interpolationRanges markers).capped 32768 ∧
      last.ProjectsTo (session.inside markers) (session.localSymbols markers) interpolant := by
  have among : ∀ symbol ∈ session.localSymbols markers, Occurs symbol (session.inside markers) :=
    fun _ => occurs_of_mem_localSymbols
  have sameConfig := within.config_eq
  unfold interpolation at few fewLevels returned
  unfold interpolationRanges
  cases start : session.interpolationStart markers with
  | some encoder =>
      rw [start] at few fewLevels returned
      rw [Option.isSome_some, if_pos rfl, sameConfig]
      refine exists_projectsTo_of_widened exact_ trusted among plain ?_ few fewLevels returned
      rw [← sameConfig]
      exact (Option.filter_eq_some_iff.mp start).1
  | none =>
      rw [start] at few fewLevels returned
      rw [if_neg (by simp), sameConfig]
      exact within.exists_projectsTo_of_configured exact_ among plain few fewLevels returned

/-- What is computed as an interpolant is the strongest consequence of the formulas inside
over the symbols that are not local. -/
theorem SoundWithin.strongestConsequence (within : session.SoundWithin 32768 config alphabet)
    (exact_ : (config.capped 32768).Exact) (trusted : 0 ≤ config.margin)
    (plain : ∀ formula ∈ session.inside markers, formula.choosesTruth = false)
    (few : (session.interpolation markers).2.manager.nodes.size ≤ 32768)
    (fewLevels : (session.interpolation markers).2.nextLevel ≤ 2147483648) {interpolant : Expr}
    (returned : (session.interpolation markers).1 = .ok interpolant) :
    StrongestConsequence (session.interpolationRanges markers) (session.inside markers)
      (· ∉ session.localSymbols markers) interpolant := by
  obtain ⟨last, sameConfig, edge, projected, projects, decoded⟩ :=
    within.exists_projectsTo exact_ trusted plain few fewLevels returned
  have strongest := projects.strongestConsequence decoded
  rw [sameConfig] at strongest
  exact strongestConsequence_of_capped strongest

/-- Formulas inside speak about current states if an interpolant is computed. -/
theorem SoundWithin.hasPrime_eq_false (within : session.SoundWithin 32768 config alphabet)
    {interpolant : Expr} (returned : (session.interpolation markers).1 = .ok interpolant) :
    ∀ formula ∈ session.inside markers, formula.hasPrime = false := by
  unfold interpolation at returned
  split at returned
  · obtain ⟨_, _, encoded, -⟩ := exists_of_bind returned
    exact hasPrime_of_encodeAllValid encoded
  · obtain ⟨_, _, conjoined, -⟩ := exists_of_bind returned
    obtain ⟨_, _, folded, -⟩ := exists_of_bind conjoined
    intro formula member
    obtain ⟨assertion, isInside, rfl⟩ := List.mem_map.mp member
    obtain ⟨_, _, _, round⟩ := exists_of_foldlM folded isInside
    obtain ⟨edge, _, encoded, -⟩ := exists_of_bind round
    refine within.current assertion (List.mem_filter.mp isInside).1 edge ?_
    cases known : assertion.encoded with
    | error cause =>
        rw [known] at encoded
        cases encoded
    | ok edge' =>
        rw [known] at encoded
        cases encoded
        rfl

/-- The formula is an interpolant of two lists of formulas over the values that the ranges
admit.  It is the strongest one if no arithmetic of the first list overflows. -/
structure Interpolates (ranges : SolverConfig) (first second : List Expr) (interpolant : Expr) :
    Prop where
  shared {symbol : Symbol} : symbol ∈ interpolant.symbols →
    Occurs symbol first ∧ Occurs symbol second
  follows {values : Symbol → Value} : ranges.AdmitsAll values first → Satisfies values first →
    Satisfies values [interpolant]
  excludes {values : Symbol → Value} : ranges.AdmitsAll values second →
    Satisfies values [interpolant] → ¬ Satisfies values second
  strongest {consequence : Expr} :
    (∀ values, ranges.AdmitsAll values first → ∀ formula ∈ first,
      ¬ formula.Overflows fun symbol => some (values symbol)) →
    (∀ symbol ∈ consequence.symbols, Occurs symbol first ∧ Occurs symbol second) →
    (∀ values, ranges.AdmitsAll values first → Satisfies values first →
      Satisfies values [consequence]) →
    ∀ values, (∀ symbol, Occurs symbol first → Occurs symbol second →
        ranges.Admits symbol.decl (values symbol)) →
      Satisfies values [interpolant] → Satisfies values [consequence]

theorem satisfies_singleton {values : Symbol → Value} {formula : Expr} :
    Satisfies values [formula] ↔
      formula.evalBool (fun symbol => some (values symbol)) = some true :=
  List.forall_mem_singleton

theorem mem_formulas_iff {formula : Expr} : formula ∈ session.formulas ↔
    formula ∈ session.inside markers ∨ formula ∈ session.outside markers := by
  unfold formulas inside outside
  simp only [List.mem_map, List.mem_filter, ← exists_or]
  refine exists_congr fun assertion => ?_
  cases assertion.isIn markers <;> simp

theorem not_mem_localSymbols_iff {symbol : Symbol} : symbol ∉ session.localSymbols markers ↔
    (Occurs symbol (session.inside markers) → Occurs symbol (session.outside markers)) := by
  have sorted : OrderedSet.Sorted (Expr.collectSymbolsAll (session.outside markers) []) :=
    Expr.sorted_collectSymbolsAll _ .nil
  have contains : OrderedSet.contains symbol _ = true ↔ _ := sorted.contains_iff
  rw [Expr.mem_collectSymbolsAll] at contains
  rw [localSymbols, List.mem_filter, Expr.mem_collectSymbolsAll, not_and, Bool.not_eq_true',
    Bool.not_eq_false, contains]
  simp only [List.not_mem_nil, false_or]
  rfl

/-- Values of the ranges of an interpolant are considered by the answer before it. -/
theorem considers_of_interpolationRanges (sameConfig : session.config = config)
    (trusted : 0 ≤ config.margin) {values : Symbol → Value}
    (admits : (session.interpolationRanges markers).AdmitsAll values session.formulas) :
    config.Considers session.formulas values := by
  unfold interpolationRanges at admits
  rw [sameConfig] at admits
  split at admits
  case isFalse => exact .inl admits
  case isTrue isSome =>
    refine .inr ⟨?_, admits⟩
    obtain ⟨encoder, start⟩ := Option.isSome_iff_exists.mp isSome
    have widened := (Option.filter_eq_some_iff.mp start).1
    unfold widenedEncoder at widened
    split at widened
    · cases widened
    case isFalse matters =>
      rw [Bool.or_eq_true, not_or, decide_eq_true_iff, sameConfig] at matters
      omega

/-- What a session gives as an interpolant is one. -/
theorem SoundWithin.interpolates (within : session.SoundWithin 32768 config alphabet)
    (lawful : config.Lawful) (trusted : 0 ≤ config.margin)
    (countable : (config.maxAtomAssignments : Int) < maxInt64)
    (encodable : ∀ formula ∈ session.formulas, formula.Encodable)
    (few : session.encoder.manager.size ≤ 32767)
    (fewConfirming : confirmationSize config session.formulas ≤ 32767)
    (fewInterpolating : (session.interpolation markers).2.manager.size ≤ 32767)
    (fewLevels : (session.interpolation markers).2.nextLevel ≤ 2147483648) {interpolant : Expr}
    (given : (Session.interpolant markers session).1 = .ok interpolant) :
    Interpolates (session.interpolationRanges markers) (session.inside markers)
      (session.outside markers) interpolant := by
  obtain ⟨unsat, returned⟩ := interpolant_eq_ok given
  have exact_ : (config.capped 32768).Exact :=
    ⟨lawful, countable, DiagramManager.distinctKeys_of_le (Nat.min_le_right _ _)⟩
  have isInside {formula : Expr} (member : formula ∈ session.inside markers) :
      formula ∈ session.formulas := mem_formulas_iff.mpr (.inl member)
  have isOutside {formula : Expr} (member : formula ∈ session.outside markers) :
      formula ∈ session.formulas := mem_formulas_iff.mpr (.inr member)
  unfold DiagramManager.size at few fewInterpolating
  have strongest := within.strongestConsequence exact_ trusted
    (fun formula member => (encodable formula (isInside member)).plain) (by omega) fewLevels returned
  have refutes := within.refutes (by omega) unsat (Nat.lt_succ_of_le fewConfirming) exact_
    fun formula member => (encodable formula member).plain
  refine ⟨fun occurs => ?_, fun {values} admits satisfies => ?_,
    fun {values} admits satisfies satisfies' => ?_,
    fun {consequence} exactly among follows values admits satisfies => ?_⟩
  · obtain ⟨inside, kept⟩ := strongest.mentions occurs
    exact ⟨inside, not_mem_localSymbols_iff.mp kept inside⟩
  · rw [satisfies_singleton]
    exact strongest.follows admits (satisfies.fulfills
      (fun formula member => encodable formula (isInside member)) admits)
  · rw [satisfies_singleton] at satisfies
    obtain ⟨values', admits', fulfills', same⟩ := strongest.completes
      (fun symbol occurs kept =>
        have ⟨formula, member, inside⟩ := not_mem_localSymbols_iff.mp kept occurs
        admits formula member symbol inside) satisfies
    have unchanged {symbol : Symbol} (occurs : Occurs symbol (session.outside markers)) :
        values' symbol = values symbol :=
      same symbol fun _ => not_mem_localSymbols_iff.mpr fun _ => occurs
    have fulfills := (satisfies'.fulfills (fun formula member => encodable formula (isOutside member))
      admits).congr fun symbol occurs => (unchanged occurs).symm
    have admitsAll : (session.interpolationRanges markers).AdmitsAll values' session.formulas := by
      intro formula member symbol occurs
      rcases mem_formulas_iff.mp member with member | member
      · exact admits' formula member symbol occurs
      · rw [unchanged ⟨formula, member, occurs⟩]
        exact admits formula member symbol occurs
    exact refutes values' (considers_of_interpolationRanges within.config_eq trusted admitsAll)
      fun formula member => (mem_formulas_iff.mp member).elim (fulfills' formula) (fulfills formula)
  · rw [satisfies_singleton] at satisfies
    obtain ⟨values', admits', fulfills', same⟩ := strongest.completes
      (fun symbol occurs kept => admits symbol occurs (not_mem_localSymbols_iff.mp kept occurs))
      satisfies
    have satisfies' : Satisfies values' (session.inside markers) := by
      intro formula member
      obtain ⟨assertion, live, rfl⟩ := List.mem_map.mp member
      rw [← fulfills' _ member]
      refine ((encodable _ (isInside member)).evalBool_eq
        (within.boolean assertion (List.mem_filter.mp live).1)
        (within.hasPrime_eq_false returned _ member) fun symbol occurs =>
          ⟨_, rfl, (admits' _ member symbol occurs).1⟩).resolve_right fun overflow => ?_
      exact exactly values' admits' _ member overflow.2
    have holds := follows values' admits' satisfies'
    rw [satisfies_singleton] at holds ⊢
    rw [← holds]
    exact Expr.evalBool_congr fun symbol occurs => congrArg some
      (same symbol fun _ => not_mem_localSymbols_iff.mpr fun _ => (among symbol occurs).2).symm

/-- Whatever calls led to an unsatisfiable answer, what is then given as an interpolant is
one. -/
theorem interpolates_of_unsat (lawful : config.Lawful) (trusted : 0 ≤ config.margin)
    (countable : (config.maxAtomAssignments : Int) < maxInt64)
    (after : (start config theme).after calls = session)
    (encodable : ∀ formula ∈ session.formulas, formula.Encodable)
    (unsat : session.status = some .unsat)
    (few : session.encoder.manager.size ≤ 32767)
    (fewConfirming : confirmationSize config session.formulas ≤ 32767)
    (fewInterpolating : (session.interpolation markers).2.manager.size ≤ 32767)
    (fewLevels : (session.interpolation markers).2.nextLevel ≤ 2147483648) {interpolant : Expr}
    (given : (Session.interpolant markers session).1 = .ok interpolant) :
    Interpolates (session.interpolationRanges markers) (session.inside markers)
      (session.outside markers) interpolant := by
  subst after
  have within := soundWithin_of_unsat lawful theme calls unsat
  exact within.interpolates lawful trusted countable encodable few fewConfirming fewInterpolating
    fewLevels given

def dividedCalls : List SessionCall :=
  [.createMarker, .addTo 0 (amountIs 1), .add (amountIs 2), .check]

/-- The interpolant is the equation in the partition. -/
theorem dividedCalls_interpolated :
    (Session.interpolant [0] ((start narrowConfig .forInterpolation).after dividedCalls)).1 =
      .ok (amountIs 1) ∧
    Interpolates
      (((start narrowConfig .forInterpolation).after dividedCalls).interpolationRanges [0])
      (((start narrowConfig .forInterpolation).after dividedCalls).inside [0])
      (((start narrowConfig .forInterpolation).after dividedCalls).outside [0]) (amountIs 1) := by
  have formulas : ((start narrowConfig .forInterpolation).after dividedCalls).formulas =
      [1, 2].map amountIs := by
    decide +kernel
  have encodable : ∀ formula ∈ ((start narrowConfig .forInterpolation).after
      dividedCalls).formulas, formula.Encodable := by
    rw [formulas, List.forall_mem_map]
    exact fun number member => encodable_amountIs ((by decide : ∀ number ∈ [1, 2],
      FitsInt64 number) number member)
  have given : (Session.interpolant [0] ((start narrowConfig .forInterpolation).after
      dividedCalls)).1 = .ok (amountIs 1) := by
    decide +kernel
  exact ⟨given, interpolates_of_unsat narrowConfig_lawful (by decide) (by decide) rfl encodable
    (by decide +kernel) (by decide +kernel) (by decide +kernel) (by decide +kernel)
    (by decide +kernel) given⟩

/-- The negated choice of false or the variable by the variable is always true, but the
interpolant is the negation of the variable. -/
theorem choice_interpolated_wrongly : ¬ ∀ (config : SolverConfig) (theme : SessionTheme)
    (calls : List SessionCall) (markers : List Nat) (interpolant : Expr), config.Lawful →
      0 ≤ config.margin → (config.maxAtomAssignments : Int) < maxInt64 →
      ((start config theme).after calls).status = some .unsat →
      (Session.interpolant markers ((start config theme).after calls)).1 = .ok interpolant →
      Interpolates (((start config theme).after calls).interpolationRanges markers)
        (((start config theme).after calls).inside markers)
        (((start config theme).after calls).outside markers) interpolant := by
  intro claimed
  let calls : List SessionCall := [.createMarker, .addTo 0 negatedChoice, .add flag,
    .add (.unary .not flag .bool), .check]
  have interpolates := claimed narrowConfig .forInterpolation calls [0]
    (.unary .not flag .bool) narrowConfig_lawful (by decide) (by decide) (by decide +kernel)
    (by decide +kernel)
  have first : ((start narrowConfig .forInterpolation).after calls).inside [0] =
      [negatedChoice] := by
    decide +kernel
  rw [first] at interpolates
  have boolean : ∀ formula ∈ [negatedChoice], ∀ symbol ∈ formula.symbols,
      symbol.decl.ty = .bool := by
    decide
  have satisfies : Satisfies (fun _ => .bool true) [negatedChoice] :=
    satisfies_singleton.mpr (by decide)
  have follows := interpolates.follows (fun formula member symbol occurs => ?_) satisfies
  · rw [satisfies_singleton] at follows
    exact absurd follows (by decide)
  · exact SolverConfig.admits_bool (boolean formula member symbol occurs) true

end Session

end AbstractionRefinement
