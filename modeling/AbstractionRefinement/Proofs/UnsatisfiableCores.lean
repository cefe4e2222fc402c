import AbstractionRefinement.Proofs.SessionAnswers
import AbstractionRefinement.Proofs.SessionIndependence
import AbstractionRefinement.Proofs.WidenedRanges

/-!
# Unsatisfiable cores

A core is found by dropping one tracked formula after the other as long as the rest is
refuted.  What is left is refuted at every moment, so the core is right whenever the search
ends, also when the manager is exhausted on the way.  It lists tracked formulas in the order
in which they were asserted, and it is refuted together with the untracked ones by every
session in which these formulas are asserted.
-/

namespace AbstractionRefinement

namespace WithinBounds

theorem antisymm {first second : Option (Int × Int)} (within : WithinBounds first second)
    (within' : WithinBounds second first) : first = second := by
  cases first with
  | none =>
      cases second with
      | none => rfl
      | some second => cases within'
  | some first =>
      cases second with
      | none => cases within
      | some second =>
          obtain ⟨low, high⟩ := first
          obtain ⟨low', high'⟩ := second
          obtain ⟨lower, upper⟩ := within
          obtain ⟨lower', upper'⟩ := within'
          rw [Int.le_antisymm lower' lower, Int.le_antisymm upper upper']

/-- An integer between two bounds may be seen without leaving them. -/
theorem includeInteger_of_within {bounds bounds' : Option (Int × Int)} {number : Int}
    (within : WithinBounds bounds bounds')
    (within' : WithinBounds (some (number, number)) bounds') :
    WithinBounds (AbstractionRefinement.includeInteger bounds number) bounds' := by
  cases bounds with
  | none => exact within'
  | some bounds =>
      cases bounds' with
      | none => cases within
      | some bounds' =>
          obtain ⟨lower, upper⟩ := within
          obtain ⟨lower', upper'⟩ := within'
          show bounds'.1 ≤ min bounds.1 number ∧ max bounds.2 number ≤ bounds'.2
          omega

end WithinBounds

namespace Expr

/-- The literals of several formulas are within bounds if those of each of them are. -/
theorem foldl_literalBounds_within {operands : List Expr} {bounds bounds' : Option (Int × Int)}
    (all : ∀ operand ∈ operands, ∀ {bounds}, WithinBounds bounds bounds' →
      WithinBounds (operand.literalBounds none) bounds' →
        WithinBounds (operand.literalBounds bounds) bounds')
    (within : WithinBounds bounds bounds')
    (each : ∀ operand ∈ operands, WithinBounds (operand.literalBounds none) bounds') :
    WithinBounds (operands.foldl literalBounds bounds) bounds' := by
  induction operands generalizing bounds with
  | nil => exact within
  | cons operand operands ih =>
      obtain ⟨first, rest⟩ := List.forall_mem_cons.mp all
      obtain ⟨eachFirst, eachRest⟩ := List.forall_mem_cons.mp each
      exact ih rest (first within eachFirst) eachRest

/-- Bounds of what was seen before and of a formula are bounds of both. -/
theorem literalBounds_within (formula : Expr) {bounds bounds' : Option (Int × Int)}
    (within : WithinBounds bounds bounds')
    (within' : WithinBounds (formula.literalBounds none) bounds') :
    WithinBounds (formula.literalBounds bounds) bounds' := by
  induction formula generalizing bounds with
  | lit value =>
      cases value with
      | int number => exact within.includeInteger_of_within within'
      | _ => exact within
  | sym symbol => exact within
  | unary operator operand ty ih => exact ih within within'
  | binary operator left right ty ihLeft ihRight =>
      have nothing : WithinBounds none (left.literalBounds none) := trivial
      exact ihRight (ihLeft within ((within_literalBounds right _).trans within'))
        ((literalBounds_mono right nothing).trans within')
  | ternary operator first second third ty ihFirst ihSecond ihThird =>
      have nothing (bounds : Option (Int × Int)) : WithinBounds none bounds := trivial
      have second_le := (within_literalBounds third _).trans within'
      exact ihThird
        (ihSecond (ihFirst within ((within_literalBounds second _).trans second_le))
          ((literalBounds_mono second (nothing _)).trans second_le))
        ((literalBounds_mono third (nothing _)).trans within')
  | nary operator operands ty ih =>
      rw [literalBounds, literalBoundsAll_eq_foldl] at within' ⊢
      refine foldl_literalBounds_within ih within fun operand member => ?_
      rw [← literalBoundsAll_eq_foldl] at within'
      exact (within_literalBoundsAll member none).trans within'

theorem literalBoundsAll_congr {formulas formulas' : List Expr}
    (same : ∀ formula, formula ∈ formulas ↔ formula ∈ formulas') :
    literalBoundsAll none formulas = literalBoundsAll none formulas' := by
  have within {formulas formulas' : List Expr} (subset : ∀ formula ∈ formulas, formula ∈ formulas') :
      WithinBounds (literalBoundsAll none formulas) (literalBoundsAll none formulas') := by
    rw [literalBoundsAll_eq_foldl none formulas]
    exact foldl_literalBounds_within (fun operand _ => operand.literalBounds_within) trivial
      fun operand member => within_literalBoundsAll (subset operand member) none
  exact (within fun formula => (same formula).mp).antisymm (within fun formula => (same formula).mpr)

end Expr

namespace SolverConfig

variable {config : SolverConfig} {formulas formulas' : List Expr}

theorem considers_congr (same : ∀ formula, formula ∈ formulas ↔ formula ∈ formulas')
    (values : Symbol → Value) :
    config.Considers formulas values ↔ config.Considers formulas' values := by
  unfold Considers AdmitsAll
  rw [Expr.literalBoundsAll_congr same]
  simp only [same]

theorem satisfiable_congr (same : ∀ formula, formula ∈ formulas ↔ formula ∈ formulas') :
    config.Satisfiable formulas ↔ config.Satisfiable formulas' := by
  unfold Satisfiable Fulfills
  simp only [same]

theorem Falsifies.not_satisfiable (falsifies : config.Falsifies formulas)
    (plain : ∀ formula ∈ formulas, formula.choosesTruth = false) :
    ¬ config.Satisfiable formulas := by
  obtain ⟨encoder, wellFormed, rfl, unexhausted, decides⟩ := falsifies
  exact (decides.isZero_iff wellFormed plain unexhausted).mp rfl

theorem Falsifies.not_fulfills (falsifies : config.Falsifies formulas) (exact_ : config.Exact)
    (plain : ∀ formula ∈ formulas, formula.choosesTruth = false) {values : Symbol → Value}
    (admits : config.AdmitsAll values formulas) : ¬ Fulfills values formulas := by
  obtain ⟨encoder, wellFormed, rfl, unexhausted, decides⟩ := falsifies
  exact decides.not_fulfills wellFormed exact_ plain unexhausted admits

end SolverConfig

namespace Session

open DiagramManager (keyBudget)
open Encoding

variable {config : SolverConfig} {alphabet : List Symbol} {session : Session}

/-- The formulas that every core is meant to be added to. -/
def untracked (session : Session) : List Expr :=
  (session.live.filter fun assertion => !assertion.tracked).map Assertion.formula

/-- The formulas that a core may list. -/
def trackedFormulas (session : Session) : List Expr :=
  (session.live.filter Assertion.tracked).map Assertion.formula

theorem mem_untracked_or_tracked {formula : Expr} :
    formula ∈ session.untracked ++ session.trackedFormulas ↔ formula ∈ session.formulas := by
  unfold untracked trackedFormulas formulas
  simp only [List.mem_append, List.mem_map, List.mem_filter, Bool.not_eq_true']
  constructor
  · rintro (⟨assertion, ⟨member, -⟩, rfl⟩ | ⟨assertion, ⟨member, -⟩, rfl⟩)
    · exact ⟨assertion, member, rfl⟩
    · exact ⟨assertion, member, rfl⟩
  · rintro ⟨assertion, member, rfl⟩
    cases known : assertion.tracked
    · exact .inl ⟨assertion, ⟨member, known⟩, rfl⟩
    · exact .inr ⟨assertion, ⟨member, known⟩, rfl⟩

/-- A core is given after an unsatisfiable answer, and it is found by encodings. -/
theorem exists_of_unsatCore {core : List Expr} (found : (unsatCore session).1 = .ok core) :
    session.status = some .unsat ∧ ∃ pairs,
      (coreEncoding session.config session.live session.encoder).1 = .ok pairs ∧
        core = pairs.map Prod.fst := by
  unfold unsatCore at found
  rw [SessionState.bind_run, SessionState.get_run] at found
  dsimp only at found
  split at found
  case isFalse => cases found
  case isTrue unsat =>
    refine ⟨unsat, ?_⟩
    have found : (((coreEncoding session.config session.live session.encoder).1.map
      fun pairs => pairs.map Prod.fst).mapError SolverError.incomplete) = .ok core := found
    cases run : (coreEncoding session.config session.live session.encoder).1 with
    | error cause =>
        rw [run] at found
        cases found
    | ok pairs =>
        rw [run] at found
        cases found
        exact ⟨pairs, rfl, rfl⟩

/-- Minimising a core drops candidates and keeps the order of the rest. -/
theorem sublist_of_minimizeCore {untracked : List Expr} {base : Edge}
    {kept candidates core : List (Expr × Edge)} {encoder : Encoder}
    (found : (minimizeCore config untracked base kept candidates encoder).1 = .ok core) :
    core.Sublist (kept ++ candidates) := by
  induction candidates generalizing kept encoder with
  | nil =>
      cases found
      rw [List.append_nil]
  | cons candidate candidates ih =>
      rw [minimizeCore] at found
      obtain ⟨_, _, -, found⟩ := exists_of_bind found
      obtain ⟨_, _, -, found⟩ := exists_of_bind found
      obtain ⟨last, _, -, found⟩ := exists_of_bind found
      have either (removable : Bool) {middle : Encoder} (found : ((if removable then
          minimizeCore config untracked base kept candidates
            else minimizeCore config untracked base (kept ++ [candidate]) candidates) middle).1 =
              .ok core) : core.Sublist (kept ++ candidate :: candidates) := by
        cases removable with
        | true =>
            exact (ih found).trans
              ((List.append_sublist_append_left _).mpr (List.sublist_cons_self ..))
        | false =>
            have sublist := ih found
            rwa [List.append_assoc, List.singleton_append] at sublist
      dsimp only at found
      by_cases exhausted : last.manager.exhaustion.isSome = true
      · rw [if_pos exhausted] at found
        cases found
        exact .refl _
      · rw [if_neg exhausted] at found
        exact either _ found

/-- Collecting the diagrams of assertions keeps their formulas. -/
theorem formulas_of_collected {assertions : List Assertion} {pairs : List (Expr × Edge)}
    {encoder : Encoder} (collected : ((assertions.mapM fun assertion => do
        let edge ← (assertion.encoded : Except UnknownCause Edge)
        return (assertion.formula, edge) : Encoding (List (Expr × Edge))) encoder).1 = .ok pairs) :
    pairs.map Prod.fst = assertions.map Assertion.formula := by
  induction assertions generalizing pairs encoder with
  | nil =>
      cases collected
      rfl
  | cons assertion assertions ih =>
      rw [List.mapM_cons] at collected
      obtain ⟨pair, _, first, others⟩ := exists_of_bind collected
      obtain ⟨edge, _, -, paired⟩ := exists_of_bind first
      obtain ⟨rest, _, collectedRest, made⟩ := exists_of_bind others
      cases paired
      cases made
      rw [List.map_cons, List.map_cons, ih collectedRest]

theorem sublist_of_unsatCore {core : List Expr} (found : (unsatCore session).1 = .ok core) :
    core.Sublist session.trackedFormulas := by
  obtain ⟨-, pairs, encoded, rfl⟩ := exists_of_unsatCore found
  obtain ⟨base, _, -, encoded⟩ := exists_of_bind encoded
  obtain ⟨collected, _, same, minimized⟩ := exists_of_bind encoded
  have sublist := (sublist_of_minimizeCore minimized).map Prod.fst
  rwa [List.nil_append, formulas_of_collected same] at sublist

theorem subset_of_unsatCore {core : List Expr} (found : (unsatCore session).1 = .ok core) :
    ∀ formula ∈ session.untracked ++ core, formula ∈ session.formulas := by
  intro formula member
  rw [← mem_untracked_or_tracked, List.mem_append]
  exact (List.mem_append.mp member).imp_right fun inside => (sublist_of_unsatCore found).subset inside

/-- What is returned after a check was begun with a manager that was not exhausted. -/
theorem unexhausted_of_checked {α : Type} {computation : Encoding α}
    (budgeted : Encoding.Budgeted computation) {encoder : Encoder} {result : α}
    (returned : ((do
        let result ← computation
        Encoder.checkExhausted
        return result) encoder).1 = .ok result) : encoder.manager.exhaustion = none := by
  rw [← Option.not_isSome_iff_eq_none]
  intro exhausted
  have lasts := budgeted.exhausted exhausted
  rw [bind_run] at returned
  generalize computation encoder = outcome at lasts returned
  obtain ⟨cause | result, after⟩ := outcome
  · cases returned
  · obtain ⟨_, _, passed, -⟩ := exists_of_bind returned
    obtain ⟨cause, refused⟩ := checkExhausted_of_exhausted (Option.isSome_iff_ne_none.mp
      (DiagramManager.budgeted_noticeDeadline.lasts lasts))
    rw [refused] at passed
    cases passed

theorem roomy_of_unsatCore {core : List Expr} (found : (unsatCore session).1 = .ok core)
    (few : (unsatCore session).2.encoder.manager.size ≤ 32767) : session.Roomy := by
  obtain ⟨unsat, pairs, encoded, -⟩ := exists_of_unsatCore found
  rw [unsatCore_state, if_pos unsat] at few
  have fewBefore : session.encoder.manager.size ≤ 32767 :=
    Nat.le_trans (Nat.sub_le_sub_right
      ((budgeted_coreEncoding session.live).nodes_le session.encoder) 1) few
  obtain ⟨base, _, conjoined, -⟩ := exists_of_bind encoded
  exact ⟨unexhausted_of_checked (budgeted_foldlM (fun total assertion _ =>
    (budgeted_lift assertion.encoded).bind fun edge => budgeted_conj total edge) _) conjoined,
    fewBefore⟩

section Within

variable (within : session.SoundWithin keyBudget config alphabet)
include within

/-- A core lists all tracked formulas or was itself found to be false. -/
theorem SoundWithin.minimized {core : List Expr} (found : (unsatCore session).1 = .ok core)
    (few : (unsatCore session).2.encoder.manager.size ≤ 32767) :
    core = session.trackedFormulas ∨
      (config.capped keyBudget).Falsifies (session.untracked ++ core) ∧
        escapesRange config (session.untracked ++ core) false = .ok false := by
  obtain ⟨unsat, pairs, encoded, rfl⟩ := exists_of_unsatCore found
  rw [unsatCore_state, if_pos unsat] at few
  have few := Encoder.nodes_le_keyBudget few
  have sound := within.sound
    (Nat.le_trans ((budgeted_coreEncoding session.live).nodes_le session.encoder) few)
  have sameConfig : (session.encoder.capped keyBudget).config = config.capped keyBudget := by
    rw [← within.config_eq]
    exact sound.config_eq
  have encodes : Ensures alphabet (coreEncoding session.config session.live)
    (session.encoder.capped keyBudget) _ := ensures_coreEncoding sound.decides
  obtain ⟨-, -, returned⟩ := (budgeted_coreEncoding session.live).ensures within.early few encodes
    sound.encoder
  have minimized := returned pairs encoded
  unfold Minimized at minimized
  rw [sameConfig, within.config_eq] at minimized
  exact minimized

end Within

/-- The confirmation of an unsatisfiable answer does not run into a limit. -/
def ConfirmsWithin (config : SolverConfig) (formulas : List Expr) : Prop :=
  ∀ encoder ∈ widenedEncoder config formulas false,
    (Encoder.encodeAllValid formulas encoder).2.manager.exhaustion = none ∧
      (Encoder.encodeAllValid formulas encoder).2.manager.size ≤ 32767

/-- Over the widened intervals, formulas have a false diagram exactly if they are
unsatisfiable there. -/
theorem isZero_of_widenedEncoder {formulas : List Expr}
    (plain : ∀ formula ∈ formulas, formula.choosesTruth = false) {encoder : Encoder}
    (widened : widenedEncoder config formulas false = some encoder)
    (few : (Encoder.encodeAllValid formulas encoder).2.manager.size ≤ 32767) {edge : Edge}
    (encoded : (Encoder.encodeAllValid formulas encoder).1 = .ok edge) :
    (Encoder.encodeAllValid formulas encoder).2.manager.exhaustion = none ∧
      (edge.isZero = true ↔ ¬ encoder.config.Satisfiable formulas) := by
  have wellFormed : (encoder.capped keyBudget).WellFormed := by
    have wellFormed : (Encoder.new ((config.widened
        (Expr.literalBoundsAll none formulas)).capped keyBudget)).WellFormed :=
      Encoder.wellFormed_new (DiagramManager.distinctKeys_of_le (Nat.min_le_right _ _))
    unfold widenedEncoder at widened
    split at widened
    · cases widened
    · cases widened
      exact wellFormed.timed false
  have encodes : Ensures (Expr.collectSymbolsAll formulas []) (Encoder.encodeAllValid formulas)
      (encoder.capped keyBudget) _ :=
    ensures_encodeAllValid fun formula member symbol occurs =>
      (Expr.mem_collectSymbolsAll formulas []).mpr (.inr ⟨formula, member, occurs⟩)
  obtain ⟨wellFormed', grown, returned⟩ := (budgeted_encodeAllValid formulas).ensures
    (early_of_widenedEncoder widened) (Encoder.nodes_le_keyBudget few) encodes wellFormed
  obtain ⟨unexhausted, decides⟩ := returned edge encoded
  have isZero := decides.isZero_iff wellFormed' plain unexhausted
  rw [grown.config_eq] at isZero
  exact ⟨unexhausted, isZero⟩

theorem confirmsWithin_of_escapesRange {formulas : List Expr}
    (plain : ∀ formula ∈ formulas, formula.choosesTruth = false)
    (few : confirmationSize config formulas ≤ 32767)
    (confined : escapesRange config formulas false = .ok false) :
    ConfirmsWithin config formulas := by
  intro encoder widened
  rw [Option.mem_def] at widened
  unfold confirmationSize at few
  rw [widened] at few
  exact ⟨(isZero_of_widenedEncoder plain widened few
    (encodeAllValid_of_escapesRange widened confined)).1, few⟩

/-- An unsatisfiable answer is confirmed exactly if no formula is refused and they are
unsatisfiable over the widened intervals. -/
theorem escapesRange_iff {formulas : List Expr}
    (plain : ∀ formula ∈ formulas, formula.choosesTruth = false)
    (confirms : ConfirmsWithin config formulas) :
    escapesRange config formulas false = .ok false ↔
      ∀ encoder, widenedEncoder config formulas false = some encoder →
        (∀ formula ∈ formulas, Encoder.assertionFailure encoder.config formula = none) ∧
          ¬ encoder.config.Satisfiable formulas := by
  unfold escapesRange
  cases widened : widenedEncoder config formulas false with
  | none => exact ⟨by rintro - _ ⟨⟩, fun _ => rfl⟩
  | some encoder =>
      have has : encoder.HasDomains encoder.config := by
        unfold widenedEncoder at widened
        split at widened
        · cases widened
        · cases widened
          exact ⟨rfl, fun _ => rfl, by rintro _ _ ⟨⟩⟩
      obtain ⟨unexhausted, few⟩ := confirms encoder widened
      have failure := ((fails_encodeAllValid formulas encoder has).2.2 unexhausted).2
      have isZero {edge : Edge} (encoded : (Encoder.encodeAllValid formulas encoder).1 = .ok edge) :=
        (isZero_of_widenedEncoder plain widened few encoded).2
      simp only [Option.some.injEq, forall_eq']
      rw [← List.findSome?_eq_none_iff, ← failure]
      generalize Encoder.encodeAllValid formulas encoder = outcome at isZero ⊢
      obtain ⟨cause | edge, after⟩ := outcome
      · exact ⟨by rintro ⟨⟩, by rintro ⟨⟨⟩, -⟩⟩
      · simp [← isZero rfl, failure?]

/-- Whether an unsatisfiable answer is confirmed depends only on which formulas there are. -/
theorem escapesRange_congr {formulas formulas' : List Expr}
    (same : ∀ formula, formula ∈ formulas ↔ formula ∈ formulas')
    (plain : ∀ formula ∈ formulas, formula.choosesTruth = false)
    (few : confirmationSize config formulas ≤ 32767) (confirms : ConfirmsWithin config formulas')
    (confined : escapesRange config formulas false = .ok false) :
    escapesRange config formulas' false = .ok false := by
  have plain' : ∀ formula ∈ formulas', formula.choosesTruth = false :=
    fun formula member => plain formula ((same formula).mpr member)
  have sameEncoder : widenedEncoder config formulas false = widenedEncoder config formulas' false := by
    have sameAny : formulas.any Expr.hasIntSymbol = formulas'.any Expr.hasIntSymbol := by
      rw [Bool.eq_iff_iff, List.any_eq_true, List.any_eq_true]
      simp only [same]
    unfold widenedEncoder
    rw [Expr.literalBoundsAll_congr same, sameAny]
  rw [escapesRange_iff plain (confirmsWithin_of_escapesRange plain few confined)] at confined
  rw [escapesRange_iff plain' confirms]
  simpa only [sameEncoder, same, SolverConfig.satisfiable_congr same] using confined

/-- The answer is unsatisfiable if no formula is refused, they are unsatisfiable over the
configured intervals, and this is confirmed. -/
theorem answer_eq_unsat_iff {formulas : List Expr} : answer config formulas = .unsat ↔
    (∀ formula ∈ formulas, Encoder.assertionFailure config formula = none) ∧
      ¬ config.Satisfiable formulas ∧ escapesRange config formulas false = .ok false := by
  classical
  rw [← List.findSome?_eq_none_iff, answer]
  cases formulas.findSome? (Encoder.assertionFailure config) with
  | some cause => exact ⟨by rintro ⟨⟩, by rintro ⟨⟨⟩, -⟩⟩
  | none =>
      by_cases satisfiable : config.Satisfiable formulas
      · simp [satisfiable]
      · simp only [satisfiable, if_false, not_false_eq_true, true_and]
        refine ⟨escapesRange_of_confirmUnsat, fun confined => ?_⟩
        rw [confirmUnsat, confined]

theorem answer_congr {formulas formulas' : List Expr}
    (same : ∀ formula, formula ∈ formulas ↔ formula ∈ formulas')
    (plain : ∀ formula ∈ formulas, formula.choosesTruth = false)
    (few : confirmationSize config formulas ≤ 32767) (confirms : ConfirmsWithin config formulas')
    (unsat : answer config formulas = .unsat) : answer config formulas' = .unsat := by
  rw [answer_eq_unsat_iff] at unsat ⊢
  obtain ⟨accepted, unsatisfiable, confined⟩ := unsat
  exact ⟨fun formula member => accepted formula ((same formula).mpr member),
    mt (SolverConfig.satisfiable_congr same).mpr unsatisfiable,
    escapesRange_congr same plain few confirms confined⟩

/-- The formulas of a core and the untracked ones were found unsatisfiable, maybe in another
order, and no considered values fulfil them. -/
theorem SoundWithin.exists_refuted (within : session.SoundWithin keyBudget config alphabet)
    (determined : session.Determined config) (lawful : config.Lawful)
    (countable : (config.maxAtomAssignments : Int) < maxInt64) {core : List Expr}
    (found : (unsatCore session).1 = .ok core)
    (plain : ∀ formula ∈ session.formulas, formula.choosesTruth = false)
    (few : (unsatCore session).2.encoder.manager.size ≤ 32767)
    (fewConfirming : confirmationSize config session.formulas ≤ 32767)
    (fewConfirming' : confirmationSize config (session.untracked ++ core) ≤ 32767) :
    ∃ formulas, (∀ formula, formula ∈ formulas ↔ formula ∈ session.untracked ++ core) ∧
      confirmationSize config formulas ≤ 32767 ∧ answer config formulas = .unsat ∧
        ∀ values, config.Considers formulas values → ¬ Fulfills values formulas := by
  have exact_ : (config.capped keyBudget).Exact :=
    ⟨lawful, countable, DiagramManager.distinctKeys_of_le (Nat.min_le_right _ _)⟩
  have unsat := (exists_of_unsatCore found).1
  have roomy := roomy_of_unsatCore found few
  have answered := (determined.status_eq roomy plain unsat).symm
  rcases within.minimized found few with rfl | ⟨falsifies, confined⟩
  · exact ⟨session.formulas, fun formula => mem_untracked_or_tracked.symm, fewConfirming, answered,
      within.refutes (Encoder.nodes_le_keyBudget roomy.few) unsat
        (Nat.lt_succ_of_le fewConfirming) exact_ plain⟩
  · have subset := subset_of_unsatCore found
    have plain' : ∀ formula ∈ session.untracked ++ core, formula.choosesTruth = false :=
      fun formula member => plain formula (subset formula member)
    refine ⟨session.untracked ++ core, fun _ => Iff.rfl, fewConfirming',
      answer_eq_unsat_iff.mpr ⟨fun formula member => (answer_eq_unsat_iff.mp answered).1 formula
        (subset formula member), falsifies.not_satisfiable plain', confined⟩, ?_⟩
    intro values considers
    have considers' : (config.capped keyBudget).Considers (session.untracked ++ core) values :=
      considers
    exact considers'.not_fulfills exact_ plain' (falsifies.not_fulfills exact_ plain')
      ((escapesRange_capped (Nat.lt_succ_of_le fewConfirming')).trans confined)

def refutedSession : Session :=
  (start narrowConfig .plain).after
    [.add (amountIs 1), .track flag, .track (amountIs 0), .check]

def contradictorySession : Session :=
  (start narrowConfig .plain).after [.track (amountIs 0), .add (amountIs 1)]

end Session

end AbstractionRefinement
