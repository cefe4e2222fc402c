import AbstractionRefinement.Proofs.DiagramCanonicity
import AbstractionRefinement.Proofs.IfThenElse

/-!
# Quantification of decision diagrams

Quantifying levels out of an edge gives the function that is true where the function of
the edge is true for some values of their variables.  The results for the edges met on the
way are remembered, and what is remembered stays right while the manager grows.
-/

namespace AbstractionRefinement

namespace DiagramManager

/-- The assignments agree on all levels that are not quantified. -/
def AgreeOutside (quantified : Nat → Bool) (assignment assignment' : Nat → Bool) : Prop :=
  ∀ level, quantified level = false → assignment' level = assignment level

/-- The second edge stands for the quantification of the first one. -/
structure Quantifies (manager : DiagramManager) (quantified : Nat → Bool)
    (edge result : Edge) : Prop where
  value_iff (assignment : Nat → Bool) : manager.value assignment result = true ↔
    ∃ assignment', AgreeOutside quantified assignment assignment' ∧
      manager.value assignment' edge = true
  below {level : Nat} : manager.Below level edge → manager.Below level result

/-- What is remembered are quantifications of edges. -/
def Remembers (manager : DiagramManager) (quantified : Nat → Bool)
    (known : Std.TreeMap Edge Edge) : Prop :=
  ∀ edge result, known[edge]? = some result → manager.Owns edge ∧ manager.Owns result ∧
    (manager.exhaustion = none → manager.Quantifies quantified edge result)

section Quantification

variable {manager after : DiagramManager} {bound : Nat} {quantified : Nat → Bool}

theorem Extends.quantifies (grown : manager.Extends after) (ordered : manager.Ordered bound)
    {edge result : Edge} (owns : manager.Owns edge) (owns' : manager.Owns result)
    (quantifies : manager.Quantifies quantified edge result) :
    after.Quantifies quantified edge result where
  value_iff assignment := by
    simp only [grown.value_eq ordered owns, grown.value_eq ordered owns']
    exact quantifies.value_iff assignment
  below below := by
    rw [grown.below_iff owns']
    exact quantifies.below ((grown.below_iff owns).mp below)

theorem Remembers.grow {known : Std.TreeMap Edge Edge}
    (remembers : manager.Remembers quantified known) (ordered : manager.Ordered bound)
    (grown : manager.Extends after) : after.Remembers quantified known := by
  intro edge result found
  obtain ⟨owns, owns', right⟩ := remembers edge result found
  exact ⟨grown.owns owns, grown.owns owns', fun unexhausted =>
    grown.quantifies ordered owns owns' (right (grown.unexhausted unexhausted))⟩

theorem Remembers.insert {known : Std.TreeMap Edge Edge}
    (remembers : manager.Remembers quantified known) {edge result : Edge}
    (owns : manager.Owns edge) (owns' : manager.Owns result)
    (right : manager.exhaustion = none → manager.Quantifies quantified edge result) :
    manager.Remembers quantified (known.insert edge result) := by
  intro other result' found
  rw [Std.TreeMap.getElem?_insert] at found
  split at found
  case isTrue same =>
    obtain rfl := Std.compare_eq_iff_eq.mp same
    cases found
    exact ⟨owns, owns', right⟩
  case isFalse => exact remembers other result' found

theorem quantifies_of_terminal {edge : Edge} (terminal : edge.isTerminal = true) :
    manager.Quantifies quantified edge edge where
  value_iff assignment := by
    have constant (assignment' : Nat → Bool) :
        manager.value assignment' edge = manager.value assignment edge := by
      rcases (Bool.or_eq_true _ _).mp terminal with zero | one
      · rw [of_decide_eq_true zero, value_zero, value_zero]
      · rw [of_decide_eq_true one, value_one, value_one]
    constructor
    · exact fun holds => ⟨assignment, fun _ _ => rfl, holds⟩
    · rintro ⟨assignment', -, holds⟩
      rwa [constant] at holds
  below := id

section Node

variable {edge low high result : Edge} (ordered : manager.Ordered bound)
  (owns : manager.Owns edge) (inner : edge.index ≠ 1)
  (quantifiesLow : manager.Quantifies quantified (manager.lowOf edge) low)
  (quantifiesHigh : manager.Quantifies quantified (manager.highOf edge) high)
include ordered owns inner quantifiesLow quantifiesHigh

/-- A node whose variable stays selects between the quantifications of its children. -/
theorem quantifies_of_selects (stays : quantified (manager.levelOf edge) = false)
    (selects : manager.Selects (manager.levelOf edge) low high result) :
    manager.Quantifies quantified edge result where
  value_iff assignment := by
    rw [selects.value_eq]
    split
    case isTrue holds =>
      rw [quantifiesHigh.value_iff]
      refine exists_congr fun assignment' => and_congr_right fun agree => ?_
      rw [ordered.value_eq owns inner, agree _ stays, if_pos holds]
    case isFalse fails =>
      rw [quantifiesLow.value_iff]
      refine exists_congr fun assignment' => and_congr_right fun agree => ?_
      rw [ordered.value_eq owns inner, agree _ stays, if_neg fails]
  below below := selects.below (below.resolve_left inner)

/-- A node whose variable is quantified becomes the disjunction of the quantifications of
its children. -/
theorem quantifies_of_chooses (isQuantified : quantified (manager.levelOf edge) = true)
    (chooses : manager.Chooses low .one high result) :
    manager.Quantifies quantified edge result where
  value_iff assignment := by
    have either : manager.value assignment result = true ↔
        manager.value assignment low = true ∨ manager.value assignment high = true := by
      rw [chooses.value_eq (.inr (.inl rfl)), value_one]
      cases manager.value assignment low <;> simp
    have agree_update {assignment' : Nat → Bool}
        (agree : AgreeOutside quantified assignment assignment') (truth : Bool) :
        AgreeOutside quantified assignment
          (Function.update assignment' (manager.levelOf edge) truth) := by
      intro level stays
      rw [Function.update_of_ne, agree level stays]
      rintro rfl
      rw [isQuantified] at stays
      cases stays
    rw [either, quantifiesLow.value_iff, quantifiesHigh.value_iff]
    constructor
    · rintro (⟨assignment', agree, holds⟩ | ⟨assignment', agree, holds⟩)
      · exact ⟨_, agree_update agree false, by rwa [ordered.value_update_low owns inner]⟩
      · exact ⟨_, agree_update agree true, by rwa [ordered.value_update_high owns inner]⟩
    · rintro ⟨assignment', agree, holds⟩
      rw [ordered.value_eq owns inner] at holds
      split at holds
      · exact .inr ⟨assignment', agree, holds⟩
      · exact .inl ⟨assignment', agree, holds⟩
  below {level} below := by
    have lower : level < manager.levelOf edge := below.resolve_left inner
    exact chooses.below
      (quantifiesLow.below ((ordered.below_lowOf owns inner).of_le (Nat.le_of_lt lower)))
      below_one
      (quantifiesHigh.below ((ordered.below_highOf owns inner).of_le (Nat.le_of_lt lower)))

end Node

/-- The quantifications of the children of a node give that of the node. -/
theorem combine_delivers {edge low high : Edge} (wellFormed : manager.WellFormed bound)
    (distinct : DistinctKeys manager.nodeLimit) (owns : manager.Owns edge)
    (inner : edge.index ≠ 1) (ownsLow : manager.Owns low) (ownsHigh : manager.Owns high)
    (quantifiesLow : manager.exhaustion = none →
      manager.Quantifies quantified (manager.lowOf edge) low)
    (quantifiesHigh : manager.exhaustion = none →
      manager.Quantifies quantified (manager.highOf edge) high) :
    manager.Delivers bound
      (if quantified (manager.levelOf edge) then disj low high manager
        else makeNode (manager.levelOf edge) low high manager)
      fun after result => after.Quantifies quantified edge result := by
  have ordered := wellFormed.toOrdered
  have placed := ordered.placed_of_owns owns inner
  -- What the children quantify, they quantify afterwards.
  have grownLow {after : DiagramManager} (grown : manager.Extends after)
      (unexhausted : after.exhaustion = none) :
      after.Quantifies quantified (after.lowOf edge) low := by
    rw [grown.lowOf_eq owns]
    exact grown.quantifies ordered (ordered.owns_lowOf owns inner) ownsLow
      (quantifiesLow (grown.unexhausted unexhausted))
  have grownHigh {after : DiagramManager} (grown : manager.Extends after)
      (unexhausted : after.exhaustion = none) :
      after.Quantifies quantified (after.highOf edge) high := by
    rw [grown.highOf_eq owns]
    exact grown.quantifies ordered (ordered.owns_highOf owns inner) ownsHigh
      (quantifiesHigh (grown.unexhausted unexhausted))
  split
  case isTrue isQuantified =>
    refine (ite_delivers wellFormed distinct ownsLow (owns_one ordered) ownsHigh).mono ?_
    intro grown wellFormed' unexhausted chooses
    refine quantifies_of_chooses wellFormed'.toOrdered (grown.owns owns) inner
      (grownLow grown unexhausted) (grownHigh grown unexhausted) ?_ chooses
    rw [grown.levelOf_eq owns]
    exact isQuantified
  case isFalse stays =>
    refine (makeNode_delivers wellFormed placed.level_pos placed.level_lt ownsLow ownsHigh
      (fun unexhausted => (quantifiesLow unexhausted).below (ordered.below_lowOf owns inner))
      fun unexhausted => (quantifiesHigh unexhausted).below
        (ordered.below_highOf owns inner)).mono ?_
    intro grown wellFormed' unexhausted selects
    have sameLevel := grown.levelOf_eq owns
    refine quantifies_of_selects wellFormed'.toOrdered (grown.owns owns) inner
      (grownLow grown unexhausted) (grownHigh grown unexhausted) ?_ ?_
    · rw [sameLevel]
      exact Bool.eq_false_iff.mpr stays
    · rw [sameLevel]
      exact selects

/-- A quantification together with what is remembered afterwards. -/
structure DeliversQuantified (before : DiagramManager) (bound : Nat) (quantified : Nat → Bool)
    (edge : Edge) (outcome : Edge × Std.TreeMap Edge Edge × DiagramManager) : Prop where
  delivers : before.Delivers bound (outcome.1, outcome.2.2) fun after result =>
    after.Quantifies quantified edge result
  remembers : outcome.2.2.Remembers quantified outcome.2.1

theorem quantifyWithin_delivers (fuel : Nat) {edge : Edge} {known : Std.TreeMap Edge Edge}
    (wellFormed : manager.WellFormed bound) (distinct : DistinctKeys manager.nodeLimit)
    (owns : manager.Owns edge) (enough : edge.index ≤ fuel)
    (remembers : manager.Remembers quantified known) :
    manager.DeliversQuantified bound quantified edge
      (quantifyWithin quantified fuel edge known manager) := by
  induction fuel generalizing edge known manager with
  | zero =>
      have used := owns.1
      omega
  | succ fuel ih =>
      have ordered := wellFormed.toOrdered
      rw [quantifyWithin]
      by_cases terminal : edge.isTerminal
      · rw [if_pos terminal]
        exact ⟨⟨wellFormed, .refl manager, owns, fun _ => quantifies_of_terminal terminal⟩,
          remembers⟩
      · rw [if_neg terminal]
        have inner : edge.index ≠ 1 := fun is => terminal ((Edge.isTerminal_iff edge).mpr is)
        have placed := ordered.placed_of_owns owns inner
        cases found : known[edge]? with
        | some result =>
            obtain ⟨-, owns', right⟩ := remembers edge result found
            exact ⟨⟨wellFormed, .refl manager, owns', right⟩, remembers⟩
        | none =>
            have lowLt := placed.low_lt
            have highLt := placed.high_lt
            have ownsLow := ordered.owns_lowOf owns inner
            have ownsHigh := ordered.owns_highOf owns inner
            dsimp only
            have first := ih wellFormed distinct ownsLow (by rw [index_lowOf]; omega) remembers
            revert first
            rcases quantifyWithin quantified fuel (manager.lowOf edge) known manager with
              ⟨low, knownLow, middle⟩
            rintro ⟨⟨wellFormedLow, grown, ownsResult, quantifiesLow⟩, rememberedLow⟩
            dsimp only at wellFormedLow grown ownsResult quantifiesLow rememberedLow
            have distinctLow : DistinctKeys middle.nodeLimit := by
              rw [grown.nodeLimit_eq]
              exact distinct
            dsimp only
            have second := ih wellFormedLow distinctLow (grown.owns ownsHigh)
              (by rw [index_highOf]; omega) rememberedLow
            revert second
            rcases quantifyWithin quantified fuel (manager.highOf edge) knownLow middle with
              ⟨high, knownHigh, last⟩
            rintro ⟨⟨wellFormedHigh, grown', ownsResult', quantifiesHigh⟩, rememberedHigh⟩
            dsimp only at wellFormedHigh grown' ownsResult' quantifiesHigh rememberedHigh
            have toLast := grown.trans grown'
            have combined := combine_delivers wellFormedHigh
              (by rw [grown'.nodeLimit_eq]; exact distinctLow) (toLast.owns owns) inner
              (grown'.owns ownsResult) ownsResult'
              (fun unexhausted => by
                rw [toLast.lowOf_eq owns]
                exact grown'.quantifies wellFormedLow.toOrdered (grown.owns ownsLow) ownsResult
                  (quantifiesLow (grown'.unexhausted unexhausted)))
              (fun unexhausted => by
                rw [toLast.highOf_eq owns]
                exact quantifiesHigh unexhausted)
            rw [toLast.levelOf_eq owns] at combined
            exact ⟨⟨combined.wellFormed, toLast.trans combined.grown, combined.owns,
              combined.meaning⟩, (rememberedHigh.grow wellFormedHigh.toOrdered combined.grown).insert
                (combined.grown.owns (toLast.owns owns)) combined.owns combined.meaning⟩

theorem quantify_delivers {edge : Edge} (wellFormed : manager.WellFormed bound)
    (distinct : DistinctKeys manager.nodeLimit) (owns : manager.Owns edge)
    (quantified : Nat → Bool) : manager.Delivers bound (quantify quantified edge manager)
      fun after result => after.Quantifies quantified edge result := by
  have nothing : manager.Remembers quantified ∅ := by
    intro other result found
    rw [Std.TreeMap.getElem?_emptyc] at found
    cases found
  have outcome :=
    quantifyWithin_delivers (edge.index + 1) wellFormed distinct owns (Nat.le_succ _) nothing
  unfold quantify
  exact outcome.delivers

theorem Quantifies.not_dependsOn {edge result : Edge}
    (quantifies : manager.Quantifies quantified edge result) {level : Nat}
    (isQuantified : quantified level = true) : ¬ manager.DependsOn result level := by
  rintro ⟨assignment, differ⟩
  refine differ (Bool.eq_iff_iff.mpr ?_)
  rw [quantifies.value_iff, quantifies.value_iff]
  refine exists_congr fun assignment' => and_congr_left fun _ => ?_
  refine forall₂_congr fun other stays => ?_
  have apart : other ≠ level := by
    rintro rfl
    rw [isQuantified] at stays
    cases stays
  rw [Function.update_of_ne apart, Function.update_of_ne apart]

/-- The quantification depends on nothing else than the edge does. -/
theorem Quantifies.dependsOn {edge result : Edge}
    (quantifies : manager.Quantifies quantified edge result) {level : Nat}
    (depends : manager.DependsOn result level) : manager.DependsOn edge level := by
  by_contra independent
  obtain ⟨assignment, differ⟩ := depends
  have same (assignment : Nat → Bool) (truth truth' : Bool) :
      manager.value (Function.update assignment level truth) edge =
        manager.value (Function.update assignment level truth') edge := by
    by_contra different
    refine independent ⟨assignment, fun same => different ?_⟩
    cases truth <;> cases truth' <;> simp_all
  have transfer (truth truth' : Bool)
      (holds : manager.value (Function.update assignment level truth) result = true) :
      manager.value (Function.update assignment level truth') result = true := by
    obtain ⟨assignment', agree, holds⟩ := (quantifies.value_iff _).mp holds
    refine (quantifies.value_iff _).mpr ⟨Function.update assignment' level truth', ?_, ?_⟩
    · intro other stays
      by_cases isLevel : other = level
      · rw [isLevel, Function.update_self, Function.update_self]
      · have agrees := agree other stays
        rw [Function.update_of_ne isLevel] at agrees
        rw [Function.update_of_ne isLevel, Function.update_of_ne isLevel, agrees]
    · rw [← same assignment' (assignment' level), Function.update_eq_self]
      exact holds
  exact differ (Bool.eq_iff_iff.mpr ⟨transfer true false, transfer false true⟩)

end Quantification

end DiagramManager

end AbstractionRefinement
