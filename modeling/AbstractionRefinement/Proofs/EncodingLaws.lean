import AbstractionRefinement.BitEncoding
import AbstractionRefinement.Proofs.IfThenElse
import AbstractionRefinement.Proofs.OrderedCollectionLaws

/-!
# Laws of encodings

An encoder is well formed when every symbol owns a block of consecutive levels
that no other symbol owns, long enough for all offsets of its domain, and when its
constraint describes the offsets below the size of the domain.  Encoding only adds
nodes, levels and symbols, so that what a diagram meant it means afterwards.

An encoding is described by what holds of its result and of the encoder after it,
with one rule for every way in which encodings are composed.
-/

namespace AbstractionRefinement

/-- The number with the bits that an assignment gives to some levels, the least
significant bit first. -/
def binaryOffset (assignment : Nat → Bool) (levels : List Nat) : Nat :=
  levels.zipIdx.foldl
    (fun offset (level, position) =>
      if assignment level then offset + Nat.pow 2 position else offset)
    0

section BinaryOffset

variable {assignment : Nat → Bool}

theorem binaryOffset_append (levels : List Nat) (level : Nat) :
    binaryOffset assignment (levels ++ [level]) =
      2 ^ levels.length * (assignment level).toNat + binaryOffset assignment levels := by
  unfold binaryOffset
  rw [List.zipIdx_append, List.foldl_append]
  simp only [List.zipIdx_cons, List.zipIdx_nil, List.foldl_cons, List.foldl_nil]
  cases assignment level <;> simp [Nat.add_comm]

theorem binaryOffset_singleton (level : Nat) :
    binaryOffset assignment [level] = (assignment level).toNat := by
  simpa [binaryOffset] using (binaryOffset_append [] level : binaryOffset assignment _ = _)

theorem binaryOffset_lt (assignment : Nat → Bool) (levels : List Nat) :
    binaryOffset assignment levels < 2 ^ levels.length := by
  induction levels using List.reverseRecOn with
  | nil => simp [binaryOffset]
  | append_singleton levels level ih =>
      rw [binaryOffset_append, List.length_append, List.length_singleton, Nat.pow_succ]
      cases assignment level <;> simp <;> omega

/-- The bits of the number are those of the levels. -/
theorem testBit_binaryOffset (levels : List Nat) (position : Nat) :
    (binaryOffset assignment levels).testBit position =
      (levels[position]?.map assignment).getD false := by
  induction levels using List.reverseRecOn with
  | nil => simp [binaryOffset]
  | append_singleton levels level ih =>
      rw [binaryOffset_append, Nat.testBit_two_pow_mul_add _ (binaryOffset_lt assignment levels),
        List.getElem?_append]
      split
      case isTrue => exact ih
      case isFalse outside =>
        rw [Nat.testBit_bool_toNat]
        by_cases last : position - levels.length = 0
        · simp [last]
        · simp [last]

/-- A number is the one on the levels if it has their bits. -/
theorem binaryOffset_eq_iff {levels : List Nat} {offset : Nat}
    (small : offset < 2 ^ levels.length) : binaryOffset assignment levels = offset ↔
      ∀ entry ∈ levels.zipIdx, assignment entry.1 = offset.testBit entry.2 := by
  have bit (position : Nat) (inside : position < levels.length) :
      (binaryOffset assignment levels).testBit position = assignment levels[position] := by
    rw [testBit_binaryOffset, List.getElem?_eq_getElem inside]
    rfl
  constructor
  · rintro rfl ⟨level, position⟩ member
    obtain ⟨inside, equal⟩ := List.mem_zipIdx' member
    show assignment level = (binaryOffset assignment levels).testBit position
    rw [bit position inside, equal]
  · intro sameBits
    apply Nat.eq_of_testBit_eq
    intro position
    by_cases inside : position < levels.length
    · rw [bit position inside]
      exact sameBits (levels[position], position)
        (List.mk_mem_zipIdx_iff_getElem?.mpr (List.getElem?_eq_getElem inside))
    · have beyond {number : Nat} (lt : number < 2 ^ levels.length) :
          number.testBit position = false :=
        Nat.testBit_lt_two_pow (Nat.lt_of_lt_of_le lt
          (Nat.pow_le_pow_right (by decide) (Nat.le_of_not_lt inside)))
      rw [beyond (binaryOffset_lt assignment levels), beyond small]

end BinaryOffset

theorem lt_two_pow_binaryLength (number : Nat) : number < 2 ^ binaryLength number := by
  unfold binaryLength
  split
  case isTrue zero => simp [zero]
  case isFalse => exact Nat.lt_log2_self

theorem binaryLength_le {number digits : Nat} (small : number < 2 ^ digits) :
    binaryLength number ≤ digits := by
  unfold binaryLength
  split
  case isTrue => exact Nat.zero_le _
  case isFalse nonzero => exact (Nat.log2_lt nonzero).mpr small

/-- The offset that an assignment of the levels gives to a symbol. -/
def SymbolBits.offset (encoded : SymbolBits) (assignment : Nat → Bool) : Nat :=
  binaryOffset assignment encoded.bits

namespace DiagramManager

variable {manager : DiagramManager} {bound : Nat}

theorem WellFormed.noticeDeadline (wellFormed : manager.WellFormed bound) :
    manager.noticeDeadline.WellFormed bound ∧ manager.Extends manager.noticeDeadline := by
  unfold DiagramManager.noticeDeadline
  split
  · exact wellFormed.ofSameNodes _ rfl rfl rfl rfl (by rintro ⟨⟩)
  · exact ⟨wellFormed, .refl manager⟩

theorem WellFormed.setDeadline (wellFormed : manager.WellFormed bound) (passed : Bool) :
    (manager.setDeadline passed).WellFormed bound ∧
      manager.Extends (manager.setDeadline passed) :=
  wellFormed.ofSameNodes _ rfl rfl rfl rfl id

end DiagramManager

namespace Encoder

/-- The values that an assignment of the levels gives to the encoded symbols. -/
def interpret (encoder : Encoder) (assignment : Nat → Bool) (symbol : Symbol) : Option Value :=
  (OrderedMap.find? symbol encoder.symbols).map fun encoded =>
    encoded.domain.value (encoded.offset assignment)

/-- Number of levels that a symbol owns once it is encoded. -/
def levelCount (config : SolverConfig) (symbol : Symbol) : Nat :=
  match domainOf config symbol with
  | .ok (_, size) => binaryLength (size - 1)
  | .error _ => 0

/-- Number of levels of those symbols of a list that are encoded. -/
def usedLevels (encoder : Encoder) (alphabet : List Symbol) : Nat :=
  (alphabet.map fun symbol =>
    if (OrderedMap.find? symbol encoder.symbols).isSome then levelCount encoder.config symbol
    else 0).sum

/-- The encoding of a symbol is one of its domain, on levels of its own. -/
structure Places (encoder : Encoder) (symbol : Symbol) (encoded : SymbolBits) : Prop where
  domain_eq : domainOf encoder.config symbol = .ok (encoded.domain, encoded.size)
  bits_eq : ∃ first, 1 ≤ first ∧
    encoded.bits = List.range' first (binaryLength (encoded.size - 1))
  level_lt {level : Nat} : level ∈ encoded.bits → level < encoder.nextLevel
  owner_eq {level : Nat} : level ∈ encoded.bits → encoder.owners[level]? = some symbol
  owns_valid : encoder.manager.Owns encoded.valid
  value_valid : encoder.manager.exhaustion = none → ∀ assignment,
    encoder.manager.value assignment encoded.valid =
      decide (encoded.offset assignment < encoded.size)

/-- No levels but those of the listed symbols are in use. -/
def UsesOnly (encoder : Encoder) (alphabet : List Symbol) : Prop :=
  encoder.nextLevel ≤ 1 + encoder.usedLevels alphabet

/-- The diagrams are well formed, and every encoded symbol has its place. -/
structure WellFormed (encoder : Encoder) : Prop where
  diagrams : encoder.manager.WellFormed encoder.nextLevel
  distinct : DiagramManager.DistinctKeys encoder.manager.nodeLimit
  positive : 1 ≤ encoder.nextLevel
  sorted : OrderedMap.Sorted encoder.symbols
  places {symbol : Symbol} {encoded : SymbolBits} :
    OrderedMap.find? symbol encoder.symbols = some encoded → encoder.Places symbol encoded

/-- The second encoder has what the first one has, and has got no new levels but for
the listed symbols. -/
structure Extends (alphabet : List Symbol) (before after : Encoder) : Prop where
  diagrams : before.manager.Extends after.manager
  config_eq : after.config = before.config
  nextLevel_le : before.nextLevel ≤ after.nextLevel
  usesOnly : before.UsesOnly alphabet → after.UsesOnly alphabet
  find?_eq {symbol : Symbol} {encoded : SymbolBits} :
    OrderedMap.find? symbol before.symbols = some encoded →
      OrderedMap.find? symbol after.symbols = some encoded

variable {alphabet : List Symbol}

theorem Places.size_le {encoder : Encoder} {symbol : Symbol} {encoded : SymbolBits}
    (places : encoder.Places symbol encoded) : encoded.size ≤ 2 ^ encoded.bits.length := by
  obtain ⟨first, -, block⟩ := places.bits_eq
  have small := lt_two_pow_binaryLength (encoded.size - 1)
  rw [block, List.length_range']
  omega

theorem Extends.refl (encoder : Encoder) : encoder.Extends alphabet encoder :=
  ⟨.refl _, rfl, Nat.le_refl _, id, id⟩

theorem Extends.trans {before middle after : Encoder} (first : before.Extends alphabet middle)
    (second : middle.Extends alphabet after) : before.Extends alphabet after where
  diagrams := first.diagrams.trans second.diagrams
  config_eq := second.config_eq.trans first.config_eq
  nextLevel_le := Nat.le_trans first.nextLevel_le second.nextLevel_le
  usesOnly few := second.usesOnly (first.usesOnly few)
  find?_eq found := second.find?_eq (first.find?_eq found)

theorem Extends.interpret_eq {before after : Encoder} (grown : before.Extends alphabet after)
    {symbol : Symbol} {encoded : SymbolBits}
    (found : OrderedMap.find? symbol before.symbols = some encoded) (assignment : Nat → Bool) :
    after.interpret assignment symbol = before.interpret assignment symbol := by
  rw [interpret, interpret, found, grown.find?_eq found]

/-- The encoder after some diagram operation is as good as before. -/
theorem WellFormed.withManager {encoder : Encoder} (wellFormed : encoder.WellFormed)
    {manager : DiagramManager} (diagrams : manager.WellFormed encoder.nextLevel)
    (grown : encoder.manager.Extends manager) :
    { encoder with manager }.WellFormed ∧
      encoder.Extends alphabet { encoder with manager } := by
  refine ⟨⟨diagrams, ?_, wellFormed.positive, wellFormed.sorted, ?_⟩, grown, rfl,
    Nat.le_refl _, id, id⟩
  · show DiagramManager.DistinctKeys manager.nodeLimit
    rw [grown.nodeLimit_eq]
    exact wellFormed.distinct
  · intro symbol encoded found
    have places := wellFormed.places found
    refine ⟨places.domain_eq, places.bits_eq, places.level_lt, places.owner_eq,
      grown.owns places.owns_valid, ?_⟩
    intro unexhausted assignment
    rw [grown.value_eq wellFormed.diagrams.toOrdered places.owns_valid]
    exact places.value_valid (grown.unexhausted unexhausted) assignment

def timed (encoder : Encoder) (passed : Bool) : Encoder :=
  { encoder with manager := encoder.manager.setDeadline passed }

theorem WellFormed.extends_timed {encoder : Encoder} (wellFormed : encoder.WellFormed)
    (passed : Bool) : encoder.Extends alphabet (encoder.timed passed) :=
  have ⟨diagrams, grown⟩ := wellFormed.diagrams.setDeadline passed
  (wellFormed.withManager diagrams grown).2

theorem WellFormed.timed {encoder : Encoder} (wellFormed : encoder.WellFormed) (passed : Bool) :
    (encoder.timed passed).WellFormed :=
  have ⟨diagrams, grown⟩ := wellFormed.diagrams.setDeadline passed
  have extended : _ ∧ Extends [] _ _ := wellFormed.withManager diagrams grown
  extended.1

theorem wellFormed_new {config : SolverConfig}
    (distinct : DiagramManager.DistinctKeys config.nodeLimit) : (new config).WellFormed where
  diagrams := DiagramManager.wellFormed_new 1 config.cacheBits config.nodeLimit
  distinct := distinct
  positive := Nat.le_refl 1
  sorted := .nil
  places found := by cases found

end Encoder

namespace Encoding

variable {alphabet : List Symbol} {α β ι : Type}

/-- From a well-formed encoder the encoding leads to a well-formed one that has what
it had, and what it returns is described by the condition. -/
def Ensures (alphabet : List Symbol) (computation : Encoding α) (encoder : Encoder)
    (returns : α → Encoder → Prop) : Prop :=
  encoder.WellFormed →
    (computation encoder).2.WellFormed ∧ encoder.Extends alphabet (computation encoder).2 ∧
      ∀ result, (computation encoder).1 = .ok result → returns result (computation encoder).2

theorem ensures_of_wellFormed {computation : Encoding α} {encoder : Encoder}
    {returns : α → Encoder → Prop}
    (ensures : encoder.WellFormed → Ensures alphabet computation encoder returns) :
    Ensures alphabet computation encoder returns :=
  fun wellFormed => ensures wellFormed wellFormed

theorem Ensures.mono {computation : Encoding α} {encoder : Encoder}
    {returns returns' : α → Encoder → Prop}
    (ensures : Ensures alphabet computation encoder returns)
    (weaker : ∀ result after, encoder.Extends alphabet after → after.WellFormed →
      returns result after → returns' result after) :
    Ensures alphabet computation encoder returns' := by
  intro wellFormed
  obtain ⟨wellFormed', grown, returns⟩ := ensures wellFormed
  exact ⟨wellFormed', grown, fun result returned =>
    weaker result _ grown wellFormed' (returns result returned)⟩

theorem ensures_pure {result : α} {encoder : Encoder} {returns : α → Encoder → Prop}
    (holds : encoder.WellFormed → returns result encoder) :
    Ensures alphabet (pure result) encoder returns := by
  intro wellFormed
  refine ⟨wellFormed, .refl encoder, ?_⟩
  rintro result' ⟨⟩
  exact holds wellFormed

theorem ensures_throw {cause : UnknownCause} {encoder : Encoder}
    {returns : α → Encoder → Prop} :
    Ensures alphabet (throw cause : Encoding α) encoder returns :=
  fun wellFormed => ⟨wellFormed, .refl encoder, by rintro result ⟨⟩⟩

theorem bind_run (first : Encoding β) (next : β → Encoding α) (encoder : Encoder) :
    (first >>= next) encoder =
      match first encoder with
      | (.ok result, after) => next result after
      | (.error cause, after) => (.error cause, after) := by
  simp only [Bind.bind, ExceptT.bind, ExceptT.mk, StateT.bind, ExceptT.bindCont]
  rcases first encoder with ⟨_ | _, _⟩ <;> rfl

theorem get_run (encoder : Encoder) : (get : Encoding Encoder) encoder = (.ok encoder, encoder) :=
  rfl

theorem modify_run (change : Encoder → Encoder) (encoder : Encoder) :
    (modify change : Encoding PUnit) encoder = (.ok ⟨⟩, change encoder) :=
  rfl

theorem ok_run (result : α) (encoder : Encoder) :
    ((Except.ok result : Except UnknownCause α) : Encoding α) encoder = (.ok result, encoder) :=
  rfl

theorem error_run (cause : UnknownCause) (encoder : Encoder) :
    ((Except.error cause : Except UnknownCause α) : Encoding α) encoder =
      (.error cause, encoder) :=
  rfl

theorem pure_run (result : α) (encoder : Encoder) :
    (pure result : Encoding α) encoder = (.ok result, encoder) :=
  rfl

theorem Ensures.bind {first : Encoding β} {next : β → Encoding α} {encoder : Encoder}
    {middle : β → Encoder → Prop} {returns : α → Encoder → Prop}
    (ensures : Ensures alphabet first encoder middle)
    (ensuresNext : ∀ result after, encoder.Extends alphabet after → after.WellFormed →
      middle result after → Ensures alphabet (next result) after returns) :
    Ensures alphabet (first >>= next) encoder returns := by
  intro wellFormed
  obtain ⟨wellFormed', grown, returned⟩ := ensures wellFormed
  rw [bind_run]
  rcases outcome : first encoder with ⟨cause | result, after⟩
  · rw [outcome] at wellFormed' grown
    exact ⟨wellFormed', grown, by rintro result ⟨⟩⟩
  · rw [outcome] at wellFormed' grown returned
    obtain ⟨wellFormed'', grown', returns⟩ :=
      ensuresNext result after grown wellFormed' (returned result rfl) wellFormed'
    exact ⟨wellFormed'', grown.trans grown', returns⟩

theorem ensures_throw_bind {cause : UnknownCause} {next : β → Encoding α} {encoder : Encoder}
    {returns : α → Encoder → Prop} :
    Ensures alphabet ((throw cause : Encoding β) >>= next) encoder returns := by
  have never : Ensures alphabet (throw cause : Encoding β) encoder fun _ _ => False :=
    ensures_throw
  exact never.bind fun _ _ _ _ absurd => absurd.elim

theorem ensures_get {encoder : Encoder} : Ensures alphabet get encoder fun result after =>
    encoder = result ∧ encoder = after := by
  intro wellFormed
  refine ⟨wellFormed, .refl encoder, ?_⟩
  rintro result ⟨⟩
  exact ⟨rfl, rfl⟩

theorem ensures_lift {outcome : Except UnknownCause α} {encoder : Encoder} :
    Ensures alphabet (outcome : Encoding α) encoder fun result after =>
      outcome = .ok result ∧ encoder = after := by
  intro wellFormed
  cases outcome with
  | error cause => exact ⟨wellFormed, .refl encoder, by rintro result ⟨⟩⟩
  | ok result =>
      refine ⟨wellFormed, .refl encoder, ?_⟩
      rintro result' ⟨⟩
      exact ⟨rfl, rfl⟩

theorem ensures_diagram {operation : DiagramManager → Edge × DiagramManager}
    {encoder : Encoder} {meaning : DiagramManager → Edge → Prop}
    (delivers : encoder.WellFormed →
      encoder.manager.Delivers encoder.nextLevel (operation encoder.manager) meaning) :
    Ensures alphabet (Encoder.diagram operation) encoder fun edge after =>
      after.manager.Owns edge ∧
        (after.manager.exhaustion = none → meaning after.manager edge) := by
  intro wellFormed
  have delivers := delivers wellFormed
  obtain ⟨wellFormed', grown⟩ := wellFormed.withManager delivers.wellFormed delivers.grown
  refine ⟨wellFormed', grown, ?_⟩
  rintro result ⟨⟩
  exact ⟨delivers.owns, delivers.meaning⟩

/-- Passing the check, the manager is not exhausted. -/
theorem ensures_checkExhausted {encoder : Encoder} :
    Ensures alphabet Encoder.checkExhausted encoder fun _ after =>
      after.manager.exhaustion = none := by
  intro wellFormed
  obtain ⟨diagrams, grown⟩ := wellFormed.diagrams.noticeDeadline
  obtain ⟨wellFormed', grown'⟩ := wellFormed.withManager diagrams grown
  unfold Encoder.checkExhausted
  cases exhaustion : encoder.manager.noticeDeadline.exhaustion with
  | none =>
      simp only [exhaustion]
      exact ⟨wellFormed', grown', fun _ _ => trivial⟩
  | some cause =>
      cases cause <;> simp only [exhaustion] <;>
        exact ⟨wellFormed', grown', by rintro result ⟨⟩⟩

/-- A loop over a list keeps what one round keeps. -/
theorem ensures_foldlM {step : α → ι → Encoding α} (holds : List ι → α → Encoder → Prop)
    (items : List ι) {start : α} {encoder : Encoder}
    (begins : encoder.WellFormed → holds [] start encoder)
    (round : ∀ done item rest result after, items = done ++ item :: rest →
      encoder.Extends alphabet after → after.WellFormed → holds done result after →
      Ensures alphabet (step result item) after (holds (done ++ [item]))) :
    Ensures alphabet (items.foldlM step start) encoder (holds items) := by
  -- The induction is on the items that are left, after those that are done.
  have continued (rest done : List ι) (split : items = done ++ rest) (result : α)
      (middle : Encoder) (grown : encoder.Extends alphabet middle)
      (kept : middle.WellFormed → holds done result middle) :
      Ensures alphabet (rest.foldlM step result) middle (holds items) := by
    induction rest generalizing done result middle with
    | nil =>
        rw [split, List.append_nil]
        exact ensures_pure kept
    | cons item rest ih =>
        rw [List.foldlM_cons]
        apply ensures_of_wellFormed
        intro wellFormed
        refine (round done item rest result middle split grown wellFormed
          (kept wellFormed)).bind ?_
        intro result' after grown' _ kept'
        exact ih (done ++ [item]) (by simpa using split) result' after (grown.trans grown')
          fun _ => kept'
  exact continued items [] rfl start encoder (.refl encoder) begins

/-- A loop that collects its results keeps what one round keeps. -/
theorem ensures_mapM {step : ι → Encoding β} (holds : List ι → List β → Encoder → Prop)
    (items : List ι) {encoder : Encoder}
    (begins : encoder.WellFormed → holds [] [] encoder)
    (round : ∀ done item rest results after, items = done ++ item :: rest →
      encoder.Extends alphabet after → after.WellFormed → holds done results after →
      Ensures alphabet (step item) after fun result =>
        holds (done ++ [item]) (results ++ [result])) :
    Ensures alphabet (items.mapM step) encoder (holds items) := by
  have continued (rest done : List ι) (split : items = done ++ rest) (results : List β)
      (middle : Encoder) (grown : encoder.Extends alphabet middle)
      (kept : middle.WellFormed → holds done results middle) :
      Ensures alphabet (List.mapM step rest) middle fun more =>
        holds items (results ++ more) := by
    induction rest generalizing done results middle with
    | nil =>
        rw [List.mapM_nil]
        apply ensures_pure
        rw [split, List.append_nil, List.append_nil]
        exact kept
    | cons item rest ih =>
        rw [List.mapM_cons]
        apply ensures_of_wellFormed
        intro wellFormed
        refine (round done item rest results middle split grown wellFormed
          (kept wellFormed)).bind ?_
        intro result after grown' _ kept'
        refine (ih (done ++ [item]) (by simpa using split) (results ++ [result]) after
          (grown.trans grown') fun _ => kept').bind ?_
        intro more after' _ _ kept''
        apply ensures_pure
        simpa using fun _ => kept''
  simpa using continued items [] rfl [] encoder (.refl encoder) begins

end Encoding

end AbstractionRefinement
