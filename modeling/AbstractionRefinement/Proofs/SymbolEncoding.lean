import AbstractionRefinement.Proofs.EncodingLaws

/-!
# Encoding symbols

A symbol is encoded on new levels, and its constraint compares the number on them
with the size of its domain digit by digit.  The cube of an offset holds exactly
when the levels of the symbol give that offset.
-/

namespace AbstractionRefinement

namespace Encoder

variable {alphabet : List Symbol} {encoder : Encoder}

open DiagramManager (below_zero owns_zero owns_one)

/-- The edge has a meaning, unless the manager is exhausted. -/
structure Means (encoder : Encoder) (edge : Edge) (meaning : (Nat → Bool) → Bool → Prop) :
    Prop where
  owns : encoder.manager.Owns edge
  value : encoder.manager.exhaustion = none → ∀ assignment,
    meaning assignment (encoder.manager.value assignment edge)

theorem Means.mono {edge : Edge} {meaning meaning' : (Nat → Bool) → Bool → Prop}
    (means : encoder.Means edge meaning)
    (weaker : ∀ assignment truth, meaning assignment truth → meaning' assignment truth) :
    encoder.Means edge meaning' :=
  ⟨means.owns, fun unexhausted assignment => weaker _ _ (means.value unexhausted assignment)⟩

theorem Means.grow {after : Encoder} {edge : Edge} {meaning : (Nat → Bool) → Bool → Prop}
    (means : encoder.Means edge meaning) (wellFormed : encoder.WellFormed)
    (grown : encoder.Extends alphabet after) : after.Means edge meaning := by
  refine ⟨grown.diagrams.owns means.owns, ?_⟩
  intro unexhausted assignment
  rw [grown.diagrams.value_eq wellFormed.diagrams.toOrdered means.owns]
  exact means.value (grown.diagrams.unexhausted unexhausted) assignment

theorem means_one (wellFormed : encoder.WellFormed) :
    encoder.Means .one fun _ truth => truth = true :=
  ⟨owns_one wellFormed.diagrams.toOrdered, fun _ _ => DiagramManager.value_one⟩

theorem means_zero (wellFormed : encoder.WellFormed) :
    encoder.Means .zero fun _ truth => truth = false :=
  ⟨owns_zero wellFormed.diagrams.toOrdered, fun _ _ => DiagramManager.value_zero⟩

theorem Means.neg {edge : Edge} {meaning : (Nat → Bool) → Bool → Prop}
    (means : encoder.Means edge meaning) :
    encoder.Means (-edge) fun assignment truth => meaning assignment (!truth) := by
  refine ⟨DiagramManager.owns_neg.mpr means.owns, ?_⟩
  intro unexhausted assignment
  rw [DiagramManager.value_neg means.owns.1, Bool.not_not]
  exact means.value unexhausted assignment

end Encoder

namespace Encoding

variable {alphabet : List Symbol} {encoder : Encoder}

/-- A diagram operation on two edges with a meaning. -/
theorem ensures_operation {operation : Edge → Edge → DiagramManager → Edge × DiagramManager}
    {combine : Bool → Bool → Bool}
    (delivers : ∀ {manager : DiagramManager} {bound : Nat} {f g : Edge},
      manager.WellFormed bound → DiagramManager.DistinctKeys manager.nodeLimit →
      manager.Owns f → manager.Owns g →
      manager.Delivers bound (operation f g manager) fun after edge =>
        ∀ assignment, after.value assignment edge =
          combine (after.value assignment f) (after.value assignment g))
    {first second : Edge} {meaning meaning' : (Nat → Bool) → Bool → Prop}
    (means : encoder.WellFormed → encoder.Means first meaning)
    (means' : encoder.WellFormed → encoder.Means second meaning') :
    Ensures alphabet (Encoder.diagram (operation first second)) encoder fun edge after =>
      after.Means edge fun assignment truth => ∃ truth' truth'',
        meaning assignment truth' ∧ meaning' assignment truth'' ∧
          truth = combine truth' truth'' := by
  apply ensures_of_wellFormed
  intro wellFormed
  have owns := (means wellFormed).owns
  have owns' := (means' wellFormed).owns
  refine (ensures_diagram fun wellFormed =>
    delivers wellFormed.diagrams wellFormed.distinct owns owns').mono ?_
  intro edge after grown _ ⟨ownsEdge, value⟩
  refine ⟨ownsEdge, fun unexhausted assignment => ?_⟩
  have holds := ((means wellFormed).grow wellFormed grown).value unexhausted assignment
  have holds' := ((means' wellFormed).grow wellFormed grown).value unexhausted assignment
  exact ⟨_, _, holds, holds', value unexhausted assignment⟩

theorem ensures_makeVariable {level : Nat} (positive : 1 ≤ level)
    (used : level < encoder.nextLevel) :
    Ensures alphabet (Encoder.diagram (DiagramManager.makeVariable level)) encoder
      fun edge after => after.Means edge fun assignment truth => truth = assignment level := by
  refine (ensures_diagram fun wellFormed =>
    DiagramManager.makeVariable_delivers wellFormed.diagrams positive used).mono ?_
  intro edge after _ _ ⟨owns, value⟩
  exact ⟨owns, value⟩

theorem lt_two_pow_append {offset position : Nat} (constant : Nat)
    (small : offset < 2 ^ position) (bit : Bool) :
    decide (2 ^ position * bit.toNat + offset < constant % 2 ^ (position + 1)) =
      if constant.testBit position then !bit || decide (offset < constant % 2 ^ position)
      else !bit && decide (offset < constant % 2 ^ position) := by
  have remainder : constant % 2 ^ position < 2 ^ position :=
    Nat.mod_lt _ (Nat.two_pow_pos position)
  rw [Nat.mod_pow_succ, Nat.testBit_eq_decide_div_mod_eq]
  rcases Nat.mod_two_eq_zero_or_one (constant / 2 ^ position) with digit | digit <;>
    cases bit <;> simp [digit] <;> omega

theorem eq_length_of_zipIdx_eq {α : Type} {items : List α} {done rest : List (α × Nat)} {item : α}
    {position : Nat} (split : items.zipIdx = done ++ (item, position) :: rest) :
    position = done.length := by
  have found : items.zipIdx[done.length]? = some (item, position) := by
    rw [split]
    simp
  rw [List.getElem?_zipIdx] at found
  obtain ⟨other, -, same⟩ := Option.map_eq_some_iff.mp found
  simp only [Nat.zero_add, Prod.mk.injEq] at same
  exact same.2.symm

/-- Comparing the number on some levels with a constant. -/
theorem ensures_lessThan {levels : List Nat} {constant : Nat}
    (fits : 64 ≤ levels.length → 2 ^ levels.length ≤ constant)
    (used : ∀ level ∈ levels, 1 ≤ level ∧ level < encoder.nextLevel) :
    Ensures alphabet (Encoder.lessThan levels constant) encoder fun edge after =>
      after.Means edge fun assignment truth =>
        truth = decide (binaryOffset assignment levels < constant) := by
  unfold Encoder.lessThan
  split
  case isTrue large =>
    apply ensures_pure
    intro wellFormed
    apply (Encoder.means_one wellFormed).mono
    rintro assignment truth rfl
    have small := binaryOffset_lt assignment levels
    have enough : 2 ^ levels.length ≤ constant := by
      simp only [Bool.or_eq_true, decide_eq_true_eq] at large
      exact large.elim fits id
    exact (decide_eq_true (Nat.lt_of_lt_of_le small enough)).symm
  case isFalse small =>
    have below : constant < 2 ^ levels.length := by
      simp only [Bool.or_eq_true, decide_eq_true_eq, not_or, Nat.not_le] at small
      exact small.2
    refine (ensures_foldlM (fun done edge after =>
      after.Means edge fun assignment truth =>
        truth = decide (binaryOffset assignment (done.map Prod.fst) <
          constant % 2 ^ done.length)) levels.zipIdx ?_ ?_).mono ?_
    · intro wellFormed
      apply (Encoder.means_zero wellFormed).mono
      rintro assignment truth rfl
      simp [Nat.mod_one]
    · rintro done ⟨level, position⟩ rest edge middle split grown wellFormed means
      obtain rfl := eq_length_of_zipIdx_eq split
      have member : level ∈ levels := by
        have inside : (level, done.length) ∈ levels.zipIdx := by simp [split]
        exact List.fst_mem_of_mem_zipIdx inside
      have levelUsed := used level member
      refine (ensures_makeVariable levelUsed.1
        (Nat.lt_of_lt_of_le levelUsed.2 grown.nextLevel_le)).bind ?_
      intro bit after grown' _ meansBit
      have digit (assignment : Nat → Bool) := by
        have appended := lt_two_pow_append constant
          (binaryOffset_lt assignment (done.map Prod.fst)) (assignment level)
        rwa [← binaryOffset_append, List.length_map] at appended
      split
      case isTrue one =>
        refine (ensures_operation DiagramManager.disj_delivers (fun _ => meansBit.neg)
          fun _ => means.grow wellFormed grown').mono ?_
        intro edge' after' _ _ means'
        apply means'.mono
        rintro assignment truth ⟨bit', truth', notBit, rfl, rfl⟩
        rw [List.map_append, List.length_append, List.map_singleton, List.length_singleton,
          digit, if_pos one, ← notBit, Bool.not_not]
      case isFalse zero =>
        refine (ensures_operation DiagramManager.conj_delivers (fun _ => meansBit.neg)
          fun _ => means.grow wellFormed grown').mono ?_
        intro edge' after' _ _ means'
        apply means'.mono
        rintro assignment truth ⟨bit', truth', notBit, rfl, rfl⟩
        rw [List.map_append, List.length_append, List.map_singleton, List.length_singleton,
          digit, if_neg zero, ← notBit, Bool.not_not]
    · intro edge after _ _ means
      apply means.mono
      rintro assignment truth rfl
      rw [List.zipIdx_map_fst, List.length_zipIdx, Nat.mod_eq_of_lt below]

/-- The encoding always returns and changes diagrams only. -/
def OnlyDiagrams {α : Type} (computation : Encoding α) : Prop :=
  ∀ encoder, ∃ result manager, computation encoder = (.ok result, { encoder with manager })

theorem onlyDiagrams_pure {α : Type} (result : α) : OnlyDiagrams (pure result) :=
  fun encoder => ⟨result, encoder.manager, rfl⟩

theorem onlyDiagrams_diagram {α : Type} (operation : DiagramManager → α × DiagramManager) :
    OnlyDiagrams (Encoder.diagram operation) :=
  fun encoder => ⟨(operation encoder.manager).1, (operation encoder.manager).2, rfl⟩

theorem OnlyDiagrams.bind {α β : Type} {first : Encoding β} {next : β → Encoding α}
    (only : OnlyDiagrams first) (onlyNext : ∀ result, OnlyDiagrams (next result)) :
    OnlyDiagrams (first >>= next) := by
  intro encoder
  obtain ⟨result, manager, run⟩ := only encoder
  obtain ⟨result', manager', run'⟩ := onlyNext result { encoder with manager }
  refine ⟨result', manager', ?_⟩
  rw [bind_run, run]
  exact run'

theorem onlyDiagrams_foldlM {α ι : Type} {step : α → ι → Encoding α}
    (only : ∀ result item, OnlyDiagrams (step result item)) (items : List ι) (start : α) :
    OnlyDiagrams (items.foldlM step start) := by
  induction items generalizing start with
  | nil => exact onlyDiagrams_pure start
  | cons item items ih =>
      rw [List.foldlM_cons]
      exact (only start item).bind ih

theorem onlyDiagrams_lessThan (levels : List Nat) (constant : Nat) :
    OnlyDiagrams (Encoder.lessThan levels constant) := by
  unfold Encoder.lessThan
  split
  · exact onlyDiagrams_pure _
  · apply onlyDiagrams_foldlM
    rintro edge ⟨level, position⟩
    apply (onlyDiagrams_diagram _).bind
    intro bit
    split <;> exact onlyDiagrams_diagram _

def reserved (encoder : Encoder) (count : Nat) : Encoder :=
  { encoder with nextLevel := encoder.nextLevel + count }

def withSymbol (encoder : Encoder) (symbol : Symbol) (encoded : SymbolBits) : Encoder :=
  { encoder with
    symbols := OrderedMap.insert symbol encoded encoder.symbols
    owners := encoded.bits.foldl (fun owners level => owners.insert level symbol)
      encoder.owners }

/-- A symbol that is not encoded yet gets new levels. -/
theorem encodingOf_run {symbol : Symbol}
    (unknown : OrderedMap.find? symbol encoder.symbols = none) {domain : BitDomain} {size : Nat}
    (hasDomain : Encoder.domainOf encoder.config symbol = .ok (domain, size)) :
    ∃ manager valid,
      let bits := List.range' encoder.nextLevel (binaryLength (size - 1))
      let after := { reserved encoder bits.length with manager }
      let encoded : SymbolBits := { domain, bits, size, valid }
      Encoder.lessThan bits size (reserved encoder bits.length) = (.ok valid, after) ∧
        Encoder.encodingOf symbol encoder = (.ok encoded, withSymbol after symbol encoded) := by
  obtain ⟨valid, manager, run⟩ := onlyDiagrams_lessThan
    (List.range' encoder.nextLevel (binaryLength (size - 1))) size
    (reserved encoder (List.range' encoder.nextLevel (binaryLength (size - 1))).length)
  refine ⟨manager, valid, run, ?_⟩
  unfold reserved at run
  unfold Encoder.encodingOf
  simp only [bind_run, get_run, unknown, hasDomain, ok_run, modify_run, run, pure_run]
  rfl

/-- A domain with many values is that of a bitvector and fills its levels. -/
theorem two_pow_le_of_domainOf {config : SolverConfig} {symbol : Symbol} {domain : BitDomain}
    {size : Nat} (hasDomain : Encoder.domainOf config symbol = .ok (domain, size))
    (many : 64 ≤ binaryLength (size - 1)) : 2 ^ binaryLength (size - 1) ≤ size := by
  unfold Encoder.domainOf at hasDomain
  split at hasDomain
  · cases hasDomain
    have short := binaryLength_le (show 2 - 1 < 2 ^ 1 by decide)
    omega
  · simp only [Except.ok.injEq, Prod.mk.injEq] at hasDomain
    have short : binaryLength (size - 1) ≤ 63 := by
      apply binaryLength_le
      simp only [saturateInt64, minInt64, maxInt64] at hasDomain
      omega
    omega
  · split at hasDomain
    · cases hasDomain
      exact Nat.pow_le_pow_right (by decide)
        (binaryLength_le (Nat.sub_lt (Nat.two_pow_pos _) Nat.one_pos))
    · cases hasDomain
  · cases hasDomain

/-- Who owns a level after a block of levels got a new owner. -/
theorem getElem?_foldl_insert (levels : List Nat) (symbol : Symbol)
    (owners : Std.TreeMap Nat Symbol) (level : Nat) :
    (levels.foldl (fun owners level => owners.insert level symbol) owners)[level]? =
      if level ∈ levels then some symbol else owners[level]? := by
  induction levels generalizing owners with
  | nil => simp
  | cons first levels ih =>
      rw [List.foldl_cons, ih, Std.TreeMap.getElem?_insert]
      by_cases member : level ∈ levels
      · simp [member]
      · by_cases same : level = first
        · simp [same]
        · simp [member, same, Ne.symm same]

/-- A sum grows by what one of its terms grows by. -/
theorem sum_map_add_le {α : Type} {items : List α} {first second : α → Nat} {item : α} {gain : Nat}
    (member : item ∈ items) (le : ∀ other, first other ≤ second other)
    (gains : first item + gain ≤ second item) :
    (items.map first).sum + gain ≤ (items.map second).sum := by
  induction items with
  | nil => cases member
  | cons head items ih =>
      simp only [List.map_cons, List.sum_cons]
      rcases List.mem_cons.mp member with rfl | member
      · have rest : (items.map first).sum ≤ (items.map second).sum :=
          List.sum_le_sum fun other _ => le other
        omega
      · have headLe := le head
        have rest := ih member
        omega

theorem reserved_wellFormed (wellFormed : encoder.WellFormed) (count : Nat) :
    (reserved encoder count).WellFormed where
  diagrams := wellFormed.diagrams.mono (Nat.le_add_right _ _)
  distinct := wellFormed.distinct
  positive := Nat.le_trans wellFormed.positive (Nat.le_add_right _ _)
  sorted := wellFormed.sorted
  places found :=
    { wellFormed.places found with
      level_lt := fun member =>
        Nat.lt_of_lt_of_le ((wellFormed.places found).level_lt member) (Nat.le_add_right _ _) }

/-- Number of levels that the listed symbols own once all of them are encoded. -/
def levelTotal (config : SolverConfig) (alphabet : List Symbol) : Nat :=
  (alphabet.map (Encoder.levelCount config)).sum

theorem nextLevel_le (usesOnly : encoder.UsesOnly alphabet) :
    encoder.nextLevel ≤ 1 + levelTotal encoder.config alphabet := by
  refine Nat.le_trans usesOnly (Nat.add_le_add_left (List.sum_le_sum fun symbol _ => ?_) 1)
  split
  · exact Nat.le_refl _
  · exact Nat.zero_le _

section NewSymbol

variable {symbol : Symbol} {domain : BitDomain} {size : Nat} {manager : DiagramManager}
  {valid : Edge}

/-- A new symbol finds its place on reserved levels. -/
theorem withSymbol_wellFormed (wellFormed : encoder.WellFormed)
    (unknown : OrderedMap.find? symbol encoder.symbols = none)
    (hasDomain : Encoder.domainOf encoder.config symbol = .ok (domain, size))
    {bits : List Nat} (block : bits = List.range' encoder.nextLevel (binaryLength (size - 1)))
    (wellFormed' : { reserved encoder bits.length with manager }.WellFormed)
    (means : { reserved encoder bits.length with manager }.Means valid fun assignment truth =>
      truth = decide (binaryOffset assignment bits < size)) :
    (withSymbol { reserved encoder bits.length with manager } symbol
      { domain, bits, size, valid }).WellFormed := by
  have inBlock {level : Nat} (member : level ∈ bits) :
      encoder.nextLevel ≤ level ∧ level < encoder.nextLevel + bits.length := by
    have length : bits.length = binaryLength (size - 1) := by rw [block, List.length_range']
    rw [block, List.mem_range'_1] at member
    omega
  refine ⟨wellFormed'.diagrams, wellFormed'.distinct, wellFormed'.positive,
    wellFormed'.sorted.insert _ _, ?_⟩
  intro other encoded found
  have found' : OrderedMap.find? other (OrderedMap.insert symbol
      { domain, bits, size, valid } encoder.symbols) = some encoded := found
  rw [OrderedMap.find?_insert] at found'
  split at found'
  case isTrue same =>
    subst same
    cases found'
    refine ⟨hasDomain, ⟨encoder.nextLevel, wellFormed.positive, block⟩,
      fun member => (inBlock member).2, ?_, means.owns, means.value⟩
    intro level member
    show (bits.foldl (fun owners level => owners.insert level other) encoder.owners)[level]? = _
    rw [getElem?_foldl_insert, if_pos member]
  case isFalse differ =>
    have places := wellFormed'.places found'
    refine { places with owner_eq := ?_ }
    intro level member
    show (bits.foldl (fun owners level => owners.insert level symbol) encoder.owners)[level]? = _
    rw [getElem?_foldl_insert, if_neg]
    · exact places.owner_eq member
    · intro member'
      have used := (wellFormed.places found').level_lt member
      have fresh := (inBlock member').1
      omega

/-- A new symbol accounts for the levels reserved for it. -/
theorem withSymbol_extends (member : symbol ∈ alphabet)
    (unknown : OrderedMap.find? symbol encoder.symbols = none)
    (hasDomain : Encoder.domainOf encoder.config symbol = .ok (domain, size))
    {bits : List Nat} (block : bits = List.range' encoder.nextLevel (binaryLength (size - 1)))
    (grown : encoder.manager.Extends manager) :
    encoder.Extends alphabet (withSymbol { reserved encoder bits.length with manager } symbol
      { domain, bits, size, valid }) := by
  have found (other : Symbol) : OrderedMap.find? other
      (withSymbol { reserved encoder bits.length with manager } symbol
        { domain, bits, size, valid }).symbols =
      if other = symbol then some { domain, bits, size, valid }
      else OrderedMap.find? other encoder.symbols := OrderedMap.find?_insert ..
  refine ⟨grown, rfl, Nat.le_add_right _ _, ?_, ?_⟩
  · intro few
    have gain : encoder.usedLevels alphabet + bits.length ≤
        (withSymbol { reserved encoder bits.length with manager } symbol
          { domain, bits, size, valid }).usedLevels alphabet := by
      apply sum_map_add_le member
      · intro other
        rw [found]
        by_cases same : other = symbol
        · simp [same, unknown]
        · rw [if_neg same]
          exact Nat.le_refl _
      · have length : bits.length = Encoder.levelCount encoder.config symbol := by
          rw [block, List.length_range', Encoder.levelCount, hasDomain]
        rw [found, if_pos rfl, unknown, length]
        exact Nat.le_of_eq (Nat.zero_add _)
    unfold Encoder.UsesOnly at *
    have reservedLevels : (withSymbol { reserved encoder bits.length with manager } symbol
      { domain, bits, size, valid }).nextLevel = encoder.nextLevel + bits.length := rfl
    omega
  · intro other encoded known
    rw [found, if_neg, known]
    rintro rfl
    rw [unknown] at known
    cases known

end NewSymbol

/-- The encoding of a symbol, with new levels when it has none yet. -/
theorem ensures_encodingOf {symbol : Symbol} (member : symbol ∈ alphabet) :
    Ensures alphabet (Encoder.encodingOf symbol) encoder fun encoded after =>
      OrderedMap.find? symbol after.symbols = some encoded := by
  intro wellFormed
  cases found : OrderedMap.find? symbol encoder.symbols with
  | some known =>
      have run : Encoder.encodingOf symbol encoder = (.ok known, encoder) := by
        unfold Encoder.encodingOf
        simp only [bind_run, get_run, found, pure_run]
      rw [run]
      refine ⟨wellFormed, .refl encoder, ?_⟩
      rintro encoded ⟨⟩
      exact found
  | none =>
      cases hasDomain : Encoder.domainOf encoder.config symbol with
      | error cause =>
          have run : Encoder.encodingOf symbol encoder = (.error cause, encoder) := by
            unfold Encoder.encodingOf
            simp only [bind_run, get_run, found, hasDomain, error_run]
          rw [run]
          exact ⟨wellFormed, .refl encoder, by rintro encoded ⟨⟩⟩
      | ok domain =>
          obtain ⟨domain, size⟩ := domain
          obtain ⟨manager, valid, constraint, run⟩ := encodingOf_run found hasDomain
          have used : ∀ level ∈ List.range' encoder.nextLevel (binaryLength (size - 1)),
              1 ≤ level ∧ level < (reserved encoder (List.range' encoder.nextLevel
                (binaryLength (size - 1))).length).nextLevel := by
            intro level member
            have positive := wellFormed.positive
            rw [List.mem_range'_1] at member
            simp only [reserved, List.length_range']
            omega
          have compared : Ensures alphabet _ _ _ :=
            ensures_lessThan (by simpa using two_pow_le_of_domainOf hasDomain) used
          have outcome := compared (reserved_wellFormed wellFormed _)
          rw [constraint] at outcome
          obtain ⟨wellFormed', grown, means⟩ := outcome
          rw [run]
          refine ⟨withSymbol_wellFormed wellFormed found hasDomain rfl wellFormed'
            (means valid rfl), withSymbol_extends member found hasDomain rfl grown.diagrams, ?_⟩
          rintro encoded ⟨⟩
          exact (OrderedMap.find?_insert ..).trans (if_pos rfl)

/-- The literal of a level with its position among the bits of an offset. -/
def offsetLiteral (offset : Nat) (entry : Nat × Nat) : Int :=
  if offset.testBit entry.2 then (entry.1 : Int) else -(entry.1 : Int)

theorem natAbs_offsetLiteral (offset : Nat) (entry : Nat × Nat) :
    (offsetLiteral offset entry).natAbs = entry.1 := by
  unfold offsetLiteral
  split <;> simp

/-- The cube of an offset holds where the levels give that offset. -/
theorem ensures_offsetCube {symbol : Symbol} {encoded : SymbolBits}
    (known : OrderedMap.find? symbol encoder.symbols = some encoded) {offset : Nat}
    (small : offset < encoded.size) :
    Ensures alphabet (Encoder.offsetCube encoded offset) encoder fun edge after =>
      after.Means edge fun assignment truth =>
        truth = decide (encoded.offset assignment = offset) := by
  apply ensures_of_wellFormed
  intro wellFormed
  have places := wellFormed.places known
  have fits := Nat.lt_of_lt_of_le small places.size_le
  obtain ⟨first, positive, block⟩ := places.bits_eq
  have positiveLevels {level : Nat} (member : level ∈ encoded.bits) : 1 ≤ level := by
    rw [block, List.mem_range'_1] at member
    omega
  have descending : ((encoded.bits.zipIdx.map (offsetLiteral offset)).reverse).Pairwise
      fun first second => second.natAbs < first.natAbs := by
    rw [List.pairwise_reverse, List.pairwise_map]
    simp only [natAbs_offsetLiteral]
    rw [← List.pairwise_map, List.zipIdx_map_fst, block]
    exact List.pairwise_lt_range'
  have inUse : ∀ literal ∈ (encoded.bits.zipIdx.map (offsetLiteral offset)).reverse,
      1 ≤ literal.natAbs ∧ literal.natAbs < encoder.nextLevel := by
    simp only [List.mem_reverse, List.mem_map, forall_exists_index, and_imp,
      forall_apply_eq_imp_iff₂, natAbs_offsetLiteral]
    rintro ⟨level, position⟩ member
    have inBlock : level ∈ encoded.bits := List.fst_mem_of_mem_zipIdx member
    exact ⟨positiveLevels inBlock, places.level_lt inBlock⟩
  refine (ensures_diagram fun wellFormed => DiagramManager.cubeOfDescending_delivers
    wellFormed.diagrams descending inUse).mono ?_
  intro edge after _ _ ⟨owns, value⟩
  refine ⟨owns, fun unexhausted assignment => ?_⟩
  rw [value unexhausted, Bool.eq_iff_iff, decide_eq_true_iff, SymbolBits.offset,
    binaryOffset_eq_iff fits]
  simp only [List.all_eq_true, List.mem_reverse, List.mem_map, forall_exists_index, and_imp,
    forall_apply_eq_imp_iff₂]
  apply forall₂_congr
  rintro ⟨level, position⟩ member
  have positiveLevel := positiveLevels (List.fst_mem_of_mem_zipIdx member)
  unfold offsetLiteral DiagramManager.LiteralHolds
  cases offset.testBit position with
  | false =>
      simp
      omega
  | true => simp

end Encoding

namespace Encoder

variable {alphabet : List Symbol} {encoder : Encoder}

/-- The levels of a symbol give an offset of its domain. -/
def Within (encoder : Encoder) (assignment : Nat → Bool) (symbol : Symbol) : Prop :=
  ∃ encoded, OrderedMap.find? symbol encoder.symbols = some encoded ∧
    encoded.offset assignment < encoded.size

/-- The symbol is encoded. -/
def Knows (encoder : Encoder) (symbol : Symbol) : Prop :=
  ∃ encoded, OrderedMap.find? symbol encoder.symbols = some encoded

theorem Knows.grow {after : Encoder} {symbol : Symbol} (knows : encoder.Knows symbol)
    (grown : encoder.Extends alphabet after) : after.Knows symbol := by
  obtain ⟨encoded, found⟩ := knows
  exact ⟨encoded, grown.find?_eq found⟩

theorem Knows.within_iff {after : Encoder} {symbol : Symbol} (knows : encoder.Knows symbol)
    (grown : encoder.Extends alphabet after) (assignment : Nat → Bool) :
    after.Within assignment symbol ↔ encoder.Within assignment symbol := by
  obtain ⟨encoded, found⟩ := knows
  simp [Within, found, grown.find?_eq found]

theorem Knows.interpret_eq {after : Encoder} {symbol : Symbol} (knows : encoder.Knows symbol)
    (grown : encoder.Extends alphabet after) (assignment : Nat → Bool) :
    after.interpret assignment symbol = encoder.interpret assignment symbol := by
  obtain ⟨encoded, found⟩ := knows
  exact grown.interpret_eq found assignment

/-- An assignment of the levels that gives every symbol a chosen offset. -/
def assignmentOf (encoder : Encoder) (offsets : Symbol → Nat) (level : Nat) : Bool :=
  match encoder.owners[level]? with
  | none => false
  | some symbol =>
      match OrderedMap.find? symbol encoder.symbols with
      | none => false
      | some encoded => (offsets symbol).testBit (level - encoded.bits.headD 0)

theorem offset_assignmentOf (wellFormed : encoder.WellFormed) {offsets : Symbol → Nat}
    {symbol : Symbol} {encoded : SymbolBits}
    (found : OrderedMap.find? symbol encoder.symbols = some encoded)
    (small : offsets symbol < encoded.size) :
    encoded.offset (encoder.assignmentOf offsets) = offsets symbol := by
  have places := wellFormed.places found
  obtain ⟨first, -, block⟩ := places.bits_eq
  apply (binaryOffset_eq_iff (Nat.lt_of_lt_of_le small places.size_le)).mpr
  rintro ⟨level, position⟩ member
  have inBlock : level ∈ encoded.bits := List.fst_mem_of_mem_zipIdx member
  have head : encoded.bits.headD 0 = first := by
    rw [block] at inBlock ⊢
    cases count : binaryLength (encoded.size - 1) with
    | zero => simp [count] at inBlock
    | succ count => rw [List.range'_succ]; rfl
  have place : level = first + position := by
    obtain ⟨inside, equal⟩ := List.mem_zipIdx' member
    rw [equal]
    simp [block]
  show encoder.assignmentOf offsets level = (offsets symbol).testBit position
  unfold assignmentOf
  simp only [places.owner_eq inBlock, found]
  rw [head, place, Nat.add_sub_cancel_left]

end Encoder

namespace Encoding

variable {alphabet : List Symbol} {encoder : Encoder}

/-- The constraint of a formula says that its symbols have values of their
domains. -/
theorem ensures_domainConstraint {formula : Expr}
    (occurs : ∀ symbol ∈ formula.symbols, symbol ∈ alphabet) :
    Ensures alphabet (Encoder.domainConstraint formula) encoder fun edge after =>
      (∀ symbol ∈ formula.symbols, after.Knows symbol) ∧
        after.Means edge fun assignment truth =>
          truth = true ↔ ∀ symbol ∈ formula.symbols, after.Within assignment symbol := by
  apply ensures_foldlM fun done edge after =>
    (∀ symbol ∈ done, after.Knows symbol) ∧ after.Means edge fun assignment truth =>
      truth = true ↔ ∀ symbol ∈ done, after.Within assignment symbol
  · intro wellFormed
    refine ⟨by simp, (Encoder.means_one wellFormed).mono ?_⟩
    rintro assignment truth rfl
    simp
  · rintro done symbol rest total middle split grown wellFormed ⟨knows, means⟩
    have member : symbol ∈ formula.symbols := by simp [split]
    refine (ensures_encodingOf (occurs symbol member)).bind ?_
    intro encoded after grown' wellFormed' found
    have places := wellFormed'.places found
    have constraint : after.Means encoded.valid fun assignment truth =>
        truth = decide (encoded.offset assignment < encoded.size) :=
      ⟨places.owns_valid, places.value_valid⟩
    refine (ensures_operation DiagramManager.conj_delivers
      (fun _ => means.grow wellFormed grown') fun _ => constraint).mono ?_
    intro edge last grown'' _ means'
    have knows' (other : Symbol) (among : other ∈ done) : after.Knows other :=
      (knows other among).grow grown'
    constructor
    · intro other among
      rcases List.mem_append.mp among with among | among
      · exact (knows' other among).grow grown''
      · rw [List.mem_singleton.mp among]
        exact ⟨encoded, grown''.find?_eq found⟩
    · apply means'.mono
      rintro assignment truth ⟨truth', truth'', meaning, rfl, rfl⟩
      rw [Bool.and_eq_true, meaning, decide_eq_true_iff, List.forall_mem_append]
      apply and_congr
      · apply forall₂_congr
        intro other among
        rw [(knows' other among).within_iff grown'', (knows other among).within_iff grown']
      · simp [Encoder.Within, grown''.find?_eq found]

end Encoding

end AbstractionRefinement
