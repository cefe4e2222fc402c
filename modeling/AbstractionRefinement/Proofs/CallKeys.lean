import AbstractionRefinement.Proofs.DiagramSemantics

/-!
# Keys of if-then-else calls

The computed table compares calls by their keys only, so a remembered result is the
result of the call asked for as long as different calls have different keys.  An edge
to one of the first `32768` nodes has an unsigned code of 16 bits, a pair of such codes
is a number of 32 bits and no key wraps.  The next node already breaks the rule: its
plain edge pairs to a number whose square exceeds the word, and the keys of two calls
over small managers meet.
-/

namespace AbstractionRefinement

/-- Words are paired like numbers as long as nothing wraps. -/
theorem toNat_pairWords {first second : UInt64} (firstSmall : first.toNat < 2 ^ 32)
    (secondSmall : second.toNat < 2 ^ 32) :
    (pairWords first second).toNat = Nat.pair first.toNat second.toNat := by
  have squares {first second : Nat} (small : first < 2 ^ 32) (small' : second < 2 ^ 32) :
      first * first + first + second < 2 ^ 64 := by
    have bound : first * first ≤ (2 ^ 32 - 1) * (2 ^ 32 - 1) :=
      Nat.mul_le_mul (by omega) (by omega)
    omega
  have bound := squares firstSmall secondSmall
  have bound' := squares secondSmall firstSmall
  unfold pairWords Nat.pair
  by_cases less : first.toNat < second.toNat
  · rw [if_pos (UInt64.lt_iff_toNat_lt.mpr less), if_pos less]
    simp only [UInt64.toNat_add, UInt64.toNat_mul]
    omega
  · rw [if_neg (mt UInt64.lt_iff_toNat_lt.mp less), if_neg less]
    simp only [UInt64.toNat_add, UInt64.toNat_mul]
    omega

theorem pair_lt_of_le {first second : Nat} (le : first ≤ 65535) (le' : second ≤ 65535) :
    Nat.pair first second < 2 ^ 32 := by
  have root : max first second + 1 ≤ 2 ^ 16 := by omega
  calc Nat.pair first second
      < (max first second + 1) ^ 2 := Nat.pair_lt_max_add_one_sq first second
    _ ≤ (2 ^ 16) ^ 2 := Nat.pow_le_pow_left root 2
    _ = 2 ^ 32 := by decide

theorem Edge.unsigned_le {edge : Edge} (small : edge.index < 32768) :
    edge.unsigned ≤ 65535 := by
  have sign := Bool.toNat_le edge.isNegated
  unfold Edge.unsigned
  omega

namespace DiagramManager

/-- The key of a call over the first nodes is the number of its operands. -/
theorem toNat_iteKey {f g h : Edge} (smallF : f.index < 32768) (smallG : g.index < 32768)
    (smallH : h.index < 32768) :
    (iteKey f g h).toNat = Nat.pair (Nat.pair f.unsigned g.unsigned) h.unsigned := by
  have word {edge : Edge} (small : edge.index < 32768) :
      (UInt64.ofNat edge.unsigned).toNat = edge.unsigned ∧
        (UInt64.ofNat edge.unsigned).toNat < 2 ^ 32 := by
    have le := Edge.unsigned_le small
    have same : (UInt64.ofNat edge.unsigned).toNat = edge.unsigned :=
      UInt64.toNat_ofNat_of_lt' (by show edge.unsigned < 2 ^ 64; omega)
    exact ⟨same, by omega⟩
  obtain ⟨wordF, ltF⟩ := word smallF
  obtain ⟨wordG, ltG⟩ := word smallG
  obtain ⟨wordH, ltH⟩ := word smallH
  have inner : (pairWords (.ofNat f.unsigned) (.ofNat g.unsigned)).toNat =
      Nat.pair f.unsigned g.unsigned := by
    rw [toNat_pairWords ltF ltG, wordF, wordG]
  have innerLt := pair_lt_of_le (Edge.unsigned_le smallF) (Edge.unsigned_le smallG)
  unfold iteKey pairThreeWords
  rw [toNat_pairWords (inner ▸ innerLt) ltH, inner, wordH]

theorem eq_of_iteKey_eq {f g h f' g' h' : Edge}
    (small : ∀ edge ∈ [f, g, h, f', g', h'], edge.index < 32768)
    (same : iteKey f g h = iteKey f' g' h') : f = f' ∧ g = g' ∧ h = h' := by
  have numbers := congrArg UInt64.toNat same
  rw [toNat_iteKey (small f (by simp)) (small g (by simp)) (small h (by simp)),
    toNat_iteKey (small f' (by simp)) (small g' (by simp)) (small h' (by simp))] at numbers
  obtain ⟨pairs, sameH⟩ := Nat.pair_eq_pair.mp numbers
  obtain ⟨sameF, sameG⟩ := Nat.pair_eq_pair.mp pairs
  exact ⟨Edge.unsigned_injective sameF, Edge.unsigned_injective sameG,
    Edge.unsigned_injective sameH⟩

/-- Calls in normal form over a manager with the given node limit have different
keys. -/
def DistinctKeys (nodeLimit : Nat) : Prop :=
  ∀ f g h f' g' h' : Edge, f.isNegated = false → g.isNegated = false →
    f'.isNegated = false → g'.isNegated = false →
    (∀ edge ∈ [f, g, h, f', g', h'], edge.index < max 2 nodeLimit) →
    iteKey f g h = iteKey f' g' h' → f = f' ∧ g = g' ∧ h = h'

theorem distinctKeys_of_le {nodeLimit : Nat} (le : nodeLimit ≤ 32768) :
    DistinctKeys nodeLimit := by
  intro f g h f' g' h' _ _ _ _ bound same
  exact eq_of_iteKey_eq (fun edge member => by have := bound edge member; omega) same

/-- A call of the if-then-else operation. -/
structure IteCall where
  condition : Edge
  whenTrue : Edge
  whenFalse : Edge
deriving DecidableEq

/-- The key of the call in the computed table. -/
def IteCall.key (call : IteCall) : UInt64 :=
  iteKey call.condition call.whenTrue call.whenFalse

/-- The operands are edges that a manager with the node limit can hand out. -/
def IteCall.Within (call : IteCall) (nodeLimit : Nat) : Prop :=
  ∀ operand ∈ [call.condition, call.whenTrue, call.whenFalse],
    1 ≤ operand.index ∧ operand.index < nodeLimit

instance (call : IteCall) (nodeLimit : Nat) : Decidable (call.Within nodeLimit) :=
  inferInstanceAs (Decidable (∀ operand ∈ [call.condition, call.whenTrue, call.whenFalse],
    1 ≤ operand.index ∧ operand.index < nodeLimit))

/-- What a manager does with its computed table: ask for the result of a call, or
remember it. -/
inductive TableUse where
  | ask (call : IteCall)
  | remember (call : IteCall) (result : Edge)

/-- The call the table is used for. -/
def TableUse.call : TableUse → IteCall
  | .ask call => call
  | .remember call _ => call

/-- The table after a use. -/
def TableUse.perform (table : ComputedTable Edge) : TableUse → ComputedTable Edge
  | .ask call => (table.lookup call.key).2
  | .remember call result => table.store call.key result

/-- The last result remembered for a call, given the one remembered before a use. -/
def TableUse.recall (call : IteCall) (earlier : Option Edge) : TableUse → Option Edge
  | .ask _ => earlier
  | .remember other result => if other = call then some result else earlier

/-- The table of a manager that has used it so. -/
def tableAfter (bits : Nat) (uses : List TableUse) : ComputedTable Edge :=
  uses.foldl TableUse.perform (.new bits)

/-- The last result that was remembered for the very call. -/
def lastRemembered (call : IteCall) (uses : List TableUse) : Option Edge :=
  uses.foldl (TableUse.recall call) none

/-- A result that is found for a call within the limit is the last one that was
remembered for this call. -/
def Faithful (nodeLimit : Nat) : Prop :=
  ∀ (bits : Nat) (uses : List TableUse), (∀ use ∈ uses, use.call.Within nodeLimit) →
    ∀ call : IteCall, call.Within nodeLimit → ∀ result : Edge,
      (tableAfter bits uses).peek call.key = some result →
        lastRemembered call uses = some result

/-- The keys of the calls within the limit are all different. -/
def PerfectKeys (nodeLimit : Nat) : Prop :=
  ∀ call other : IteCall, call.Within nodeLimit → other.Within nodeLimit →
    call.key = other.key → call = other

/-- Only the slot of the stored key answers differently after a store, and it answers
to this key only. -/
theorem peek_store_eq_some {table : ComputedTable Edge} {key hash : UInt64}
    {stored result : Edge} (found : (table.store key stored).peek hash = some result) :
    (hash = key ∧ result = stored) ∨ (hash ≠ key ∧ table.peek hash = some result) := by
  unfold ComputedTable.peek ComputedTable.store at found
  rw [Std.TreeMap.getElem?_insert] at found
  split at found
  next occupant hash' kept slot =>
    split at slot
    next sameSlot =>
      cases slot
      split at found
      next same =>
        cases found
        exact .inl ⟨same.symm, rfl⟩
      next differ => cases found
    next otherSlot =>
      split at found
      next same =>
        cases found
        refine .inr ⟨fun same' => otherSlot ?_, ?_⟩
        · rw [same']
          exact Std.ReflCmp.compare_self
        · unfold ComputedTable.peek
          rw [slot]
          exact if_pos same
      next differ => cases found
  next => cases found

/-- One use of the table keeps what it finds for a call in step with what was last
remembered for it. -/
theorem TableUse.recall_of_peek {nodeLimit : Nat} (perfect : PerfectKeys nodeLimit)
    {call : IteCall} (within : call.Within nodeLimit) {table : ComputedTable Edge}
    {earlier : Option Edge} (faithful : ∀ result, table.peek call.key = some result →
      earlier = some result)
    (use : TableUse) (useWithin : use.call.Within nodeLimit) (result : Edge)
    (found : (use.perform table).peek call.key = some result) :
    use.recall call earlier = some result := by
  cases use with
  | ask other => exact faithful result found
  | remember other stored =>
    obtain ⟨sameKey, rfl⟩ | ⟨differ, kept⟩ := peek_store_eq_some found
    · exact if_pos (perfect other call useWithin within sameKey.symm)
    · have other' : other ≠ call := fun same => differ (same ▸ rfl)
      exact (if_neg other').trans (faithful result kept)

/-- Perfect keys make every run over the table faithful. -/
theorem PerfectKeys.faithful {nodeLimit : Nat} (perfect : PerfectKeys nodeLimit) :
    Faithful nodeLimit := by
  intro bits uses usesWithin call within
  -- The table and the last remembered result are folded together over the uses.
  have run : ∀ (table : ComputedTable Edge) (earlier : Option Edge),
      (∀ result, table.peek call.key = some result → earlier = some result) →
      ∀ result, (uses.foldl TableUse.perform table).peek call.key = some result →
        uses.foldl (TableUse.recall call) earlier = some result := by
    induction uses with
    | nil => exact fun _ _ faithful => faithful
    | cons use uses ih =>
      intro table earlier faithful
      exact ih (fun later member => usesWithin later (List.mem_cons_of_mem _ member)) _ _
        fun result found => use.recall_of_peek perfect within faithful
          (usesWithin use List.mem_cons_self) result found
  refine run (.new bits) none fun result found => ?_
  have empty : (ComputedTable.new bits : ComputedTable Edge).peek call.key = none := by
    unfold ComputedTable.peek ComputedTable.new
    rw [Std.TreeMap.getElem?_emptyc]
  rw [empty] at found
  cases found

def wideCall : IteCall := ⟨⟨331⟩, ⟨32768⟩, ⟨33⟩⟩

def narrowCall : IteCall := ⟨⟨772⟩, ⟨33⟩, ⟨1255⟩⟩

theorem wideCall_key : wideCall.key = narrowCall.key := by decide

theorem meetingCalls_within {nodeLimit : Nat} (lt : 32768 < nodeLimit) :
    wideCall.Within nodeLimit ∧ narrowCall.Within nodeLimit := by
  have within {call : IteCall} (within : call.Within 32769) : call.Within nodeLimit :=
    fun operand member => ⟨(within operand member).1, by have := (within operand member).2; omega⟩
  exact ⟨within (by decide), within (by decide)⟩

theorem peek_store_self (table : ComputedTable Edge) (key : UInt64) (result : Edge) :
    (table.store key result).peek key = some result := by
  unfold ComputedTable.peek ComputedTable.store
  rw [Std.TreeMap.getElem?_insert_self]
  exact if_pos rfl

/-- The keys of the calls that a manager with a node limit can make are different, and
what its table finds for a call is what was last remembered for this call, exactly when
the limit is at most `32768`. -/
theorem keys_perfect_iff (nodeLimit : Nat) :
    (PerfectKeys nodeLimit ↔ nodeLimit ≤ 32768) ∧ (Faithful nodeLimit ↔ nodeLimit ≤ 32768) := by
  have perfect (le : nodeLimit ≤ 32768) : PerfectKeys nodeLimit := by
    rintro ⟨f, g, h⟩ ⟨f', g', h'⟩ within within' same
    have small : ∀ edge ∈ [f, g, h, f', g', h'], edge.index < 32768 := by
      intro edge member
      have member' : edge ∈ [f, g, h] ∨ edge ∈ [f', g', h'] := List.mem_append.mp member
      obtain inFirst | inSecond := member'
      · exact Nat.lt_of_lt_of_le (within edge inFirst).2 le
      · exact Nat.lt_of_lt_of_le (within' edge inSecond).2 le
    obtain ⟨rfl, rfl, rfl⟩ := eq_of_iteKey_eq small same
    rfl
  have differ : narrowCall ≠ wideCall := by decide
  constructor
  · refine ⟨fun keys => Nat.le_of_not_lt fun lt => differ ?_, perfect⟩
    obtain ⟨wide, narrow⟩ := meetingCalls_within lt
    exact keys narrowCall wideCall narrow wide wideCall_key.symm
  · refine ⟨fun faithful => Nat.le_of_not_lt fun lt => ?_, fun le => (perfect le).faithful⟩
    obtain ⟨wide, narrow⟩ := meetingCalls_within lt
    -- The result remembered for the wide call is found for the narrow one.
    have found : (tableAfter 16 [.remember wideCall .one]).peek narrowCall.key = some .one :=
      wideCall_key ▸ peek_store_self _ _ _
    have remembered := faithful 16 [.remember wideCall .one]
      (fun use member => List.mem_singleton.mp member ▸ wide) narrowCall narrow .one found
    have forgotten : lastRemembered narrowCall [.remember wideCall .one] = none := by decide
    rw [forgotten] at remembered
    cases remembered

/-- Two calls within the default node limit have the same key. -/
theorem defaultNodeLimit_keys_meet :
    ∃ call other : IteCall, call.Within defaultNodeLimit ∧ other.Within defaultNodeLimit ∧
      call ≠ other ∧ call.key = other.key :=
  have within := (meetingCalls_within (by decide) :
    wideCall.Within defaultNodeLimit ∧ narrowCall.Within defaultNodeLimit)
  ⟨wideCall, narrowCall, within.1, within.2, by decide, wideCall_key⟩

end DiagramManager

end AbstractionRefinement
