import AbstractionRefinement.Proofs.CanonicalValues

/-!
# Equality of arrays

An array that is built by writing elements into a constant array is the canonical
representation of its elements relative to its default element, since writing the default
erases an entry.  Two such arrays with the same elements are equal unless their entries
together take every index: then the elements alone do not determine the default.
-/

namespace AbstractionRefinement

namespace Value

/-- The arrays made of a constant array by writing elements. -/
inductive BuiltArray (index element : Ty) : Value → Prop
  | constant {default : Value} : default.Proper element →
      BuiltArray index element (constantArray index default)
  | store {array place stored result : Value} : BuiltArray index element array →
      place.Proper index → stored.Proper element → array.store place stored = some result →
      BuiltArray index element result

/-- The arrays have the same element at every index. -/
def Agree (index : Ty) (first second : Value) : Prop :=
  ∀ place : Value, place.Proper index → first.select place = second.select place

/-- The indices with an entry, whose elements are not the default. -/
def entryPlaces : Value → List Value
  | array _ _ entries => entries.map Prod.fst
  | _ => []

section Entries

variable {index element : Ty} {default : Value} {entries : List (Value × Value)}

/-- The entries of a canonical array with the default element. -/
structure ProperEntries (index element : Ty) (default : Value) (entries : List (Value × Value)) :
    Prop where
  sorted : OrderedMap.Sorted entries
  place : ∀ entry ∈ entries, entry.1.Proper index
  stored : ∀ entry ∈ entries, entry.2.Proper element
  differs : ∀ entry ∈ entries, entry.2 ≠ default

theorem Proper.exists_array {array : Value} (proper : array.Proper (.array index element)) :
    ∃ default entries, array = .array index default entries ∧ default.Proper element ∧
      ProperEntries index element default entries := by
  obtain ⟨typed, canonical⟩ := proper
  cases array with
  | array index' default entries =>
      obtain ⟨rfl, typedDefault, typedEntries⟩ := typed
      obtain ⟨canonicalDefault, sorted, canonicalEntries⟩ := canonical
      rw [entriesHaveType_iff] at typedEntries
      rw [entriesCanonical_iff] at canonicalEntries
      exact ⟨default, entries, rfl, ⟨typedDefault, canonicalDefault⟩, sorted,
        fun entry member => ⟨(typedEntries entry member).1, (canonicalEntries entry member).1⟩,
        fun entry member => ⟨(typedEntries entry member).2, (canonicalEntries entry member).2.1⟩,
        fun entry member => (canonicalEntries entry member).2.2⟩
  | _ => cases typed

theorem BuiltArray.proper {array : Value} (built : BuiltArray index element array) :
    array.Proper (.array index element) := by
  induction built with
  | constant proper =>
      exact ⟨⟨rfl, proper.hasType, trivial⟩, canonical_constantArray index proper.canonical⟩
  | store _ properPlace properStored written ih =>
      exact ⟨ih.hasType.store properPlace.hasType properStored.hasType written,
        ih.canonical.store properPlace.canonical properStored.canonical written⟩

theorem find?_eq_none {place : Value} (absent : place ∉ entries.map Prod.fst) :
    OrderedMap.find? place entries = none := by
  cases found : OrderedMap.find? place entries with
  | none => rfl
  | some stored =>
      exact absurd (List.mem_map_of_mem (OrderedMap.mem_of_find? found)) absent

theorem ProperEntries.find?_eq (proper : ProperEntries index element default entries)
    (place : Value) : OrderedMap.find? place entries =
      if (OrderedMap.find? place entries).getD default = default then none
      else some ((OrderedMap.find? place entries).getD default) := by
  cases found : OrderedMap.find? place entries with
  | none => simp
  | some stored => simp [proper.differs _ (OrderedMap.mem_of_find? found)]

end Entries

section Arrays

variable {index element : Ty} {first second : Value}
  (proper : first.Proper (.array index element)) (proper' : second.Proper (.array index element))

include proper proper'

/-- Arrays with the same elements are equal, unless every index has an entry: at an index
without one both arrays have their defaults, and entries over one default are determined by
the elements. -/
theorem Agree.eq_or_entryPlaces (agree : first.Agree index second) :
    first = second ∨
      ∀ place : Value, place.Proper index →
        place ∈ first.entryPlaces ∨ place ∈ second.entryPlaces := by
  obtain ⟨default, entries, rfl, -, properEntries⟩ := proper.exists_array
  obtain ⟨default', entries', rfl, -, properEntries'⟩ := proper'.exists_array
  have sameElement (place : Value) (properPlace : place.Proper index) :
      (OrderedMap.find? place entries).getD default =
        (OrderedMap.find? place entries').getD default' :=
    Option.some.inj (agree place properPlace)
  by_cases sameDefault : default = default'
  · subst sameDefault
    left
    congr 1
    refine properEntries.sorted.eq_of_find? properEntries'.sorted fun place => ?_
    by_cases properPlace : place.Proper index
    · rw [properEntries.find?_eq, properEntries'.find?_eq, sameElement place properPlace]
    · have absent {entries : List (Value × Value)}
          (properEntries : ProperEntries index element default entries) :
          place ∉ entries.map Prod.fst := by
        intro member
        obtain ⟨entry, occurs, rfl⟩ := List.mem_map.mp member
        exact properPlace (properEntries.place entry occurs)
      rw [find?_eq_none (absent properEntries), find?_eq_none (absent properEntries')]
  · right
    intro place properPlace
    by_contra absent
    obtain ⟨absent, absent'⟩ := not_or.mp absent
    have same := sameElement place properPlace
    rw [find?_eq_none absent, find?_eq_none absent'] at same
    exact sameDefault same

theorem eq_iff_agree {place : Value} (properPlace : place.Proper index)
    (absent : place ∉ first.entryPlaces) (absent' : place ∉ second.entryPlaces) :
    first = second ↔ first.Agree index second := by
  constructor
  · rintro rfl place -
    rfl
  · intro agree
    refine (agree.eq_or_entryPlaces proper proper').resolve_right fun all => ?_
    exact (all place properPlace).elim absent absent'

end Arrays

section Writing

variable {index element : Ty} {array place stored result : Value}
  (proper : array.Proper (.array index element))

theorem find?_written {default : Value} {entries : List (Value × Value)}
    (sorted : OrderedMap.Sorted entries) (place stored other : Value) :
    OrderedMap.find? other (if stored = default then OrderedMap.erase place entries
        else OrderedMap.insert place stored entries) =
      if other = place then (if stored = default then none else some stored)
      else OrderedMap.find? other entries := by
  split
  · exact sorted.find?_erase place other
  · exact OrderedMap.find?_insert place other stored entries

include proper

/-- A write has a result, with the element written at its index and the old elements at all
other indices. -/
theorem Proper.exists_store (place stored : Value) :
    ∃ result, array.store place stored = some result ∧
      ∀ other, result.select other = if other = place then some stored else array.select other := by
  obtain ⟨default, entries, rfl, -, properEntries⟩ := proper.exists_array
  refine ⟨_, rfl, fun other => ?_⟩
  rw [select, select, find?_written properEntries.sorted]
  by_cases isPlace : other = place
  · by_cases isDefault : stored = default <;> simp [isPlace, isDefault]
  · simp [isPlace]

/-- Writes at different indices commute. -/
theorem Proper.store_comm {place' : Value} (differ : place ≠ place') (stored stored' : Value) :
    (do (← array.store place stored).store place' stored') =
      (do (← array.store place' stored').store place stored) := by
  obtain ⟨default, entries, rfl, -, properEntries⟩ := proper.exists_array
  have sortedWritten {entries : List (Value × Value)} (sorted : OrderedMap.Sorted entries)
      (place stored : Value) : OrderedMap.Sorted (if stored = default then
        OrderedMap.erase place entries else OrderedMap.insert place stored entries) := by
    split
    · exact sorted.sublist (OrderedMap.sublist_erase place entries)
    · exact sorted.insert place stored
  have sorted := sortedWritten properEntries.sorted place stored
  have sorted' := sortedWritten properEntries.sorted place' stored'
  show some (Value.array _ _ _) = some (Value.array _ _ _)
  congr 2
  refine (sortedWritten sorted place' stored').eq_of_find? (sortedWritten sorted' place stored)
    fun other => ?_
  rw [find?_written sorted, find?_written properEntries.sorted, find?_written sorted',
    find?_written properEntries.sorted]
  by_cases isPlace : other = place
  · simp [isPlace, differ]
  · simp [isPlace]

end Writing

/-- Equality of arrays built over one type.  The equation of two formulas with such values
holds if they are the same representation.  Arrays with the same elements are equal, unless
the entries of both together take every index; so as long as an index is left, equality is
agreement on every index.  An element that was written is read at its index, the others stay,
and writes at different indices commute. -/
theorem BuiltArray.extensional {index element : Ty} {array other : Value}
    (built : BuiltArray index element array) (built' : BuiltArray index element other) :
    (∀ (assignment : Symbol → Option Value) (left right : Expr),
      left.eval assignment = some array → right.eval assignment = some other →
        (Expr.binary .eq left right .bool).eval assignment =
          some (.bool (decide (array = other)))) ∧
    (array.Agree index other → array = other ∨ ∀ place : Value, place.Proper index →
      place ∈ array.entryPlaces ∨ place ∈ other.entryPlaces) ∧
    ((∃ place : Value, place.Proper index ∧ place ∉ array.entryPlaces ∧
      place ∉ other.entryPlaces) → (array = other ↔ array.Agree index other)) ∧
    (∀ place stored : Value, ∃ result, array.store place stored = some result ∧
      result.select place = some stored ∧
      ∀ place', place' ≠ place → result.select place' = array.select place') ∧
    ∀ place place' stored stored' : Value, place ≠ place' →
      (do (← array.store place stored).store place' stored') =
        (do (← array.store place' stored').store place stored) := by
  have proper := built.proper
  have proper' := built'.proper
  refine ⟨fun assignment left right hasLeft hasRight => ?_,
    fun agree => agree.eq_or_entryPlaces proper proper', ?_, fun place stored => ?_,
    fun place place' stored stored' differ => proper.store_comm differ stored stored'⟩
  · rw [Expr.eval, hasLeft, hasRight]
    rfl
  · rintro ⟨place, properPlace, absent, absent'⟩
    exact eq_iff_agree proper proper' properPlace absent absent'
  · obtain ⟨result, written, selected⟩ := proper.exists_store place stored
    refine ⟨result, written, ?_, fun place' differ => ?_⟩
    · rw [selected, if_pos rfl]
    · rw [selected, if_neg differ]

/-- An integer array and one with a further entry: neither has an entry at index 5, so that
they do not agree, and writing the default there and at the further entry restores the first. -/
theorem integer_arrays_extensional :
    let first := Value.array .int (.int 0) [(.int 3, .int 7)]
    let second := Value.array .int (.int 0) [(.int 3, .int 7), (.int 4, .int 1)]
    BuiltArray .int .int first ∧ BuiltArray .int .int second ∧ ¬ first.Agree .int second ∧
      (Expr.binary .eq (.lit first) (.lit second) .bool).eval (fun _ => none) =
        some (.bool false) ∧
      (do (← second.store (.int 4) (.int 0)).store (.int 5) (.int 0)) = some first := by
  intro first second
  have proper (number : Int) (fits : FitsInt64 number) : (Value.int number).Proper .int :=
    ⟨fits, trivial⟩
  have start : BuiltArray .int .int (constantArray .int (.int 0)) := .constant (proper 0 (by decide))
  have built : BuiltArray .int .int first :=
    start.store (proper 3 (by decide)) (proper 7 (by decide)) rfl
  have built' : BuiltArray .int .int second :=
    built.store (proper 4 (by decide)) (proper 1 (by decide)) rfl
  obtain ⟨-, -, -, -, commute⟩ := built'.extensional built
  obtain ⟨equation, -, equal, -⟩ := built.extensional built'
  refine ⟨built, built', fun agree => ?_, ?_, ?_⟩
  · have same := (equal ⟨.int 5, proper 5 (by decide), by decide, by decide⟩).mpr agree
    exact absurd same (by decide)
  · exact equation _ _ _ rfl rfl
  · rw [commute _ _ _ _ (by decide)]
    rfl

/-- Writing one element at both truth values gives another array than the constant one,
with the same elements. -/
theorem exhausted_array_differs :
    let exhausted := Value.array .bool (.bool false)
      [(.bool false, .bool true), (.bool true, .bool true)]
    let constant := constantArray .bool (.bool true)
    BuiltArray .bool .bool exhausted ∧ BuiltArray .bool .bool constant ∧
      exhausted.Agree .bool constant ∧ exhausted ≠ constant ∧
      (Expr.binary .eq (.lit exhausted) (.lit constant) .bool).eval (fun _ => none) =
        some (.bool false) := by
  have proper (truth : Bool) : (Value.bool truth).Proper .bool := ⟨hasType_bool truth, trivial⟩
  have start : BuiltArray .bool .bool (constantArray .bool (.bool false)) := .constant (proper false)
  have half : BuiltArray .bool .bool (.array .bool (.bool false) [(.bool true, .bool true)]) :=
    start.store (proper true) (proper true) rfl
  refine ⟨half.store (proper false) (proper true) rfl, .constant (proper true), ?_, by decide, rfl⟩
  intro place properPlace
  obtain ⟨truth, rfl⟩ := properPlace.hasType.exists_bool
  cases truth <;> rfl

end Value

end AbstractionRefinement
