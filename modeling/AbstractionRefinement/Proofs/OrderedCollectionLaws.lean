import AbstractionRefinement.FormulaTerms
import Mathlib

/-!
# Laws of ordered collections

Ordered sets and maps behave as sets and maps when the order of their elements
or keys is total and only equal elements compare as equal.  The orders of types,
variables and symbols are of this kind.
-/

namespace AbstractionRefinement

open Std (TransOrd LawfulEqOrd OrientedOrd TransCmp LawfulEqCmp OrientedCmp)

namespace OrderedSet

variable {α : Type} [Ord α] [LawfulEqOrd α]

@[simp]
theorem mem_insert {element other : α} {elements : List α} :
    other ∈ insert element elements ↔ other = element ∨ other ∈ elements := by
  induction elements with
  | nil => simp [insert]
  | cons head tail ih =>
      unfold insert
      split
      case h_1 => simp
      case h_2 equal =>
        have same : element = head := Std.compare_eq_iff_eq.mp equal
        subst same
        simp
      case h_3 =>
        simp only [List.mem_cons, ih]
        tauto

theorem mem_foldl_insert {other : α} (elements start : List α) :
    other ∈ elements.foldl (fun members element => insert element members) start ↔
      other ∈ start ∨ other ∈ elements := by
  induction elements generalizing start with
  | nil => simp
  | cons head tail ih =>
      rw [List.foldl_cons, ih, mem_insert, List.mem_cons]
      tauto

@[simp]
theorem mem_ofList {other : α} {elements : List α} : other ∈ ofList elements ↔ other ∈ elements := by
  simp [ofList, mem_foldl_insert]

@[simp]
theorem mem_union {other : α} {first second : List α} :
    other ∈ union first second ↔ other ∈ first ∨ other ∈ second :=
  mem_foldl_insert second first

/-- The elements increase strictly. -/
def Sorted (elements : List α) : Prop :=
  elements.Pairwise fun first second => compare first second = .lt

section Sorted

variable [TransOrd α]

theorem Sorted.insert {elements : List α} (sorted : Sorted elements) (element : α) :
    Sorted (insert element elements) := by
  induction elements with
  | nil => exact List.pairwise_singleton ..
  | cons head tail ih =>
      obtain ⟨below, sortedTail⟩ := List.pairwise_cons.mp sorted
      unfold OrderedSet.insert
      split
      case h_1 less =>
        refine List.pairwise_cons.mpr ⟨List.forall_mem_cons.mpr ⟨less, ?_⟩, sorted⟩
        exact fun other member => TransCmp.lt_trans less (below other member)
      case h_2 => exact sorted
      case h_3 greater =>
        refine List.pairwise_cons.mpr ⟨fun other member => ?_, ih sortedTail⟩
        rcases mem_insert.mp member with rfl | member
        · exact OrientedCmp.lt_of_gt greater
        · exact below other member

theorem Sorted.union {first : List α} (sorted : Sorted first) (second : List α) :
    Sorted (union first second) := by
  unfold OrderedSet.union
  induction second generalizing first with
  | nil => exact sorted
  | cons element second ih => exact ih (sorted.insert element)

theorem sorted_ofList (elements : List α) : Sorted (ofList elements) :=
  Sorted.union .nil elements

/-- Membership in a sorted list is decided along the order. -/
theorem Sorted.contains_iff {elements : List α} (sorted : Sorted elements) {element : α} :
    contains element elements = true ↔ element ∈ elements := by
  induction elements with
  | nil => simp [contains]
  | cons head tail ih =>
      obtain ⟨below, sortedTail⟩ := List.pairwise_cons.mp sorted
      unfold contains
      split
      case h_1 less =>
        refine iff_of_false Bool.false_ne_true fun member => ?_
        rcases List.mem_cons.mp member with rfl | member
        · simp at less
        · have greater := OrientedCmp.gt_of_lt (below element member)
          rw [less] at greater
          cases greater
      case h_2 same =>
        exact iff_of_true rfl (List.mem_cons.mpr (.inl (Std.compare_eq_iff_eq.mp same)))
      case h_3 greater =>
        rw [ih sortedTail, List.mem_cons]
        refine ⟨Or.inr, fun member => member.resolve_left ?_⟩
        rintro rfl
        simp at greater

end Sorted

end OrderedSet

namespace OrderedMap

variable {κ β : Type} [Ord κ] [TransOrd κ] [LawfulEqOrd κ] [DecidableEq κ]

/-- What is found after a pair was stored. -/
theorem find?_insert (key other : κ) (value : β) (entries : List (κ × β)) :
    find? other (insert key value entries) =
      if other = key then some value else find? other entries := by
  induction entries with
  | nil =>
      simp only [insert, find?]
      split
      case h_1 less =>
        rw [if_neg]
        rintro rfl
        simp at less
      case h_2 equal =>
        rw [if_pos (Std.compare_eq_iff_eq.mp equal)]
      case h_3 greater =>
        rw [if_neg]
        rintro rfl
        simp at greater
  | cons entry tail ih =>
      obtain ⟨head, old⟩ := entry
      unfold insert
      split
      case h_1 less =>
        rw [find?]
        split
        case h_1 before =>
          rw [if_neg (by rintro rfl; simp at before), find?, TransCmp.lt_trans before less]
        case h_2 equal =>
          rw [if_pos (Std.compare_eq_iff_eq.mp equal)]
        case h_3 after =>
          rw [if_neg (by rintro rfl; simp at after)]
      case h_2 equal =>
        obtain rfl := Std.compare_eq_iff_eq.mp equal
        simp only [find?]
        split
        case h_1 before =>
          rw [if_neg (by rintro rfl; simp at before)]
        case h_2 same =>
          rw [if_pos (Std.compare_eq_iff_eq.mp same)]
        case h_3 after =>
          rw [if_neg (by rintro rfl; simp at after)]
      case h_3 greater =>
        simp only [find?]
        split
        case h_1 before =>
          rw [if_neg]
          rintro rfl
          rw [greater] at before
          cases before
        case h_2 same =>
          obtain rfl := Std.compare_eq_iff_eq.mp same
          rw [if_neg]
          rintro rfl
          simp at greater
        case h_3 after => exact ih

omit [TransOrd κ] [DecidableEq κ] in
theorem mem_of_find? {key : κ} {value : β} {entries : List (κ × β)}
    (found : find? key entries = some value) : (key, value) ∈ entries := by
  induction entries with
  | nil => cases found
  | cons entry tail ih =>
      rw [find?] at found
      split at found
      · cases found
      · rename_i equal
        cases found
        rw [Std.compare_eq_iff_eq.mp equal]
        exact List.mem_cons_self
      · exact List.mem_cons_of_mem _ (ih found)

theorem find?_foldl_insert {key : κ} {value : β} (pairs : List (κ × β)) {entries : List (κ × β)}
    (found : find? key (pairs.foldl (fun entries pair => insert pair.1 pair.2 entries) entries) =
      some value) :
    (key, value) ∈ pairs ∨ find? key entries = some value := by
  induction pairs generalizing entries with
  | nil => exact .inr found
  | cons pair pairs ih =>
      rcases ih found with member | found
      · exact .inl (List.mem_cons_of_mem _ member)
      · rw [find?_insert] at found
        split at found
        case isTrue same =>
          cases found
          exact .inl (by simp [same])
        case isFalse => exact .inr found

theorem isSome_find?_foldl_insert {key : κ} (pairs : List (κ × β)) {entries : List (κ × β)}
    (stored : key ∈ pairs.map Prod.fst ∨ (find? key entries).isSome) :
    (find? key (pairs.foldl (fun entries pair => insert pair.1 pair.2 entries)
      entries)).isSome := by
  induction pairs generalizing entries with
  | nil => simpa using stored
  | cons pair pairs ih =>
      apply ih
      rw [find?_insert]
      split
      case isTrue => exact .inr rfl
      case isFalse differ =>
        rcases stored with member | stored
        · exact .inl ((List.mem_cons.mp member).resolve_left differ)
        · exact .inr stored

theorem mem_of_find?_ofList {key : κ} {value : β} {pairs : List (κ × β)}
    (found : find? key (ofList pairs) = some value) : (key, value) ∈ pairs :=
  (find?_foldl_insert pairs found).resolve_right (by simp [find?])

theorem isSome_find?_ofList {key : κ} {pairs : List (κ × β)}
    (member : key ∈ pairs.map Prod.fst) : (find? key (ofList pairs)).isSome :=
  isSome_find?_foldl_insert pairs (.inl member)

/-- The keys increase strictly. -/
def Sorted (entries : List (κ × β)) : Prop :=
  entries.Pairwise fun first second => compare first.1 second.1 = .lt

omit [TransOrd κ] [DecidableEq κ] in
theorem mem_of_mem_insert {key : κ} {value : β} {entry : κ × β} {entries : List (κ × β)}
    (member : entry ∈ insert key value entries) : entry = (key, value) ∨ entry ∈ entries := by
  induction entries with
  | nil => exact .inl (List.mem_singleton.mp member)
  | cons head tail ih =>
      unfold insert at member
      split at member
      case h_1 less => exact List.mem_cons.mp member
      case h_2 same =>
        rw [← Std.compare_eq_iff_eq.mp same] at member
        exact (List.mem_cons.mp member).imp_right (List.mem_cons_of_mem _)
      case h_3 greater =>
        rcases List.mem_cons.mp member with isHead | member
        · exact .inr (isHead ▸ List.mem_cons_self)
        · exact (ih member).imp_right (List.mem_cons_of_mem _)

omit [DecidableEq κ] in
theorem Sorted.insert {entries : List (κ × β)} (sorted : Sorted entries) (key : κ) (value : β) :
    Sorted (insert key value entries) := by
  induction entries with
  | nil => exact List.pairwise_singleton ..
  | cons head tail ih =>
      obtain ⟨below, sortedTail⟩ := List.pairwise_cons.mp sorted
      unfold OrderedMap.insert
      split
      case h_1 less =>
        refine List.pairwise_cons.mpr ⟨List.forall_mem_cons.mpr ⟨less, ?_⟩, sorted⟩
        exact fun entry member => TransCmp.lt_trans less (below entry member)
      case h_2 same => exact List.pairwise_cons.mpr ⟨below, sortedTail⟩
      case h_3 greater =>
        refine List.pairwise_cons.mpr ⟨fun entry member => ?_, ih sortedTail⟩
        rcases mem_of_mem_insert member with rfl | member
        · exact OrientedCmp.lt_of_gt greater
        · exact below entry member

omit [DecidableEq κ] in
theorem sorted_ofList (pairs : List (κ × β)) : Sorted (ofList pairs) := by
  have kept (entries : List (κ × β)) (sorted : Sorted entries) :
      Sorted (pairs.foldl (fun entries pair => insert pair.1 pair.2 entries) entries) := by
    induction pairs generalizing entries with
    | nil => exact sorted
    | cons pair pairs ih => exact ih _ (sorted.insert pair.1 pair.2)
  exact kept [] .nil

omit [TransOrd κ] [LawfulEqOrd κ] [DecidableEq κ] in
theorem sublist_erase (key : κ) (entries : List (κ × β)) : (erase key entries).Sublist entries := by
  induction entries with
  | nil => exact .slnil
  | cons head tail ih =>
      unfold erase
      split
      case h_1 => exact .refl _
      case h_2 => exact List.sublist_cons_self ..
      case h_3 => exact ih.cons_cons _

omit [TransOrd κ] [DecidableEq κ] in
theorem mem_erase_of_ne {key : κ} {entry : κ × β} {entries : List (κ × β)}
    (member : entry ∈ entries) (differ : entry.1 ≠ key) : entry ∈ erase key entries := by
  induction entries with
  | nil => cases member
  | cons head tail ih =>
      unfold erase
      split
      case h_1 => exact member
      case h_2 same =>
        refine (List.mem_cons.mp member).resolve_left ?_
        rintro rfl
        exact differ (Std.compare_eq_iff_eq.mp same).symm
      case h_3 =>
        exact List.mem_cons.mpr ((List.mem_cons.mp member).imp_right ih)

namespace Sorted

variable {entries : List (κ × β)} (sorted : Sorted entries)
include sorted

omit [TransOrd κ] [DecidableEq κ] in
theorem nodup : (entries.map Prod.fst).Nodup := by
  rw [List.Nodup, List.pairwise_map]
  refine sorted.imp fun {first second} less same => ?_
  rw [same] at less
  simp at less

omit [DecidableEq κ] in
theorem find?_eq_some_iff {key : κ} {value : β} :
    find? key entries = some value ↔ (key, value) ∈ entries := by
  refine ⟨mem_of_find?, fun member => ?_⟩
  induction entries with
  | nil => cases member
  | cons head tail ih =>
      obtain ⟨below, sortedTail⟩ := List.pairwise_cons.mp sorted
      rcases List.mem_cons.mp member with rfl | member
      · simp [find?]
      · rw [find?, OrientedCmp.gt_of_lt (below _ member)]
        exact ih sortedTail member

omit [DecidableEq κ] in
/-- An erased key is gone. -/
theorem ne_of_mem_erase {key : κ} {entry : κ × β} (member : entry ∈ erase key entries) :
    entry.1 ≠ key := by
  rintro rfl
  induction entries with
  | nil => cases member
  | cons head tail ih =>
      obtain ⟨below, sortedTail⟩ := List.pairwise_cons.mp sorted
      unfold erase at member
      split at member
      case h_1 less =>
        rcases List.mem_cons.mp member with rfl | member
        · simp at less
        · simpa using TransCmp.lt_trans less (below entry member)
      case h_2 same =>
        have less := below entry member
        rw [Std.compare_eq_iff_eq.mp same] at less
        simp at less
      case h_3 greater =>
        rcases List.mem_cons.mp member with rfl | member
        · simp at greater
        · exact ih sortedTail member

theorem find?_erase (key other : κ) :
    find? other (erase key entries) = if other = key then none else find? other entries := by
  have sortedErased : Sorted (erase key entries) := sorted.sublist (sublist_erase key entries)
  ext value
  rw [sortedErased.find?_eq_some_iff]
  constructor
  · intro member
    rw [if_neg (sorted.ne_of_mem_erase member)]
    exact sorted.find?_eq_some_iff.mpr ((sublist_erase key entries).subset member)
  · intro found
    split at found
    case isTrue => cases found
    case isFalse differ => exact mem_erase_of_ne (mem_of_find? found) differ

omit [DecidableEq κ] in
theorem eq_of_mem_iff {entries' : List (κ × β)} (sorted' : Sorted entries')
    (same : ∀ entry, entry ∈ entries ↔ entry ∈ entries') : entries = entries' := by
  have permuted := (List.perm_ext_iff_of_nodup (sorted.nodup.of_map Prod.fst)
    (sorted'.nodup.of_map Prod.fst)).mpr same
  refine permuted.eq_of_pairwise (fun first second _ _ less greater => ?_) sorted sorted'
  rw [OrientedCmp.gt_of_lt less] at greater
  cases greater

omit [DecidableEq κ] in
theorem eq_of_find? {entries' : List (κ × β)} (sorted' : Sorted entries')
    (same : ∀ key, find? key entries = find? key entries') : entries = entries' :=
  sorted.eq_of_mem_iff sorted' fun entry => by
    rw [← sorted.find?_eq_some_iff, ← sorted'.find?_eq_some_iff, same]

omit [DecidableEq κ] in
theorem value_unique {key : κ} {value value' : β} (member : (key, value) ∈ entries)
    (member' : (key, value') ∈ entries) : value = value' := by
  have found := sorted.find?_eq_some_iff.mpr member
  rw [sorted.find?_eq_some_iff.mpr member'] at found
  exact (Option.some.inj found).symm

end Sorted

theorem mem_of_mem_ofList {entry : κ × β} {pairs : List (κ × β)}
    (member : entry ∈ ofList pairs) : entry ∈ pairs :=
  mem_of_find?_ofList ((sorted_ofList pairs).find?_eq_some_iff.mpr member)

end OrderedMap

namespace Ty

theorem compareWith_eq_iff {first second : Ty} : first.compareWith second = .eq ↔ first = second := by
  induction first generalizing second with
  | array index element ihIndex ihElement =>
      cases second <;> simp [compareWith, Ordering.then_eq_eq, ihIndex, ihElement, rank]
  | _ => cases second <;> simp [compareWith, rank]

theorem compareWith_swap (first second : Ty) :
    first.compareWith second = (second.compareWith first).swap := by
  induction first generalizing second with
  | array index element ihIndex ihElement =>
      cases second with
      | array index' element' =>
          simp only [compareWith, Ordering.swap_then]
          rw [← ihIndex, ← ihElement]
      | _ => exact (Nat.compare_swap _ _).symm
  | _ => cases second <;> exact (Nat.compare_swap _ _).symm

theorem compareWith_lt_trans {first second third : Ty} (less : first.compareWith second = .lt)
    (less' : second.compareWith third = .lt) : first.compareWith third = .lt := by
  induction first generalizing second third with
  | array index element ihIndex ihElement =>
      cases second with
      | array index' element' =>
          cases third with
          | array index'' element'' =>
              simp only [compareWith, Ordering.then_eq_lt, compareWith_eq_iff] at less less' ⊢
              rcases less with less | ⟨rfl, less⟩
              · rcases less' with less' | ⟨rfl, -⟩
                · exact .inl (ihIndex less less')
                · exact .inl less
              · rcases less' with less' | ⟨rfl, less'⟩
                · exact .inl less'
                · exact .inr ⟨rfl, ihElement less less'⟩
          | _ => simp [compareWith, rank, Nat.compare_eq_lt] at less'
      | _ => simp [compareWith, rank, Nat.compare_eq_lt] at less
  | _ =>
      cases second <;> cases third <;>
        simp only [compareWith, rank, Nat.compare_eq_lt] at less less' ⊢ <;> omega

instance : LawfulEqOrd Ty where
  eq_of_compare := compareWith_eq_iff.mp
  compare_self := compareWith_eq_iff.mpr rfl

instance : TransOrd Ty where
  eq_swap {first second} := compareWith_swap first second
  isLE_trans {first second third} le le' := by
    rw [Ordering.isLE_iff_eq_lt_or_eq_eq] at le le' ⊢
    rcases le with less | same
    · rcases le' with less' | same'
      · exact .inl (compareWith_lt_trans less less')
      · rw [← compareWith_eq_iff.mp same']
        exact .inl less
    · rw [compareWith_eq_iff.mp same]
      exact le'

end Ty

namespace VarDecl

instance : TransOrd VarDecl :=
  inferInstanceAs (TransCmp (compareLex (compareOn name) (compareOn ty)))

instance : LawfulEqOrd VarDecl where
  eq_of_compare {first second} same := by
    obtain ⟨name, ty⟩ := Ordering.then_eq_eq.mp same
    cases first
    cases second
    simp_all
  compare_self {decl} := by
    show (compare decl.name decl.name).then (compare decl.ty decl.ty) = .eq
    simp

end VarDecl

namespace Symbol

theorem compareOptions_eq (first second : Option Nat) :
    compareOptions compare first second = compare first second := by
  cases first <;> cases second <;> rfl

instance : TransOrd Symbol :=
  have same : (compare : Symbol → Symbol → Ordering) =
      compareLex (compareOn decl) (compareOn index) := by
    funext first second
    exact congrArg (Ordering.then _) (compareOptions_eq first.index second.index)
  show TransCmp (compare : Symbol → Symbol → Ordering) from same ▸ inferInstance

instance : LawfulEqOrd Symbol where
  eq_of_compare {first second} same := by
    obtain ⟨decl, index⟩ := Ordering.then_eq_eq.mp same
    rw [compareOptions_eq] at index
    cases first
    cases second
    simp_all
  compare_self {symbol} := by
    show (compare symbol.decl symbol.decl).then
      (compareOptions compare symbol.index symbol.index) = .eq
    simp [compareOptions_eq]

end Symbol

end AbstractionRefinement
