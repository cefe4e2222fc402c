import AbstractionRefinement.Proofs.FormulaSymbols

/-!
# Order of values and formulas

Values and formulas are compared by their representation: only equal ones compare as
equal, and the comparison is symmetric and transitive, so that ordered sets of formulas
behave as sets.
-/

namespace AbstractionRefinement

open Std (LawfulEqOrd TransOrd TransCmp)

/-- Two comparisons, neither of which is greater, determine the third one. -/
def Transits (first second both : Ordering) : Prop :=
  first.isLE → second.isLE → both = first.then second

namespace Transits

theorem of_compare {α : Type} [Ord α] [TransOrd α] {first second third : α} :
    Transits (compare first second) (compare second third) (compare first third) := by
  intro le le'
  rw [Ordering.isLE_iff_eq_lt_or_eq_eq] at le le'
  rcases le with less | same
  · rw [less, Ordering.lt_then]
    rcases le' with less' | same'
    · exact TransCmp.lt_trans less less'
    · exact TransCmp.lt_of_lt_of_eq less same'
  · rw [same, Ordering.eq_then, TransCmp.congr_left same]

theorem «then» {first second both first' second' both' : Ordering}
    (transits : Transits first second both)
    (further : first = .eq → second = .eq → Transits first' second' both') :
    Transits (first.then first') (second.then second') (both.then both') := by
  intro le le'
  unfold Transits at transits further
  cases first <;> cases second <;> cases first' <;> cases second' <;> simp_all

end Transits

theorem transCmp_of_transits {α : Type} {order : α → α → Ordering}
    (swap : ∀ first second, order first second = (order second first).swap)
    (transits : ∀ first second third,
      Transits (order first second) (order second third) (order first third)) :
    TransCmp order where
  eq_swap {first second} := swap first second
  isLE_trans {first second third} le le' := by
    rw [transits first second third le le']
    rcases Ordering.isLE_iff_eq_lt_or_eq_eq.mp le with less | same
    · rw [less]
      rfl
    · rwa [same]

instance : TransOrd RationalNumber :=
  inferInstanceAs (TransCmp (compareLex (compareOn RationalNumber.num)
    (compareOn RationalNumber.den)))

instance : LawfulEqOrd RationalNumber where
  eq_of_compare {first second} same := by
    obtain ⟨num, den⟩ := Ordering.then_eq_eq.mp same
    cases first
    cases second
    simp_all
  compare_self {number} := by
    show (compare number.num number.num).then (compare number.den number.den) = .eq
    simp

namespace Value

mutual

theorem compareWith_eq_iff (first second : Value) :
    first.compareWith second = .eq ↔ first = second := by
  cases first with
  | array index default entries =>
      cases second with
      | array index' default' entries' =>
          have sameDefault := compareWith_eq_iff default default'
          have sameEntries := compareEntries_eq_iff entries entries'
          simp only [compareWith, Ordering.then_eq_eq, sameDefault, sameEntries,
            Std.compare_eq_iff_eq, array.injEq]
          constructor
          · rintro ⟨⟨rfl, -⟩, rfl, rfl⟩
            exact ⟨rfl, rfl, rfl⟩
          · rintro ⟨rfl, rfl, rfl⟩
            exact ⟨⟨rfl, rfl⟩, rfl, rfl⟩
      | _ => simp [compareWith, rank]
  | _ => cases second <;> simp [compareWith, rank, Ordering.then_eq_eq]

theorem compareEntries_eq_iff (first second : List (Value × Value)) :
    compareEntries first second = .eq ↔ first = second := by
  match first, second with
  | [], [] => simp [compareEntries]
  | [], _ :: _ => simp [compareEntries]
  | _ :: _, [] => simp [compareEntries]
  | (index, element) :: entries, (index', element') :: entries' =>
      have sameIndex := compareWith_eq_iff index index'
      have sameElement := compareWith_eq_iff element element'
      have sameEntries := compareEntries_eq_iff entries entries'
      simp [compareEntries, Ordering.then_eq_eq, sameIndex, sameElement, sameEntries]

end

instance : LawfulEqOrd Value where
  eq_of_compare := (compareWith_eq_iff _ _).mp
  compare_self := (compareWith_eq_iff _ _).mpr rfl

mutual

theorem compareWith_swap (first second : Value) :
    first.compareWith second = (second.compareWith first).swap := by
  cases first with
  | array index default entries =>
      cases second with
      | array index' default' entries' =>
          simp only [compareWith, Ordering.swap_then]
          rw [← compareWith_swap default default', ← compareEntries_swap entries entries',
            ← Std.OrientedOrd.eq_swap, ← Std.OrientedOrd.eq_swap]
      | _ => exact Std.OrientedOrd.eq_swap
  | bitVec bits width =>
      cases second with
      | bitVec bits' width' =>
          simp only [compareWith, Ordering.swap_then]
          rw [← Std.OrientedOrd.eq_swap, ← Std.OrientedOrd.eq_swap]
      | _ => exact Std.OrientedOrd.eq_swap
  | _ => cases second <;> exact Std.OrientedOrd.eq_swap

theorem compareEntries_swap (first second : List (Value × Value)) :
    compareEntries first second = (compareEntries second first).swap := by
  match first, second with
  | [], [] | [], _ :: _ | _ :: _, [] => rfl
  | (index, element) :: entries, (index', element') :: entries' =>
      simp only [compareEntries, Ordering.swap_then]
      rw [← compareWith_swap index index', ← compareWith_swap element element',
        ← compareEntries_swap entries entries']

end

def compareContent : Value → Value → Ordering
  | bool first, bool second => compare first second
  | int first, int second => compare first second
  | rat first, rat second => compare first second
  | bitVec bits width, bitVec bits' width' => (compare bits bits').then (compare width width')
  | array index default entries, array index' default' entries' =>
      ((compare index index').then (compare default.ty default'.ty)).then
        ((compareWith default default').then (compareEntries entries entries'))
  | _, _ => .eq

theorem compareWith_eq_then (first second : Value) : first.compareWith second =
    (compare first.rank second.rank).then (first.compareContent second) := by
  cases first <;> cases second <;> rfl

mutual

theorem transits_compareWith (first second third : Value) :
    Transits (first.compareWith second) (second.compareWith third)
      (first.compareWith third) := by
  rw [compareWith_eq_then, compareWith_eq_then, compareWith_eq_then]
  refine .then (.of_compare) fun same same' => ?_
  rw [Std.compare_eq_iff_eq] at same same'
  match first, second, third with
  | array index default entries, array index' default' entries',
      array index'' default'' entries'' =>
      exact .then (.then (.of_compare) fun _ _ => .of_compare) fun _ _ =>
        .then (transits_compareWith default default' default'') fun _ _ =>
          transits_compareEntries entries entries' entries''
  | bitVec .., bitVec .., bitVec .. => exact .then (.of_compare) fun _ _ => .of_compare
  | bool _, bool _, bool _ | int _, int _, int _ | rat _, rat _, rat _ => exact .of_compare

theorem transits_compareEntries (first second third : List (Value × Value)) :
    Transits (compareEntries first second) (compareEntries second third)
      (compareEntries first third) := by
  match first, second, third with
  | (index, element) :: entries, (index', element') :: entries',
      (index'', element'') :: entries'' =>
      exact .then (.then (transits_compareWith index index' index'') fun _ _ =>
        transits_compareWith element element' element'') fun _ _ =>
          transits_compareEntries entries entries' entries''
  | [], [], [] | [], [], _ :: _ | [], _ :: _, _ :: _ => exact fun _ _ => rfl
  | _, _ :: _, [] => rintro - ⟨⟩
  | _ :: _, [], _ => rintro ⟨⟩

end

instance : TransOrd Value :=
  transCmp_of_transits compareWith_swap transits_compareWith

end Value

theorem UnaryOperator.rank_injective {first second : UnaryOperator}
    (same : first.rank = second.rank) : first = second := by
  revert same
  cases first <;> cases second <;> decide

theorem BinaryOperator.rank_injective {first second : BinaryOperator}
    (same : first.rank = second.rank) : first = second := by
  revert same
  cases first <;> cases second <;> decide

theorem TernaryOperator.rank_injective {first second : TernaryOperator}
    (same : first.rank = second.rank) : first = second := by
  revert same
  cases first <;> cases second <;> decide

theorem NaryOperator.rank_injective {first second : NaryOperator}
    (same : first.rank = second.rank) : first = second := by
  revert same
  cases first <;> cases second <;> decide

namespace Expr

def shape : Expr → Nat
  | lit _ => 0
  | sym _ => 1
  | unary .. => 2
  | binary .. => 3
  | ternary .. => 4
  | nary .. => 5

def shapeOfRank (rank : Nat) : Nat :=
  if rank ≤ 1 then rank
  else if rank ∈ [2, 3, 19, 26] then 2
  else if rank ∈ [20, 22] then 4
  else if rank ∈ [4, 5, 14, 16] then 5
  else 3

theorem shapeOfRank_rank (formula : Expr) : shapeOfRank formula.rank = formula.shape := by
  cases formula with
  | unary operator _ _ => cases operator <;> rfl
  | binary operator _ _ _ => cases operator <;> rfl
  | ternary operator _ _ _ _ => cases operator <;> rfl
  | nary operator _ _ => cases operator <;> rfl
  | _ => rfl

theorem compare_rank_ne_eq {first second : Expr} (differ : first.shape ≠ second.shape) :
    compare first.rank second.rank ≠ .eq := by
  intro same
  rw [← shapeOfRank_rank, ← shapeOfRank_rank, Std.compare_eq_iff_eq.mp same] at differ
  exact differ rfl

mutual

theorem compareWith_eq_iff (first second : Expr) :
    first.compareWith second = .eq ↔ first = second := by
  match first, second with
  | lit value, lit value' => simp [compareWith]
  | sym symbol, sym symbol' => simp [compareWith]
  | unary operator operand ty, unary operator' operand' ty' =>
      have sameOperand := compareWith_eq_iff operand operand'
      simp only [compareWith, Ordering.then_eq_eq, sameOperand, Std.compare_eq_iff_eq,
        unary.injEq]
      exact and_congr_left' ⟨UnaryOperator.rank_injective, congrArg _⟩
  | binary operator left right ty, binary operator' left' right' ty' =>
      have sameLeft := compareWith_eq_iff left left'
      have sameRight := compareWith_eq_iff right right'
      simp only [compareWith, Ordering.then_eq_eq, sameLeft, sameRight, Std.compare_eq_iff_eq,
        binary.injEq, and_assoc]
      exact and_congr_left' ⟨BinaryOperator.rank_injective, congrArg _⟩
  | ternary operator one two three ty, ternary operator' one' two' three' ty' =>
      have sameOne := compareWith_eq_iff one one'
      have sameTwo := compareWith_eq_iff two two'
      have sameThree := compareWith_eq_iff three three'
      simp only [compareWith, Ordering.then_eq_eq, sameOne, sameTwo, sameThree,
        Std.compare_eq_iff_eq, ternary.injEq, and_assoc]
      exact and_congr_left' ⟨TernaryOperator.rank_injective, congrArg _⟩
  | nary operator operands ty, nary operator' operands' ty' =>
      have sameOperands := compareAll_eq_iff operands operands'
      simp only [compareWith, Ordering.then_eq_eq, sameOperands, Std.compare_eq_iff_eq,
        nary.injEq]
      exact and_congr_left' ⟨NaryOperator.rank_injective, congrArg _⟩
  | lit _, sym _ | lit _, unary .. | lit _, binary .. | lit _, ternary .. | lit _, nary ..
  | sym _, lit _ | sym _, unary .. | sym _, binary .. | sym _, ternary .. | sym _, nary ..
  | unary .., lit _ | unary .., sym _ | unary .., binary .. | unary .., ternary ..
  | unary .., nary ..
  | binary .., lit _ | binary .., sym _ | binary .., unary .. | binary .., ternary ..
  | binary .., nary ..
  | ternary .., lit _ | ternary .., sym _ | ternary .., unary .. | ternary .., binary ..
  | ternary .., nary ..
  | nary .., lit _ | nary .., sym _ | nary .., unary .. | nary .., binary ..
  | nary .., ternary .. =>
      exact iff_of_false (compare_rank_ne_eq (by simp [shape])) (by rintro ⟨⟩)

theorem compareAll_eq_iff (first second : List Expr) :
    compareAll first second = .eq ↔ first = second := by
  match first, second with
  | [], [] => simp [compareAll]
  | [], _ :: _ => simp [compareAll]
  | _ :: _, [] => simp [compareAll]
  | operand :: operands, operand' :: operands' =>
      have sameOperand := compareWith_eq_iff operand operand'
      have sameOperands := compareAll_eq_iff operands operands'
      simp [compareAll, Ordering.then_eq_eq, sameOperand, sameOperands]

end

instance : LawfulEqOrd Expr where
  eq_of_compare := (compareWith_eq_iff _ _).mp
  compare_self := (compareWith_eq_iff _ _).mpr rfl

def compareContent : Expr → Expr → Ordering
  | lit value, lit value' => compare value value'
  | sym symbol, sym symbol' => compare symbol symbol'
  | unary _ operand ty, unary _ operand' ty' =>
      (compareWith operand operand').then (compare ty ty')
  | binary _ left right ty, binary _ left' right' ty' =>
      ((compareWith left left').then (compareWith right right')).then (compare ty ty')
  | ternary _ first second third ty, ternary _ first' second' third' ty' =>
      ((compareWith first first').then
        ((compareWith second second').then (compareWith third third'))).then (compare ty ty')
  | nary _ operands ty, nary _ operands' ty' =>
      (compareAll operands operands').then (compare ty ty')
  | _, _ => .eq

theorem compareWith_eq_then (first second : Expr) : first.compareWith second =
    (compare first.rank second.rank).then (first.compareContent second) := by
  have alone (order : Ordering) : order = order.then .eq := by cases order <;> rfl
  cases first <;> cases second <;> first | rfl | exact alone _

mutual

theorem compareWith_swap (first second : Expr) :
    first.compareWith second = (second.compareWith first).swap := by
  rw [compareWith_eq_then, compareWith_eq_then, Ordering.swap_then, ← Std.OrientedOrd.eq_swap]
  congr 1
  match first, second with
  | lit _, lit _ | sym _, sym _ => exact Std.OrientedOrd.eq_swap
  | unary _ operand ty, unary _ operand' ty' =>
      simp only [compareContent, Ordering.swap_then]
      rw [← compareWith_swap operand operand', ← Std.OrientedOrd.eq_swap]
  | binary _ left right ty, binary _ left' right' ty' =>
      simp only [compareContent, Ordering.swap_then]
      rw [← compareWith_swap left left', ← compareWith_swap right right',
        ← Std.OrientedOrd.eq_swap]
  | ternary _ one two three ty, ternary _ one' two' three' ty' =>
      simp only [compareContent, Ordering.swap_then]
      rw [← compareWith_swap one one', ← compareWith_swap two two',
        ← compareWith_swap three three', ← Std.OrientedOrd.eq_swap]
  | nary _ operands ty, nary _ operands' ty' =>
      simp only [compareContent, Ordering.swap_then]
      rw [← compareAll_swap operands operands', ← Std.OrientedOrd.eq_swap]
  | lit _, sym _ | lit _, unary .. | lit _, binary .. | lit _, ternary .. | lit _, nary ..
  | sym _, lit _ | sym _, unary .. | sym _, binary .. | sym _, ternary .. | sym _, nary ..
  | unary .., lit _ | unary .., sym _ | unary .., binary .. | unary .., ternary ..
  | unary .., nary ..
  | binary .., lit _ | binary .., sym _ | binary .., unary .. | binary .., ternary ..
  | binary .., nary ..
  | ternary .., lit _ | ternary .., sym _ | ternary .., unary .. | ternary .., binary ..
  | ternary .., nary ..
  | nary .., lit _ | nary .., sym _ | nary .., unary .. | nary .., binary ..
  | nary .., ternary .. => rfl

theorem compareAll_swap (first second : List Expr) :
    compareAll first second = (compareAll second first).swap := by
  match first, second with
  | [], [] | [], _ :: _ | _ :: _, [] => rfl
  | operand :: operands, operand' :: operands' =>
      simp only [compareAll, Ordering.swap_then]
      rw [← compareWith_swap operand operand', ← compareAll_swap operands operands']

end

theorem shape_eq_of_rank_eq {first second : Expr} (same : first.rank = second.rank) :
    first.shape = second.shape := by
  rw [← shapeOfRank_rank, ← shapeOfRank_rank, same]

mutual

theorem transits_compareWith (first second third : Expr) :
    Transits (first.compareWith second) (second.compareWith third)
      (first.compareWith third) := by
  rw [compareWith_eq_then, compareWith_eq_then, compareWith_eq_then]
  refine .then .of_compare fun same same' => ?_
  rw [Std.compare_eq_iff_eq] at same same'
  replace same := shape_eq_of_rank_eq same
  replace same' := shape_eq_of_rank_eq same'
  match first, second, third with
  | lit _, lit _, lit _ | sym _, sym _, sym _ => exact .of_compare
  | unary _ operand _, unary _ operand' _, unary _ operand'' _ =>
      exact .then (transits_compareWith operand operand' operand'') fun _ _ => .of_compare
  | binary _ left right _, binary _ left' right' _, binary _ left'' right'' _ =>
      exact .then (.then (transits_compareWith left left' left'') fun _ _ =>
        transits_compareWith right right' right'') fun _ _ => .of_compare
  | ternary _ one two three _, ternary _ one' two' three' _, ternary _ one'' two'' three'' _ =>
      exact .then (.then (transits_compareWith one one' one'') fun _ _ =>
        .then (transits_compareWith two two' two'') fun _ _ =>
          transits_compareWith three three' three'') fun _ _ => .of_compare
  | nary _ operands _, nary _ operands' _, nary _ operands'' _ =>
      exact .then (transits_compareAll operands operands' operands'') fun _ _ => .of_compare

theorem transits_compareAll (first second third : List Expr) :
    Transits (compareAll first second) (compareAll second third) (compareAll first third) := by
  match first, second, third with
  | operand :: operands, operand' :: operands', operand'' :: operands'' =>
      exact .then (transits_compareWith operand operand' operand'') fun _ _ =>
        transits_compareAll operands operands' operands''
  | [], [], [] | [], [], _ :: _ | [], _ :: _, _ :: _ => exact fun _ _ => rfl
  | _, _ :: _, [] => rintro - ⟨⟩
  | _ :: _, [], _ => rintro ⟨⟩

end

instance : TransOrd Expr :=
  transCmp_of_transits compareWith_swap transits_compareWith

end Expr

end AbstractionRefinement
