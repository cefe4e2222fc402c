import AbstractionRefinement.Waitlists
import Mathlib

/-!
# The nodes inside a waitlist

The three containers of a waitlist are seen through one view, the list of the
nodes inside.  Adding a node adds it to the view, and removing a node takes one
occurrence out of it, whatever the search strategy and the random choices are.
So no node is lost and none is handed out twice.
-/

namespace AbstractionRefinement

namespace RankedNode

theorem le_refl (node : RankedNode) : node.le node := by
  simp [le]

theorem le_total (first second : RankedNode) : first.le second ∨ second.le first := by
  simp only [le, Bool.or_eq_true, Bool.and_eq_true, decide_eq_true_eq]
  omega

theorem le_trans {first second third : RankedNode} (le : first.le second)
    (le' : second.le third) : first.le third := by
  simp only [RankedNode.le, Bool.or_eq_true, Bool.and_eq_true, decide_eq_true_eq] at *
  omega

theorem greatest_mem (first : RankedNode) (others : List RankedNode) :
    greatest first others ∈ first :: others := by
  induction others generalizing first with
  | nil => exact List.mem_cons_self
  | cons other others ih =>
      rw [greatest, List.foldl_cons]
      split
      · exact List.mem_cons_of_mem _ (ih other)
      · rcases List.mem_cons.mp (ih first) with is | member
        · exact List.mem_cons.mpr (.inl is)
        · exact List.mem_cons_of_mem _ (List.mem_cons_of_mem _ member)

theorem le_greatest {first node : RankedNode} {others : List RankedNode}
    (member : node ∈ first :: others) : node.le (greatest first others) := by
  induction others generalizing first node with
  | nil =>
      rw [List.mem_singleton.mp member]
      exact le_refl first
  | cons other others ih =>
      rw [greatest, List.foldl_cons]
      -- The better one of the first two nodes bounds both of them.
      split
      case isTrue better =>
        rcases List.mem_cons.mp member with rfl | later
        · exact le_trans better (ih List.mem_cons_self)
        · exact ih later
      case isFalse worse =>
        rcases List.mem_cons.mp member with rfl | later
        · exact ih List.mem_cons_self
        · rcases List.mem_cons.mp later with rfl | last
          · exact le_trans ((le_total ..).resolve_left worse) (ih List.mem_cons_self)
          · exact ih (List.mem_cons_of_mem _ last)

end RankedNode

namespace WaitingNodes

variable {γ : Type}

/-- The nodes inside. -/
def contents : WaitingNodes γ → List Nat
  | queue front back => front ++ back.reverse
  | stack nodes => nodes
  | bag nodes _ => nodes.toList
  | ranked nodes _ _ => nodes.map RankedNode.node

@[simp]
theorem contents_start [IndexSource γ] (strategy : SearchStrategy) :
    (start strategy : WaitingNodes γ).contents = [] := by
  cases strategy <;> rfl

theorem contents_add (node depth : Nat) (waiting : WaitingNodes γ) :
    (waiting.add node depth).contents.Perm (node :: waiting.contents) := by
  cases waiting with
  | queue front back =>
      simp only [add, contents, List.reverse_cons, ← List.append_assoc]
      exact List.perm_append_singleton _ _
  | stack nodes => rfl
  | bag nodes source =>
      simp only [add, contents, Array.toList_push]
      exact List.perm_append_singleton _ _
  | ranked nodes next rank =>
      simp only [add, contents, List.map_append, List.map_singleton]
      exact List.perm_append_singleton _ _

open List in
/-- A list from which one entry is taken out and replaced by the last one, which
then leaves its place, has lost that entry only. -/
theorem perm_replaceByLast (nodes : List Nat) (last index : Nat) :
    (nodes ++ [last]).Perm
      ((nodes ++ [last]).getD index last ::
        ((nodes ++ [last]).set index last).dropLast) := by
  by_cases inside : index < nodes.length
  · have taken : nodes = nodes.take index ++ nodes[index] :: nodes.drop (index + 1) := by
      simp
    have replaced : nodes.set index last =
        nodes.take index ++ last :: nodes.drop (index + 1) :=
      List.set_eq_take_append_cons_drop .. |>.trans (by simp [inside])
    have first : (nodes ++ [last]).getD index last = nodes[index] := by
      simp [List.getD, List.getElem?_append_left inside, inside]
    rw [first, List.set_append_left _ _ inside, List.dropLast_concat, replaced]
    calc nodes ++ [last]
        = (nodes.take index ++ nodes[index] :: nodes.drop (index + 1)) ++ [last] := by
          rw [← taken]
      _ ~ (last :: (nodes.take index ++ nodes[index] :: nodes.drop (index + 1))) :=
          List.perm_append_singleton _ _
      _ ~ (last :: nodes[index] :: (nodes.take index ++ nodes.drop (index + 1))) :=
          List.perm_middle.cons _
      _ ~ (nodes[index] :: last :: (nodes.take index ++ nodes.drop (index + 1))) :=
          List.Perm.swap _ _ _
      _ ~ (nodes[index] :: (nodes.take index ++ last :: nodes.drop (index + 1))) :=
          List.perm_middle.symm.cons _
  · have first : (nodes ++ [last]).getD index last = last := by
      rcases Nat.eq_or_lt_of_not_lt inside with equal | beyond
      · simp [List.getD, equal]
      · have outside : (nodes ++ [last])[index]? = none :=
          List.getElem?_eq_none (by simp; omega)
        simp [List.getD, outside]
    have unchanged : (nodes ++ [last]).set index last = nodes ++ [last] := by
      rcases Nat.eq_or_lt_of_not_lt inside with equal | beyond
      · simp [equal]
      · exact List.set_eq_of_length_le (by simp; omega)
    rw [first, unchanged, List.dropLast_concat]
    exact List.perm_append_singleton _ _

variable [IndexSource γ]

theorem contents_eq_nil_of_remove {waiting : WaitingNodes γ}
    (empty : waiting.remove = none) : waiting.contents = [] := by
  cases waiting with
  | queue front back =>
      cases front with
      | nil =>
          cases reversed : back.reverse with
          | nil => simp [contents, reversed]
          | cons node front => simp [remove, reversed] at empty
      | cons node front => simp [remove] at empty
  | stack nodes => cases nodes <;> simp_all [remove, contents]
  | bag nodes source =>
      cases back : nodes.back? with
      | none => simpa [contents, Array.back?_eq_none_iff] using back
      | some last => simp [remove, back] at empty
  | ranked nodes next rank => cases nodes <;> simp_all [remove, contents]

theorem contents_remove {waiting rest : WaitingNodes γ} {node : Nat}
    (removed : waiting.remove = some (node, rest)) :
    waiting.contents.Perm (node :: rest.contents) := by
  cases waiting with
  | queue front back =>
      cases front with
      | nil =>
          cases reversed : back.reverse with
          | nil => simp [remove, reversed] at removed
          | cons first others =>
              simp only [remove, reversed, Option.some.injEq, Prod.mk.injEq] at removed
              obtain ⟨rfl, rfl⟩ := removed
              simp [contents, reversed]
      | cons first others =>
          simp only [remove, Option.some.injEq, Prod.mk.injEq] at removed
          obtain ⟨rfl, rfl⟩ := removed
          simp [contents]
  | stack nodes =>
      cases nodes with
      | nil => simp [remove] at removed
      | cons first others =>
          simp only [remove, Option.some.injEq, Prod.mk.injEq] at removed
          obtain ⟨rfl, rfl⟩ := removed
          rfl
  | bag nodes source =>
      cases back : nodes.back? with
      | none => simp [remove, back] at removed
      | some last =>
          simp only [remove, back, Option.some.injEq, Prod.mk.injEq] at removed
          obtain ⟨rfl, rfl⟩ := removed
          obtain ⟨others, listed⟩ : ∃ others, nodes.toList = others ++ [last] := by
            rw [← Array.getLast?_toList] at back
            exact List.getLast?_eq_some_iff.mp back
          simp only [contents, Array.toList_pop, Array.toList_setIfInBounds, listed]
          have taken : nodes.getD (IndexSource.drawBelow source nodes.size).1 last =
              (others ++ [last]).getD (IndexSource.drawBelow source nodes.size).1 last := by
            rw [← listed]
            simp [Array.getD_eq_getD_getElem?, List.getD]
          rw [taken]
          exact perm_replaceByLast others last _
  | ranked nodes next rank =>
      cases nodes with
      | nil => simp [remove] at removed
      | cons first others =>
          simp only [remove, Option.some.injEq, Prod.mk.injEq] at removed
          obtain ⟨rfl, rfl⟩ := removed
          exact (List.perm_cons_erase (RankedNode.greatest_mem first others)).map RankedNode.node

end WaitingNodes

namespace Waitlist

variable {γ : Type}

/-- The nodes inside. -/
def contents (list : Waitlist γ) : List Nat :=
  list.waiting.contents

@[simp]
theorem contents_new [IndexSource γ] (strategy : SearchStrategy) :
    (new strategy : Waitlist γ).contents = [] :=
  WaitingNodes.contents_start strategy

theorem contents_add (list : Waitlist γ) (node depth : Nat) :
    (list.add node depth).contents.Perm (node :: list.contents) :=
  WaitingNodes.contents_add node depth list.waiting

@[simp]
theorem mem_contents_add (list : Waitlist γ) (node depth other : Nat) :
    other ∈ (list.add node depth).contents ↔ other = node ∨ other ∈ list.contents := by
  rw [(list.contents_add node depth).mem_iff, List.mem_cons]

theorem contents_addAll (list : Waitlist γ) (nodes : List (Nat × Nat)) :
    (list.addAll nodes).contents.Perm (nodes.map Prod.fst ++ list.contents) := by
  induction nodes generalizing list with
  | nil => rfl
  | cons head tail ih =>
      obtain ⟨node, depth⟩ := head
      exact (ih (list.add node depth)).trans
        (((list.contents_add node depth).append_left _).trans List.perm_middle)

@[simp]
theorem mem_contents_addAll (list : Waitlist γ) (nodes : List (Nat × Nat)) (other : Nat) :
    other ∈ (list.addAll nodes).contents ↔
      other ∈ nodes.map Prod.fst ∨ other ∈ list.contents := by
  rw [(list.contents_addAll nodes).mem_iff, List.mem_append]

variable [IndexSource γ]

theorem contents_eq_nil {list : Waitlist γ} (empty : list.remove = none) :
    list.contents = [] :=
  WaitingNodes.contents_eq_nil_of_remove (by simpa [remove] using empty)

theorem contents_remove {list rest : Waitlist γ} {node : Nat}
    (removed : list.remove = some (node, rest)) :
    list.contents.Perm (node :: rest.contents) := by
  simp only [remove, Option.map_eq_some_iff, Prod.mk.injEq, Prod.exists] at removed
  obtain ⟨node, waiting, taken, rfl, rfl⟩ := removed
  exact WaitingNodes.contents_remove taken

end Waitlist

end AbstractionRefinement
