import AbstractionRefinement.Proofs.WaitlistContents

/-!
# Policies of waitlists

The remaining nodes of a waitlist are listed with their depths in the order in which they
were added.  The policy of a search strategy says which places of this list may be served
next, and every container serves such a place, for every interleaving of additions and
removals: the queue the first one, the stack the last one, the ranked nodes the first one
of the highest rank, and the bag a place that depends on the seed and on the order of the
calls only.

So removed nodes and nodes inside make up the added nodes, and a removal is refused only
when nothing is left.
-/

namespace AbstractionRefinement

/-- A call of a waitlist. -/
inductive WaitlistCall where
  | add (node depth : Nat)
  | remove

namespace WaitlistCall

/-- The nodes that are added, in the order of the calls. -/
def addedNodes : List WaitlistCall → List Nat :=
  List.filterMap fun
    | add node _ => some node
    | remove => none

/-- The same call for another node at another depth. -/
def relabel (label : Nat → Nat) (depthOf : Nat → Nat → Nat) : WaitlistCall → WaitlistCall
  | add node depth => add (label node) (depthOf node depth)
  | remove => remove

end WaitlistCall

/-- Make the calls one after the other.  Every removal contributes its answer. -/
def Waitlist.run {γ : Type} [IndexSource γ] :
    List WaitlistCall → Waitlist γ → List (Option Nat) × Waitlist γ
  | [], list => ([], list)
  | .add node depth :: calls, list => run calls (list.add node depth)
  | .remove :: calls, list =>
      match list.remove with
      | none => ((none :: (run calls list).1), (run calls list).2)
      | some (node, rest) => ((some node :: (run calls rest).1), (run calls rest).2)

namespace SearchStrategy

/-- The strategy may serve the place next.  Of the highest ranked entries the first one is
served. -/
def MayServe (remaining : List (Nat × Nat)) (place : Nat) : SearchStrategy → Prop
  | breadthFirst => place = 0
  | depthFirst => place + 1 = remaining.length
  | random _ => place < remaining.length
  | priority rank => ∀ chosen ∈ remaining[place]?, ∀ other, ∀ entry ∈ remaining[other]?,
      rank entry.1 entry.2 ≤ rank chosen.1 chosen.2 ∧
        (other < place → rank entry.1 entry.2 < rank chosen.1 chosen.2)

/-- The answers to the removals follow the policy of the strategy, from the entries that
remain before the calls to those that remain after them. -/
inductive Serves (strategy : SearchStrategy) :
    List (Nat × Nat) → List WaitlistCall → List (Option Nat) → List (Nat × Nat) → Prop
  | done {remaining} : Serves strategy remaining [] [] remaining
  | added {node depth remaining calls answers after} :
      Serves strategy (remaining ++ [(node, depth)]) calls answers after →
      Serves strategy remaining (.add node depth :: calls) answers after
  | removed {node depth place remaining calls answers after} :
      remaining[place]? = some (node, depth) → strategy.MayServe remaining place →
      Serves strategy (remaining.eraseIdx place) calls answers after →
      Serves strategy remaining (.remove :: calls) (some node :: answers) after
  | refused {calls answers after} :
      Serves strategy [] calls answers after →
      Serves strategy [] (.remove :: calls) (none :: answers) after

open WaitlistCall

/-- A policy neither loses nor duplicates a node. -/
theorem Serves.perm {strategy : SearchStrategy} {remaining after : List (Nat × Nat)}
    {calls : List WaitlistCall} {answers : List (Option Nat)}
    (serves : strategy.Serves remaining calls answers after) :
    (answers.reduceOption ++ after.map Prod.fst).Perm
      (remaining.map Prod.fst ++ addedNodes calls) := by
  induction serves with
  | done => simp [addedNodes]
  | added _ ih => simpa [addedNodes] using ih
  | @removed node depth place remaining calls answers after found _ _ ih =>
      obtain ⟨inside, taken⟩ := List.getElem?_eq_some_iff.mp found
      have split : remaining.Perm ((node, depth) :: remaining.eraseIdx place) := by
        rw [← taken]
        exact (List.getElem_cons_eraseIdx_perm inside).symm
      rw [List.reduceOption_cons_of_some]
      exact (ih.cons node).trans ((split.map Prod.fst).symm.append_right _)
  | refused _ ih =>
      rw [List.reduceOption_cons_of_none]
      exact ih

/-- First in, first out. -/
theorem Serves.removed_append {remaining after : List (Nat × Nat)}
    {calls : List WaitlistCall} {answers : List (Option Nat)}
    (serves : breadthFirst.Serves remaining calls answers after) :
    answers.reduceOption ++ after.map Prod.fst = remaining.map Prod.fst ++ addedNodes calls := by
  induction serves with
  | done => simp [addedNodes]
  | added _ ih => simpa [addedNodes] using ih
  | @removed node depth place remaining calls answers after found oldest _ ih =>
      obtain rfl : place = 0 := oldest
      cases remaining with
      | nil => cases found
      | cons entry remaining =>
          cases found
          rw [List.reduceOption_cons_of_some, List.cons_append, ih]
          rfl
  | refused _ ih =>
      rw [List.reduceOption_cons_of_none]
      exact ih

end SearchStrategy

namespace WaitingNodes

variable {γ : Type}

/-- A queue hands out the first of its nodes and stays a queue of the others. -/
theorem exists_of_remove_queue [IndexSource γ] {front back : List Nat} {node : Nat}
    {rest : WaitingNodes γ}
    (removed : (queue front back).remove = some (node, rest)) :
    ∃ others, front ++ back.reverse = node :: others ∧
      ∃ front' back', rest = .queue front' back' ∧ front' ++ back'.reverse = others := by
  cases front with
  | nil =>
      cases reversed : back.reverse with
      | nil => simp [remove, reversed] at removed
      | cons first others =>
          simp only [remove, reversed, Option.some.injEq, Prod.mk.injEq] at removed
          obtain ⟨rfl, rfl⟩ := removed
          exact ⟨others, rfl, others, [], rfl, by simp⟩
  | cons first others =>
      simp only [remove, Option.some.injEq, Prod.mk.injEq] at removed
      obtain ⟨rfl, rfl⟩ := removed
      exact ⟨_, rfl, others, back, rfl, rfl⟩

/-- A bag hands out the node at the drawn index. -/
theorem remove_bag [IndexSource γ] {nodes : Array Nat} (source : γ) {last : Nat}
    (back : nodes.back? = some last) :
    ∃ inside : (IndexSource.drawBelow source nodes.size).1 < nodes.size,
      (bag nodes source).remove =
        some (nodes[(IndexSource.drawBelow source nodes.size).1],
          bag (nodes.set (IndexSource.drawBelow source nodes.size).1 last).pop
            (IndexSource.drawBelow source nodes.size).2) := by
  have positive : 0 < nodes.size := by
    rw [Array.size_pos_iff]
    rintro rfl
    cases back
  have inside := IndexSource.drawBelow_lt source positive
  exact ⟨inside, by simp [remove, back, inside, Array.setIfInBounds]⟩

theorem exists_bag_of_remove [IndexSource γ] {nodes : Array Nat} {source : γ} {node : Nat}
    {rest : WaitingNodes γ} (removed : (bag nodes source).remove = some (node, rest)) :
    ∃ nodes' source', rest = .bag nodes' source' := by
  cases back : nodes.back? with
  | none => simp [remove, back] at removed
  | some last =>
      obtain ⟨inside, drawn⟩ := remove_bag source back
      rw [drawn] at removed
      cases removed
      exact ⟨_, _, rfl⟩

/-- The nodes themselves have no influence on the choices of a bag. -/
theorem remove_bag_map [IndexSource γ] (label : Nat → Nat) (nodes : Array Nat) (source : γ) :
    ((bag nodes source).remove = none ∧ (bag (nodes.map label) source).remove = none) ∨
      ∃ node others source', (bag nodes source).remove = some (node, bag others source') ∧
        (bag (nodes.map label) source).remove =
          some (label node, bag (others.map label) source') := by
  cases back : nodes.back? with
  | none => exact .inl (by simp_all [remove])
  | some last =>
      have backMap : (nodes.map label).back? = some (label last) := by simp [back]
      obtain ⟨inside, removed⟩ := remove_bag source back
      obtain ⟨insideMap, removedMap⟩ := remove_bag source backMap
      refine .inr ⟨_, _, _, removed, ?_⟩
      simpa using removedMap

/-- The ranked nodes are the remaining entries in the order of their additions, with
their ranks and with running numbers that increase up to the next one. -/
structure Ranks (rank : Nat → Nat → Int) (nodes : List RankedNode) (next : Nat)
    (remaining : List (Nat × Nat)) : Prop where
  entries_eq : nodes.map (fun ranked => (ranked.node, ranked.priority)) =
    remaining.map fun entry => (entry.1, rank entry.1 entry.2)
  increases : nodes.Pairwise fun first second => first.number < second.number
  number_lt {ranked : RankedNode} : ranked ∈ nodes → ranked.number < next

namespace Ranks

variable {rank : Nat → Nat → Int} {nodes : List RankedNode} {next : Nat}
  {remaining : List (Nat × Nat)}

theorem add (ranks : Ranks rank nodes next remaining) (node depth : Nat) :
    Ranks rank (nodes ++ [⟨rank node depth, next, node⟩]) (next + 1)
      (remaining ++ [(node, depth)]) where
  entries_eq := by simp [ranks.entries_eq]
  increases := by
    refine List.pairwise_append.mpr ⟨ranks.increases, List.pairwise_singleton _ _, ?_⟩
    intro older member newest isNewest
    rw [List.mem_singleton.mp isNewest]
    exact ranks.number_lt member
  number_lt member := by
    rcases List.mem_append.mp member with older | newest
    · exact Nat.lt_succ_of_lt (ranks.number_lt older)
    · rw [List.mem_singleton.mp newest]
      exact Nat.lt_succ_self next

theorem eraseIdx (ranks : Ranks rank nodes next remaining) (place : Nat) :
    Ranks rank (nodes.eraseIdx place) next (remaining.eraseIdx place) where
  entries_eq := by
    rw [← List.eraseIdx_map, ← List.eraseIdx_map, ranks.entries_eq]
  increases := ranks.increases.sublist (List.eraseIdx_sublist ..)
  number_lt member := ranks.number_lt (List.mem_of_mem_eraseIdx member)

theorem exists_ranked (ranks : Ranks rank nodes next remaining) {place : Nat}
    {entry : Nat × Nat} (found : remaining[place]? = some entry) :
    ∃ ranked, nodes[place]? = some ranked ∧ ranked.node = entry.1 ∧
      ranked.priority = rank entry.1 entry.2 := by
  have same := congrArg (·[place]?) ranks.entries_eq
  simpa [found, Prod.ext_iff] using same

theorem exists_entry (ranks : Ranks rank nodes next remaining) {place : Nat}
    {ranked : RankedNode} (found : nodes[place]? = some ranked) :
    ∃ depth, remaining[place]? = some (ranked.node, depth) := by
  have inside : place < remaining.length := by
    rw [← List.length_map, ← ranks.entries_eq, List.length_map]
    exact (List.getElem?_eq_some_iff.mp found).1
  obtain ⟨ranked', found', same, -⟩ := ranks.exists_ranked (List.getElem?_eq_getElem inside)
  obtain rfl : ranked = ranked' := Option.some.inj (found.symm.trans found')
  exact ⟨remaining[place].2, by rw [List.getElem?_eq_getElem inside, same]⟩

/-- The greatest ranked node is at the first place of the highest rank: among nodes of one
priority the order prefers the smaller running number, which is that of the earlier one. -/
theorem mayServe_greatest (ranks : Ranks rank nodes next remaining) {place : Nat}
    {best : RankedNode} (found : nodes[place]? = some best)
    (greatest : ∀ ranked ∈ nodes, ranked.le best) :
    (SearchStrategy.priority rank).MayServe remaining place := by
  intro chosen isChosen other entry isEntry
  obtain ⟨best', found', -, isRank⟩ := ranks.exists_ranked isChosen
  obtain rfl : best = best' := Option.some.inj (found.symm.trans found')
  obtain ⟨ranked, foundOther, -, isRankOther⟩ := ranks.exists_ranked isEntry
  have below := greatest ranked (List.mem_of_getElem? foundOther)
  simp only [RankedNode.le, Bool.or_eq_true, Bool.and_eq_true, decide_eq_true_eq] at below
  rw [← isRank, ← isRankOther]
  refine ⟨by omega, fun earlier => ?_⟩
  obtain ⟨insideOther, atOther⟩ := List.getElem?_eq_some_iff.mp foundOther
  obtain ⟨inside, atPlace⟩ := List.getElem?_eq_some_iff.mp found
  have smaller := List.pairwise_iff_getElem.mp ranks.increases other place insideOther inside
    earlier
  rw [atOther, atPlace] at smaller
  omega

end Ranks

/-- The container of a strategy holds the entries, which are given in the order in which
they were added. -/
inductive Holds : SearchStrategy → WaitingNodes γ → List (Nat × Nat) → Prop
  | queue {front back remaining} : front ++ back.reverse = remaining.map Prod.fst →
      Holds .breadthFirst (.queue front back) remaining
  | stack {nodes remaining} : nodes.reverse = remaining.map Prod.fst →
      Holds .depthFirst (.stack nodes) remaining
  | bag {seed nodes source remaining} : nodes.toList.Perm (remaining.map Prod.fst) →
      Holds (.random seed) (.bag nodes source) remaining
  | ranked {rank nodes next remaining} : Ranks rank nodes next remaining →
      Holds (.priority rank) (.ranked nodes next rank) remaining

variable {strategy : SearchStrategy} {waiting : WaitingNodes γ} {remaining : List (Nat × Nat)}

theorem holds_start [IndexSource γ] (strategy : SearchStrategy) :
    Holds strategy (start strategy : WaitingNodes γ) [] := by
  cases strategy with
  | breadthFirst => exact .queue rfl
  | depthFirst => exact .stack rfl
  | random seed => exact .bag (.refl _)
  | priority rank => exact .ranked ⟨rfl, List.Pairwise.nil, by rintro _ ⟨⟩⟩

namespace Holds

theorem add (holds : Holds strategy waiting remaining) (node depth : Nat) :
    Holds strategy (waiting.add node depth) (remaining ++ [(node, depth)]) := by
  cases holds with
  | queue listed => exact .queue (by simp [← listed])
  | stack listed => exact .stack (by simp [← listed])
  | bag listed => exact .bag (by simpa using listed.append_right [node])
  | ranked ranks => exact .ranked (ranks.add node depth)

theorem contents_perm (holds : Holds strategy waiting remaining) :
    waiting.contents.Perm (remaining.map Prod.fst) := by
  cases holds with
  | queue listed => exact .of_eq listed
  | @stack nodes _ listed => exact nodes.reverse_perm.symm.trans (.of_eq listed)
  | bag listed => exact listed
  | ranked ranks =>
      refine .of_eq ?_
      simpa [contents, Function.comp_def] using congrArg (List.map Prod.fst) ranks.entries_eq

/-- A removal takes the node at a place out that the strategy may serve. -/
theorem remove [IndexSource γ] (holds : Holds strategy waiting remaining) {node : Nat}
    {rest : WaitingNodes γ}
    (removed : waiting.remove = some (node, rest)) :
    ∃ place depth, remaining[place]? = some (node, depth) ∧
      strategy.MayServe remaining place ∧ Holds strategy rest (remaining.eraseIdx place) := by
  cases holds with
  | @queue front back _ listed =>
      obtain ⟨others, queued, front', back', rfl, rfl⟩ := exists_of_remove_queue removed
      cases remaining with
      | nil => simp [queued] at listed
      | cons entry remaining =>
          rw [queued, List.map_cons, List.cons.injEq] at listed
          exact ⟨0, entry.2, by simp [listed.1], rfl, .queue listed.2⟩
  | @stack nodes _ listed =>
      cases nodes with
      | nil => cases removed
      | cons newest others =>
          cases removed
          rcases List.eq_nil_or_concat' remaining with rfl | ⟨older, entry, rfl⟩
          · simp at listed
          · rw [List.reverse_cons, List.map_append, List.map_singleton,
              List.append_singleton_inj] at listed
            refine ⟨older.length, entry.2, by simp [listed.2], by simp [SearchStrategy.MayServe],
              .stack ?_⟩
            rw [List.eraseIdx_append_of_length_le le_rfl]
            simpa using listed.1
  | @bag seed nodes source _ listed =>
      obtain ⟨nodes', source', rfl⟩ := exists_bag_of_remove removed
      have taken : nodes.toList.Perm (node :: nodes'.toList) := contents_remove removed
      have member : node ∈ remaining.map Prod.fst :=
        listed.mem_iff.mp (taken.mem_iff.mpr List.mem_cons_self)
      obtain ⟨entry, isEntry, rfl⟩ := List.mem_map.mp member
      obtain ⟨place, inside, found⟩ := List.getElem_of_mem isEntry
      refine ⟨place, entry.2, by simp [List.getElem?_eq_getElem inside, found], inside, .bag ?_⟩
      have split : remaining.Perm (entry :: remaining.eraseIdx place) := by
        rw [← found]
        exact (List.getElem_cons_eraseIdx_perm inside).symm
      exact (taken.symm.trans (listed.trans (split.map Prod.fst))).cons_inv
  | @ranked rank nodes next _ ranks =>
      cases nodes with
      | nil => cases removed
      | cons first others =>
          cases removed
          have member := RankedNode.greatest_mem first others
          have found := List.getElem?_idxOf member
          obtain ⟨depth, isEntry⟩ := ranks.exists_entry found
          refine ⟨_, depth, isEntry, ranks.mayServe_greatest found fun ranked =>
            RankedNode.le_greatest, .ranked ?_⟩
          rw [List.erase_eq_eraseIdx_of_idxOf rfl]
          exact ranks.eraseIdx _

theorem eq_nil [IndexSource γ] (holds : Holds strategy waiting remaining)
    (refused : waiting.remove = none) :
    remaining = [] := by
  have empty := holds.contents_perm
  rw [contents_eq_nil_of_remove refused] at empty
  simpa using empty.symm.eq_nil

end Holds

end WaitingNodes

namespace Waitlist

open WaitlistCall

variable {γ : Type}

theorem length_contents (list : Waitlist γ) : list.contents.length = list.size := by
  obtain ⟨strategy, waiting⟩ := list
  cases waiting <;> simp [contents, size, WaitingNodes.contents, WaitingNodes.size]

variable [IndexSource γ]

theorem remove_eq_none_iff {list : Waitlist γ} : list.remove = none ↔ list.contents = [] := by
  refine ⟨contents_eq_nil, fun empty => ?_⟩
  cases removed : list.remove with
  | none => rfl
  | some taken => simpa [empty] using (contents_remove removed).length_eq

/-- Whatever calls are made, the removals follow the policy of the strategy. -/
theorem serves_run (list : Waitlist γ) {strategy : SearchStrategy} {remaining : List (Nat × Nat)}
    (holds : WaitingNodes.Holds strategy list.waiting remaining) (calls : List WaitlistCall) :
    ∃ after, strategy.Serves remaining calls (list.run calls).1 after ∧
      WaitingNodes.Holds strategy (list.run calls).2.waiting after := by
  induction calls generalizing list remaining with
  | nil => exact ⟨remaining, .done, holds⟩
  | cons call calls ih =>
      cases call with
      | add node depth =>
          obtain ⟨after, serves, held⟩ := ih (list.add node depth) (holds.add node depth)
          exact ⟨after, .added serves, held⟩
      | remove =>
          simp only [run]
          cases removed : list.remove with
          | none =>
              obtain rfl := holds.eq_nil (by simpa [remove] using removed)
              obtain ⟨after, serves, held⟩ := ih list holds
              exact ⟨after, .refused serves, held⟩
          | some taken =>
              obtain ⟨node, rest⟩ := taken
              simp only [remove, Option.map_eq_some_iff, Prod.mk.injEq, Prod.exists] at removed
              obtain ⟨node, waiting, removed, rfl, rfl⟩ := removed
              obtain ⟨place, depth, found, mayServe, kept⟩ := holds.remove removed
              obtain ⟨after, serves, held⟩ := ih { list with waiting } kept
              exact ⟨after, .removed found mayServe serves, held⟩

/-- A bag answers the same calls for other nodes with the other nodes. -/
theorem run_relabel_bag (strategy : SearchStrategy) (label : Nat → Nat)
    (depthOf : Nat → Nat → Nat) (calls : List WaitlistCall) (nodes : Array Nat) (source : γ) :
    (run (calls.map (relabel label depthOf)) ⟨strategy, .bag (nodes.map label) source⟩).1 =
      (run calls ⟨strategy, .bag nodes source⟩).1.map (Option.map label) := by
  induction calls generalizing nodes source with
  | nil => rfl
  | cons call calls ih =>
      cases call with
      | add node depth =>
          simp only [List.map_cons, relabel, run, add, WaitingNodes.add, ← Array.map_push]
          exact ih _ _
      | remove =>
          simp only [List.map_cons, relabel, run, remove]
          rcases WaitingNodes.remove_bag_map label nodes source with
            ⟨refused, refusedMap⟩ | ⟨node, others, source', removed, removedMap⟩
          · simp only [refused, refusedMap, Option.map_none, List.map_cons, ih]
          · simp only [removed, removedMap, Option.map_some, List.map_cons, ih]

/-- Make the calls from the waitlist without nodes. -/
def runNew (γ : Type) [IndexSource γ] (strategy : SearchStrategy) (calls : List WaitlistCall) :
    List (Option Nat) × Waitlist γ :=
  (new strategy).run calls

/-- A waitlist neither loses nor duplicates a node, and its removals follow the policy of
its strategy, whatever calls are made and whatever source of random indices is used.  In a
random order the place of a removed node is determined by the seed and by the order of the
calls. -/
theorem run_honours_policy (γ : Type) [IndexSource γ] (strategy : SearchStrategy)
    (calls : List WaitlistCall) :
    (∃ remaining, strategy.Serves [] calls (runNew γ strategy calls).1 remaining ∧
      (runNew γ strategy calls).2.contents.Perm (remaining.map Prod.fst)) ∧
    ((runNew γ strategy calls).1.reduceOption ++ (runNew γ strategy calls).2.contents).Perm
      (addedNodes calls) ∧
    ((runNew γ strategy calls).2.remove = none ↔ (runNew γ strategy calls).2.size = 0) ∧
    (strategy = .breadthFirst →
      (runNew γ strategy calls).1.reduceOption ++ (runNew γ strategy calls).2.contents =
        addedNodes calls) ∧
    (∀ seed, strategy = .random seed → ∀ label depthOf,
      (runNew γ strategy (calls.map (relabel label depthOf))).1 =
        (runNew γ strategy calls).1.map (Option.map label)) := by
  obtain ⟨remaining, serves, holds⟩ :=
    serves_run (new strategy : Waitlist γ) (WaitingNodes.holds_start strategy) calls
  have inside : (runNew γ strategy calls).2.contents.Perm (remaining.map Prod.fst) :=
    holds.contents_perm
  refine ⟨⟨remaining, serves, inside⟩, (inside.append_left _).trans serves.perm, ?_, ?_, ?_⟩
  · rw [remove_eq_none_iff, ← length_contents, List.length_eq_zero_iff]
  · rintro rfl
    have listed : (runNew γ .breadthFirst calls).2.contents = remaining.map Prod.fst := by
      unfold runNew
      generalize (new .breadthFirst : Waitlist γ).run calls = ended at holds
      obtain ⟨answers, strategy, waiting⟩ := ended
      cases holds with
      | queue listed => exact listed
    rw [listed]
    exact serves.removed_append
  · rintro seed rfl label depthOf
    have relabelled := run_relabel_bag (.random seed) label depthOf calls #[]
      (IndexSource.ofSeed seed : γ)
    rwa [Array.map_empty] at relabelled

def tenNodesCalls : List WaitlistCall :=
  (List.range 10).map (.add · 0) ++ [.remove, .remove]

/-- With the seed seven, the stream of the runs twice serves the place one, which the last
node takes in between. -/
theorem tenNodesCalls_served :
    (runNew RandomStream (.random 7) tenNodesCalls).1 = [some 1, some 9] ∧
      ((runNew RandomStream (.random 7) tenNodesCalls).1.reduceOption ++
        (runNew RandomStream (.random 7) tenNodesCalls).2.contents).Perm (List.range 10) :=
  have policy := run_honours_policy RandomStream (.random 7) tenNodesCalls
  ⟨by decide +kernel, policy.2.1⟩

/-- Among equal ranks the node that was added first is served first. -/
example : (runNew RandomStream (.priority fun _ _ => 0)
    [.add 5 0, .add 3 0, .remove, .remove, .remove]).1 = [some 5, some 3, none] := by
  decide +kernel

end Waitlist

end AbstractionRefinement
