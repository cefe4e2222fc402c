import AbstractionRefinement.Proofs.StateFormulas

/-!
# Stores of explicit states

An explicit state stands for the stores in which the known variables have their values.
The order of explicit states agrees with inclusion, and a join stands for no other stores
than its parts do: when the parts differ in one truth value only, both truth values are
accounted for.
-/

namespace AbstractionRefinement

/-- The store has the values that the state knows. -/
def ExplicitState.Represents : ExplicitState → Store → Prop
  | bottom, _ => False
  | values valuation, store => ∀ entry ∈ valuation.entries, store entry.1.decl = entry.2

/-- Every known variable is listed and has one value of its type. -/
def ExplicitState.WellFormed (vocabulary : List VarDecl) : ExplicitState → Prop
  | bottom => True
  | values valuation => valuation.Typed ∧ OrderedMap.Sorted valuation.entries ∧
      ∀ entry ∈ valuation.entries, entry.1.decl ∈ vocabulary

namespace ExplicitState

variable {vocabulary : List VarDecl} {first second union : ExplicitState} {store : Store}

theorem represents_values {valuation : Valuation} :
    (values valuation).Represents store ↔ valuation.Matches fun symbol => store symbol.decl :=
  Iff.rfl

theorem Represents.of_leq (below : first.leq second = true) (represents : first.Represents store) :
    second.Represents store := by
  cases first with
  | bottom => exact represents.elim
  | values left =>
      cases second with
      | bottom => cases below
      | values right =>
          intro entry member
          have known := List.all_eq_true.mp below entry member
          rw [decide_eq_true_iff] at known
          exact represents _ (OrderedMap.mem_of_find? known)

/-- All entries but one are shared, and that one has a truth value that differs. -/
theorem booleanDifference_eq_some {right : Valuation} {entries : List (Symbol × Value)}
    {difference : Option Symbol} {symbol : Symbol}
    (differs : booleanDifference right entries difference = some symbol) :
    (∀ entry ∈ entries, ∃ other, right.get? entry.1 = some other ∧
        (entry.1 = symbol ∨ entry.2 = other)) ∧
      match difference with
      | some previous => previous = symbol
      | none => ∃ truth other, (symbol, .bool truth) ∈ entries ∧
          right.get? symbol = some other ∧ other ≠ .bool truth := by
  induction entries generalizing difference with
  | nil =>
      rw [booleanDifference] at differs
      subst differs
      exact ⟨by simp, rfl⟩
  | cons entry entries ih =>
      obtain ⟨key, value⟩ := entry
      unfold booleanDifference at differs
      split at differs
      case h_1 => cases differs
      case h_2 other found =>
        split at differs
        case isTrue same =>
          obtain ⟨shared, kept⟩ := ih differs
          refine ⟨List.forall_mem_cons.mpr ⟨⟨other, found, .inr same.symm⟩, shared⟩, ?_⟩
          cases difference with
          | some previous => exact kept
          | none =>
              obtain ⟨truth, other, member, rest⟩ := kept
              exact ⟨truth, other, List.mem_cons_of_mem _ member, rest⟩
        case isFalse differ =>
          split at differs
          case h_1 =>
            -- The first difference is the one that is found.
            obtain ⟨shared, isFirst⟩ := ih differs
            obtain rfl : key = symbol := isFirst
            exact ⟨List.forall_mem_cons.mpr ⟨⟨other, found, .inl rfl⟩, shared⟩,
              _, other, List.mem_cons_self, found, differ⟩
          case h_2 => cases differs

theorem symbols_subset_of_size_eq {left right : Valuation}
    (sorted : OrderedMap.Sorted left.entries) (sameSize : left.size = right.size)
    (subset : ∀ symbol ∈ left.symbols, symbol ∈ right.symbols) :
    ∀ symbol ∈ right.symbols, symbol ∈ left.symbols := by
  have included := List.subperm_of_subset sorted.nodup subset
  have sameLength : right.symbols.length ≤ left.symbols.length := by
    rw [Valuation.symbols, Valuation.symbols, List.length_map, List.length_map]
    exact Nat.le_of_eq sameSize.symm
  exact fun symbol => (included.perm_of_length_le sameLength).mem_iff.mpr

/-- A join is the part that subsumes the other one, or forgets the one truth value in which
the parts differ. -/
theorem join_cases (joined : first.join second = some union) :
    second.leq first = true ∧ union = first ∨ first.leq second = true ∧ union = second ∨
      ∃ left right symbol, first = values left ∧ second = values right ∧
        left.size = right.size ∧ booleanDifference right left.entries none = some symbol ∧
        union = values (left.erase symbol) := by
  unfold join at joined
  split at joined
  case isTrue below =>
    cases joined
    exact .inr (.inl ⟨below, rfl⟩)
  case isFalse =>
    split at joined
    case isTrue above =>
      cases joined
      exact .inl ⟨above, rfl⟩
    case isFalse =>
      split at joined
      case h_2 => cases joined
      case h_1 left right _ _ =>
        split at joined
        case isFalse => cases joined
        case isTrue sameSize =>
          obtain ⟨symbol, differs, rfl⟩ := Option.map_eq_some_iff.mp joined
          exact .inr (.inr ⟨left, right, symbol, rfl, rfl, sameSize, differs, rfl⟩)

/-- Values in which the differing truth value is left open match one of the two. -/
theorem matches_of_erase {left right : Valuation} {symbol : Symbol}
    {assignment : Symbol → Value} (typedLeft : left.WellTyped)
    (sorted : OrderedMap.Sorted left.entries) (typedRight : right.WellTyped)
    (sorted' : OrderedMap.Sorted right.entries) (sameSize : left.size = right.size)
    (differs : booleanDifference right left.entries none = some symbol)
    (typed : (assignment symbol).HasType symbol.ty)
    (isMatch : (left.erase symbol).Matches assignment) :
    left.Matches assignment ∨ right.Matches assignment := by
  obtain ⟨shared, truth, other, member, found, differ⟩ := booleanDifference_eq_some differs
  have stored := OrderedMap.mem_of_find? found
  have boolean : symbol.ty = .bool := (typedLeft _ member).ty_eq.symm
  have kept : ∀ entry ∈ left.entries, entry.1 ≠ symbol → assignment entry.1 = entry.2 :=
    fun entry isEntry isOther => isMatch entry (OrderedMap.mem_erase_of_ne isEntry isOther)
  have typedOther : other.HasType symbol.ty := typedRight _ stored
  rw [boolean] at typed typedOther
  obtain ⟨value, isValue⟩ := typed.exists_bool
  obtain ⟨truth', rfl⟩ := typedOther.exists_bool
  by_cases same : value = truth
  case pos =>
    refine .inl fun entry isEntry => ?_
    obtain ⟨key, known⟩ := entry
    by_cases atSymbol : key = symbol
    · subst atSymbol
      rw [isValue, same]
      exact sorted.value_unique member isEntry
    · exact kept _ isEntry atSymbol
  case neg =>
    have opposite : value = truth' := by
      cases value <;> cases truth <;> cases truth' <;> simp_all
    refine .inr fun entry isEntry => ?_
    obtain ⟨key, known⟩ := entry
    by_cases atSymbol : key = symbol
    · subst atSymbol
      rw [isValue, opposite]
      exact sorted'.value_unique stored isEntry
    · have subset : ∀ other ∈ left.symbols, other ∈ right.symbols := by
        rw [Valuation.symbols, List.forall_mem_map]
        intro entry member
        obtain ⟨value, found, -⟩ := shared entry member
        exact List.mem_map.mpr ⟨(entry.1, value), OrderedMap.mem_of_find? found, rfl⟩
      have inLeft := symbols_subset_of_size_eq sorted sameSize subset key
        (List.mem_map_of_mem isEntry)
      obtain ⟨⟨_, known'⟩, isEntry', rfl⟩ := List.mem_map.mp inLeft
      obtain ⟨other, found', sameValue⟩ := shared _ isEntry'
      have isKnown := sorted'.value_unique (OrderedMap.mem_of_find? found') isEntry
      rw [← isKnown, ← sameValue.resolve_left atSymbol]
      exact kept _ isEntry' atSymbol

/-- Values match what is left of a valuation if they match either side of the difference. -/
theorem matches_erase {left right : Valuation} {symbol : Symbol}
    {assignment : Symbol → Value} (sorted : OrderedMap.Sorted left.entries)
    (differs : booleanDifference right left.entries none = some symbol)
    (isMatch : left.Matches assignment ∨ right.Matches assignment) :
    (left.erase symbol).Matches assignment := by
  intro entry member
  have isEntry := (OrderedMap.sublist_erase symbol left.entries).subset member
  rcases isMatch with isMatch | isMatch
  · exact isMatch entry isEntry
  · obtain ⟨other, found, same⟩ := (booleanDifference_eq_some differs).1 entry isEntry
    rw [same.resolve_left (sorted.ne_of_mem_erase member)]
    exact isMatch _ (OrderedMap.mem_of_find? found)

theorem Represents.of_join (wellFormed : first.WellFormed vocabulary)
    (wellFormed' : second.WellFormed vocabulary) (joined : first.join second = some union)
    (typed : ∀ decl, (store decl).HasType decl.ty) (represents : union.Represents store) :
    first.Represents store ∨ second.Represents store := by
  rcases join_cases joined with
    ⟨-, rfl⟩ | ⟨-, rfl⟩ | ⟨left, right, symbol, rfl, rfl, sameSize, differs, rfl⟩
  · exact .inl represents
  · exact .inr represents
  · rw [represents_values] at represents
    rw [represents_values, represents_values]
    exact matches_of_erase wellFormed.1.wellTyped wellFormed.2.1 wellFormed'.1.wellTyped
      wellFormed'.2.1 sameSize differs (typed symbol.decl) represents

theorem WellFormed.of_join (wellFormed : first.WellFormed vocabulary)
    (wellFormed' : second.WellFormed vocabulary) (joined : first.join second = some union) :
    union.WellFormed vocabulary := by
  rcases join_cases joined with
    ⟨-, rfl⟩ | ⟨-, rfl⟩ | ⟨left, right, symbol, rfl, rfl, sameSize, differs, rfl⟩
  · exact wellFormed
  · exact wellFormed'
  · obtain ⟨typed, sorted, listed⟩ := wellFormed
    have sublist := OrderedMap.sublist_erase symbol left.entries
    exact ⟨fun entry member => typed entry (sublist.subset member), sorted.sublist sublist,
      fun entry member => listed entry (sublist.subset member)⟩

theorem WellFormed.regularCondition_toExpr {state : ExplicitState}
    (wellFormed : state.WellFormed vocabulary) (config : SolverConfig) :
    (ExprState.toExpr state).RegularCondition config := by
  cases state with
  | bottom => exact Expr.regularCondition_ofBool false config
  | values valuation => exact wellFormed.1.regularCondition config

end ExplicitState

end AbstractionRefinement
