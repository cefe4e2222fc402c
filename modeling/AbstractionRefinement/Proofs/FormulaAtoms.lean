import AbstractionRefinement.Proofs.FormulaOrder

/-!
# Atoms of formulas

The atoms of a formula built with a connective are those of its operands, and every other
formula that is no constant is its own atom.
-/

namespace AbstractionRefinement

namespace Expr

variable {atom : Expr}

/-- An atom collected from several formulas was there before or comes from one of them, if
this is so for each of them. -/
theorem mem_collectAtomsAll_of {operands : List Expr} (each : ∀ operand ∈ operands,
      ∀ found, atom ∈ collectAtoms operand found ↔ atom ∈ found ∨ atom ∈ operand.atoms)
    (found : List Expr) : atom ∈ collectAtomsAll operands found ↔
      atom ∈ found ∨ ∃ operand ∈ operands, atom ∈ operand.atoms := by
  induction operands generalizing found with
  | nil => simp [collectAtomsAll]
  | cons operand operands ih =>
      simp only [List.mem_cons, forall_eq_or_imp] at each
      rw [collectAtomsAll, ih each.2, each.1]
      simp only [List.mem_cons, exists_eq_or_imp]
      tauto

theorem mem_collectAtoms_of_insert {formula added : Expr}
    (adds : ∀ found, formula.collectAtoms found = OrderedSet.insert added found)
    (found : List Expr) :
    atom ∈ formula.collectAtoms found ↔ atom ∈ found ∨ atom ∈ formula.atoms := by
  rw [atoms, adds, adds, OrderedSet.mem_insert, OrderedSet.mem_insert]
  simp [or_comm]

theorem mem_collectAtoms_of_pair {formula left right : Expr}
    (adds : ∀ found, formula.collectAtoms found = right.collectAtoms (left.collectAtoms found))
    (eachLeft : ∀ found, atom ∈ left.collectAtoms found ↔ atom ∈ found ∨ atom ∈ left.atoms)
    (eachRight : ∀ found, atom ∈ right.collectAtoms found ↔ atom ∈ found ∨ atom ∈ right.atoms)
    (found : List Expr) :
    atom ∈ formula.collectAtoms found ↔ atom ∈ found ∨ atom ∈ formula.atoms := by
  rw [atoms, adds, adds, eachRight, eachLeft, eachRight, eachLeft]
  simp [or_assoc]

theorem mem_collectAtoms (formula : Expr) (found : List Expr) :
    atom ∈ formula.collectAtoms found ↔ atom ∈ found ∨ atom ∈ formula.atoms := by
  induction formula generalizing found with
  | lit value => simp [atoms, collectAtoms]
  | sym symbol => exact mem_collectAtoms_of_insert (fun _ => by rw [collectAtoms]) found
  | unary operator operand ty ih =>
      cases operator with
      | not => simpa only [atoms, collectAtoms] using ih found
      | _ => exact mem_collectAtoms_of_insert (fun _ => by simp only [collectAtoms]; rfl) found
  | binary operator left right ty ihLeft ihRight =>
      cases operator with
      | imply => exact mem_collectAtoms_of_pair (fun _ => by rw [collectAtoms]) ihLeft ihRight found
      | iff => exact mem_collectAtoms_of_pair (fun _ => by rw [collectAtoms]) ihLeft ihRight found
      | eq =>
          by_cases boolean : left.ty.isBool
          · exact mem_collectAtoms_of_pair (fun _ => by simp [collectAtoms, boolean]) ihLeft ihRight
              found
          · exact mem_collectAtoms_of_insert (fun _ => by simp [collectAtoms, boolean]; rfl) found
      | neq =>
          by_cases boolean : left.ty.isBool
          · exact mem_collectAtoms_of_pair (fun _ => by simp [collectAtoms, boolean]) ihLeft ihRight
              found
          · exact mem_collectAtoms_of_insert (fun _ => by simp [collectAtoms, boolean]; rfl) found
      | _ => exact mem_collectAtoms_of_insert (fun _ => by simp only [collectAtoms]; rfl) found
  | ternary operator first second third ty ihFirst ihSecond ihThird =>
      cases operator with
      | ite =>
          by_cases boolean : second.ty.isBool
          · have adds (found : List Expr) : (ternary .ite first second third ty).collectAtoms found =
                third.collectAtoms (second.collectAtoms (first.collectAtoms found)) := by
              simp [collectAtoms, boolean]
            rw [atoms, adds, adds, ihThird, ihSecond, ihFirst, ihThird, ihSecond, ihFirst]
            simp [or_assoc]
          · exact mem_collectAtoms_of_insert (fun _ => by simp [collectAtoms, boolean]; rfl) found
      | write => exact mem_collectAtoms_of_insert (fun _ => by rw [collectAtoms]) found
  | nary operator operands ty ih =>
      cases operator with
      | and => simp [atoms, collectAtoms, mem_collectAtomsAll_of ih]
      | or => simp [atoms, collectAtoms, mem_collectAtomsAll_of ih]
      | _ => exact mem_collectAtoms_of_insert (fun _ => by simp only [collectAtoms]; rfl) found

theorem mem_collectAtomsAll (operands : List Expr) (found : List Expr) :
    atom ∈ collectAtomsAll operands found ↔
      atom ∈ found ∨ ∃ operand ∈ operands, atom ∈ operand.atoms :=
  mem_collectAtomsAll_of (fun operand _ => mem_collectAtoms operand) found

@[simp]
theorem mem_atoms_not {operand : Expr} {ty : Ty} :
    atom ∈ (unary .not operand ty).atoms ↔ atom ∈ operand.atoms := by
  rw [atoms, collectAtoms, atoms]

@[simp]
theorem mem_atoms_and {operands : List Expr} {ty : Ty} :
    atom ∈ (nary .and operands ty).atoms ↔ ∃ operand ∈ operands, atom ∈ operand.atoms := by
  rw [atoms, collectAtoms, mem_collectAtomsAll]
  simp

@[simp]
theorem mem_atoms_or {operands : List Expr} {ty : Ty} :
    atom ∈ (nary .or operands ty).atoms ↔ ∃ operand ∈ operands, atom ∈ operand.atoms := by
  rw [atoms, collectAtoms, mem_collectAtomsAll]
  simp

end Expr

end AbstractionRefinement
