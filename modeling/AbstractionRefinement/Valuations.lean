import AbstractionRefinement.FormulaEvaluation

/-!
# Valuations

A valuation assigns values to finitely many symbols.  Explicit states assign
unindexed symbols, and models of a solver assign indexed ones.
-/

namespace AbstractionRefinement

/-- Assigned symbols with their values, in the order of the symbols. -/
structure Valuation where
  entries : List (Symbol × Value) := []
deriving DecidableEq, Inhabited

/-- The formula stating that a symbol has a value. -/
def Symbol.hasValue (symbol : Symbol) (value : Value) : Expr :=
  match value with
  | .bool true => symbol.toExpr
  | .bool false => (Expr.mkNot symbol.toExpr).toOption.getD .bottom
  | _ => (Expr.mkEq symbol.toExpr (.lit value)).toOption.getD .bottom

namespace Valuation

/-- The valuation that assigns nothing. -/
def empty : Valuation := ⟨[]⟩

def get? (valuation : Valuation) (symbol : Symbol) : Option Value :=
  OrderedMap.find? symbol valuation.entries

/-- The value of an unindexed variable. -/
def getVar? (valuation : Valuation) (decl : VarDecl) : Option Value :=
  valuation.get? ⟨decl, none⟩

def insert (valuation : Valuation) (symbol : Symbol) (value : Value) : Valuation :=
  ⟨OrderedMap.insert symbol value valuation.entries⟩

/-- Assign an unindexed variable. -/
def insertVar (valuation : Valuation) (decl : VarDecl) (value : Value) : Valuation :=
  valuation.insert ⟨decl, none⟩ value

def erase (valuation : Valuation) (symbol : Symbol) : Valuation :=
  ⟨OrderedMap.erase symbol valuation.entries⟩

/-- The valuation of the listed pairs; the last pair of a symbol wins. -/
def ofList (pairs : List (Symbol × Value)) : Valuation :=
  ⟨OrderedMap.ofList pairs⟩

def size (valuation : Valuation) : Nat :=
  valuation.entries.length

def isEmpty (valuation : Valuation) : Bool :=
  valuation.entries.isEmpty

def symbols (valuation : Valuation) : List Symbol :=
  valuation.entries.map Prod.fst

/-- The part of the valuation on the given variables, time steps excluded. -/
def project (valuation : Valuation) (decls : List VarDecl) : Valuation :=
  ⟨valuation.entries.filter fun entry =>
    entry.1.index.isNone && OrderedSet.contains entry.1.decl decls⟩

/-- The conjunction of the equations of the valuation. -/
def toExpr (valuation : Valuation) : Expr :=
  (Expr.mkAnd (valuation.entries.map fun entry => entry.1.hasValue entry.2)).toOption.getD
    .top

/-- Valuations are ordered lexicographically by their entries. -/
instance : Ord Valuation :=
  ⟨fun first second =>
    compareLists
      (fun entry entry' =>
        (compare entry.1 entry'.1).then (compare entry.2 entry'.2))
      first.entries second.entries⟩

/-- The written form of a valuation. -/
def display (valuation : Valuation) : String :=
  "\x7b" ++
    ", ".intercalate
      (valuation.entries.map fun entry => entry.1.display ++ " = " ++ entry.2.display) ++
    "\x7d"

instance : ToString Valuation := ⟨display⟩

end Valuation

end AbstractionRefinement
