/-!
# Clausal formulas

Formulas in conjunctive normal form over variables numbered from zero.
-/

namespace AndInverter.Clausal

structure Literal where
  var : Nat
  positive : Bool
deriving DecidableEq, Repr

namespace Literal

def complement (l : Literal) : Literal := ⟨l.var, !l.positive⟩

/-- The literal as a signed number: variables count from one, and a negative one is negated. -/
def toInt (l : Literal) : Int := if l.positive then l.var + 1 else -(l.var + 1)

def eval (m : Nat → Bool) (l : Literal) : Bool := m l.var == l.positive

end Literal

abbrev Clause := List Literal

def Clause.eval (m : Nat → Bool) (c : Clause) : Bool := c.any (Literal.eval m)

structure Formula where
  numVars : Nat := 0
  clauses : Array Clause := #[]
deriving Repr, Inhabited

namespace Formula

def empty : Formula := {}

def addClause (f : Formula) (c : Clause) : Formula where
  numVars := c.foldl (fun n l => max n (l.var + 1)) f.numVars
  clauses := f.clauses.push c

def freshVar (f : Formula) : Nat × Formula := (f.numVars, { f with numVars := f.numVars + 1 })

def eval (m : Nat → Bool) (f : Formula) : Bool := f.clauses.all (Clause.eval m)

end Formula

end AndInverter.Clausal
