import AndInverter.Clausal.Formula
import AndInverter.Fault

/-!
# Blocks of variables

A block is a contiguous range of variables of a formula. It holds one copy of an encoding whose
own variables are numbered from zero.
-/

namespace AndInverter.Clausal

structure Block where
  base : Nat
  count : Nat
deriving DecidableEq, Repr

namespace Block

/-- A block of fresh variables at the end of a formula. A block without variables lies at zero. -/
def fresh (f : Formula) (count : Nat) : Block × Formula :=
  (⟨if count = 0 then 0 else f.numVars, count⟩, { f with numVars := f.numVars + count })

def adjacent (b : Block) : Block := ⟨b.base + b.count, b.count⟩

def place (b : Block) (v : Nat) : Except Fault Nat :=
  if v < b.count then .ok (b.base + v) else .error (.foreignVariable v b.count)

def placeLiteral (b : Block) (l : Literal) : Except Fault Literal :=
  return ⟨← b.place l.var, l.positive⟩

end Block

end AndInverter.Clausal
