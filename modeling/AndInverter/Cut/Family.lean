import AndInverter.Cut.Basic

/-!
# Families of cuts

A family keeps the smallest of the cuts that it is offered: those of which no other is a subset.
-/

namespace AndInverter

structure CutFamily where
  cuts : List Cut := []
deriving DecidableEq, Repr, Inhabited

namespace CutFamily

def empty : CutFamily := {}

def size (f : CutFamily) : Nat := f.cuts.length

def isEmpty (f : CutFamily) : Bool := f.cuts.isEmpty

def contains (f : CutFamily) (c : Cut) : Bool := f.cuts.contains c

def accepts (f : CutFamily) (c : Cut) : Bool := !f.cuts.any (·.subset c)

/-- Offers a cut. If it is kept, the cuts of which it is a subset are dropped. -/
def insert (f : CutFamily) (c : Cut) : CutFamily :=
  if f.accepts c then ⟨(f.cuts.filter fun d => !c.subset d) ++ [c]⟩ else f

/-- The order of a finished family: smaller cuts first, cuts of one size by their leaves. -/
def before (a b : Cut) : Bool :=
  ((compare a.size b.size).then (compare a b)).isLE

def sort (f : CutFamily) : CutFamily := ⟨f.cuts.mergeSort before⟩

end CutFamily

end AndInverter
