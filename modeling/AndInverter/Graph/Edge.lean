/-!
# Edges

An edge refers to a node of a graph, possibly complemented. Node zero is the constant false, so
the two edges on it are the two constants.
-/

namespace AndInverter

/-- A reference to a node, possibly complemented. -/
structure Edge where
  node : Nat
  complemented : Bool
deriving DecidableEq, Hashable, Repr, Inhabited

namespace Edge

def constant (value : Bool) : Edge := ⟨0, value⟩

def plain (node : Nat) : Edge := ⟨node, false⟩

def isConstant (e : Edge) : Bool := e.node == 0

def regular (e : Edge) : Edge := ⟨e.node, false⟩

def complement (e : Edge) : Edge := ⟨e.node, !e.complemented⟩

def complementIf (e : Edge) (c : Bool) : Edge := ⟨e.node, e.complemented ^^ c⟩

/-- The literal of an edge: twice its node, plus one if it is complemented. -/
def literal (e : Edge) : Nat := 2 * e.node + e.complemented.toNat

/-- Edges are ordered by node, a plain edge before its complement. -/
instance : LE Edge := ⟨fun a b => a.literal ≤ b.literal⟩

instance (a b : Edge) : Decidable (a ≤ b) := inferInstanceAs (Decidable (a.literal ≤ b.literal))

instance : Ord Edge := ⟨fun a b => compare a.literal b.literal⟩

def sorted (a b : Edge) : Edge × Edge := if a ≤ b then (a, b) else (b, a)

/-- A complemented edge is marked by an exclamation mark. -/
instance : ToString Edge := ⟨fun e => if e.complemented then s!"!{e.node}" else s!"{e.node}"⟩

end Edge

end AndInverter
