/-!
# Reachability in a store

Graphs and diagrams keep their nodes in a store where a node refers only to earlier ones. One pass
from the last node down therefore marks everything that a set of roots can reach.
-/

namespace AndInverter

def markAll (marks : Array Bool) (indices : List Nat) : Array Bool :=
  indices.foldl (fun ms i => ms.setIfInBounds i true) marks

/-- Passes the marks of the nodes below `n` on to their children, the highest node first. -/
def sweep (children : Nat → List Nat) : Nat → Array Bool → Array Bool
  | 0, marks => marks
  | i + 1, marks =>
    sweep children i (if marks.getD i false then markAll marks (children i) else marks)

def reachable (children : Nat → List Nat) (n : Nat) (roots : List Nat) : Array Bool :=
  sweep children n (markAll (.replicate n false) roots)

def collect (marks : Array Bool) : Nat → List Nat → List Nat
  | 0, is => is
  | n + 1, is => collect marks n (if marks.getD n false then n :: is else is)

def marked (marks : Array Bool) : List Nat := collect marks marks.size []

/-- A new mark leaves fewer indices without one. -/
theorem countP_not_setIfInBounds_lt {marks : Array Bool} {i : Nat} (h : marks[i]? = some false) :
    (marks.setIfInBounds i true).countP (!·) < marks.countP (!·) := by
  obtain ⟨hi, he⟩ := Array.getElem?_eq_some_iff.mp h
  have hpos : 0 < marks.countP (!·) :=
    Array.countP_pos_iff.mpr ⟨_, Array.getElem_mem hi, by rw [he]; rfl⟩
  simp only [Array.setIfInBounds, hi, dite_true, Array.countP_set, he]
  simp only [Bool.not_false, Bool.not_true, if_true, Bool.false_eq_true, if_false]
  omega

end AndInverter
