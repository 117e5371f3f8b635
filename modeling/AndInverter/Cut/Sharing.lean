import Std.Data.TreeMap
import AndInverter.Cut.Feasible

/-!
# Shared cuts

Sets of leaves that are a cut of several gates at once.
-/

namespace AndInverter

structure SharingBounds where
  maxLeaves : Nat
  minGates : Nat
  /-- Whether a gate counts for the cut that consists of the gate itself. -/
  countTrivial : Bool := false
deriving DecidableEq, Repr

namespace SharingBounds

def ofBounds (k l : Nat) : Except Error SharingBounds :=
  if k = 0 ∨ l = 0 then .error (.cutBounds k l "k >= 1 and l >= 1")
  else .ok { maxLeaves := k, minGates := l }

def customary (k l : Nat) : Except Error SharingBounds :=
  if 3 ≤ k ∧ k ≤ 6 ∧ 1 ≤ l ∧ l ≤ 4 then ofBounds k l
  else .error (.cutBounds k l "3 <= k <= 6 and 1 <= l <= 4")

end SharingBounds

/-- A set of leaves, and all gates of which it is a cut, in ascending order. -/
structure SharedCut where
  leaves : Cut
  gates : List Nat
deriving DecidableEq, Repr

/-- The leaves, a colon and the gates. -/
instance : ToString SharedCut where
  toString s := s!"{s.leaves} :" ++ String.join (s.gates.map fun n => s!" {n}")

namespace SharedCut

def counts (bounds : SharingBounds) (gate : Nat) (c : Cut) : Bool :=
  !c.isEmpty && (bounds.countTrivial || !c.isTrivial gate)

/-- The gates that each cut counts for, the latest first. -/
abbrev Index := Std.TreeMap Cut (List Nat)

def Index.add (index : Index) (gate : Nat) (c : Cut) : Index :=
  index.alter c fun gates => some (gate :: gates.getD [])

def ofTable (g : Graph) (t : FeasibleCuts) (bounds : SharingBounds) : List SharedCut :=
  let index : Index := g.gates.foldl (fun index gate =>
    ((t.cuts gate).filter (counts bounds gate)).foldl (fun index c => index.add gate c) index) ∅
  index.toList.filterMap fun (c, gates) =>
    if bounds.minGates ≤ gates.length then some ⟨c, gates.reverse⟩ else none

def ofGraph (g : Graph) (bounds : SharingBounds) (schedule : Schedule) :
    Except Failure (List SharedCut) := do
  return ofTable g (← FeasibleCuts.ofGraph g bounds.maxLeaves schedule) bounds

def render (shared : List SharedCut) : String :=
  String.join (shared.map fun s => s!"{s}\n")

end SharedCut

end AndInverter
