import AndInverter.Cut.Family
import AndInverter.Error
import AndInverter.Graph.Basic

/-!
# Feasible cuts

The irredundant cuts of every node with at most `k` leaves. The cuts of a gate are the smallest
unions of one cut of each fanin, and the gate itself; the constant has the empty cut. Outputs have
no cuts.
-/

namespace AndInverter

structure FeasibleCuts where
  bound : Nat
  families : Array CutFamily
deriving DecidableEq, Repr

/-- The order in which the nodes are worked through. Either order gives the same table. -/
inductive Schedule where
  /-- One node after the other. -/
  | sequential
  /-- All nodes of a level at once, from the families of the lower levels. -/
  | byLevels
deriving DecidableEq, Repr

namespace FeasibleCuts

def numCuts (t : FeasibleCuts) : Nat := t.families.foldl (fun n f => n + f.size) 0

def cuts (t : FeasibleCuts) (node : Nat) : List Cut :=
  (t.families[node]?.map CutFamily.cuts).getD []

def faninFamily (earlier : Array CutFamily) (node fanin : Nat) : Except Fault CutFamily :=
  match earlier[fanin]? with
  | none => .error .outOfRange
  | some f => if f.isEmpty then .error (.missingCuts fanin node) else .ok f

def unions (k : Nat) (f h : CutFamily) : CutFamily :=
  f.cuts.foldl (fun acc a =>
    h.cuts.foldl (fun acc b => (a.merge? b k).elim acc acc.insert) acc) .empty

def nodeFamily (k : Nat) (earlier : Array CutFamily) (id : Nat) : Node → Except Fault CutFamily
  | .constant => .ok (CutFamily.empty.insert .empty)
  | .input _ => .ok (CutFamily.empty.insert (.trivial id))
  | .gate a b => do
    let f ← faninFamily earlier id a.node
    let h ← faninFamily earlier id b.node
    return ((unions k f h).insert (.trivial id)).sort
  | .output .. => .ok .empty

def sequential (g : Graph) (k : Nat) : Except Fault (Array CutFamily) :=
  g.scanM fun earlier n => nodeFamily k earlier earlier.size n

def ranks (g : Graph) : Array (List Nat) :=
  let levels := g.levels
  let depth := levels.foldl max 0
  (List.range g.size).foldr (fun id ranks =>
    if g.nodes[id]?.any Node.isOutput then ranks
    else ranks.modify (levels[id]?.getD 0) (id :: ·)) (.replicate (depth + 1) [])

/-- Works through one level: all its families are found before the first of them is entered. -/
def addRank (g : Graph) (k : Nat) (families : Array CutFamily) (rank : List Nat) :
    Except Fault (Array CutFamily) := do
  let found ← rank.mapM fun id => do return (id, ← nodeFamily k families id (← g.node id))
  return found.foldl (fun fs (id, f) => fs.setIfInBounds id f) families

def byLevels (g : Graph) (k : Nat) : Except Fault (Array CutFamily) :=
  (ranks g).foldlM (addRank g k) (.replicate g.size .empty)

def ofGraph (g : Graph) (k : Nat) (schedule : Schedule) : Except Failure FeasibleCuts :=
  if k = 0 then .error (.error (.cutBounds k 0 "k >= 1"))
  else
    let families :=
      match schedule with
      | .sequential => sequential g k
      | .byLevels => byLevels g k
    match families with
    | .ok families => .ok { bound := k, families }
    | .error f => .error (.fault f)

end FeasibleCuts

end AndInverter
