import AndInverter.Ascending
import AndInverter.Diagram.Store
import AndInverter.Reach

/-!
# The shape of diagrams

The nodes that a diagram consists of, and the variables it tests.
-/

namespace AndInverter.DiagramStore

def childNodes (s : DiagramStore) (i : Nat) : List Nat :=
  if i ≤ 1 then []
  else
    let n := s.nodes.get i
    [n.low.index, n.high.index]

/-- The nodes of the diagrams of some functions, the terminal always included. -/
def reachableNodes (s : DiagramStore) (fs : List Ref) : List Nat :=
  marked (reachable s.childNodes (s.size + 1) (1 :: fs.map Ref.index))

def diagramSize (s : DiagramStore) (f : Ref) : Nat := (s.reachableNodes [f]).length

def support (s : DiagramStore) (f : Ref) : List Nat :=
  Ascending.ofList <| ((s.reachableNodes [f]).map fun i => (s.nodes.get i).var).filter (· ≠ 0)

end AndInverter.DiagramStore
