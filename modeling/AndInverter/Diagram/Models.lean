import AndInverter.Diagram.Shape
import AndInverter.Diagram.SignedVariable

/-!
# Models of diagrams

A path to true that prefers low children, and the number of models.
-/

namespace AndInverter.DiagramStore

/-- The signed variables on the first path to true, low children before high ones. A path that ends
elsewhere finds no variable to go on with. -/
def pathToTrue (s : DiagramStore) (f : Ref) : Except Fault (List SignedVariable) := do
  if f = .one then return []
  s.nodes.check f.index
  if h : s.topVar f = 0 then throw .unnamedVariable
  else
    let x : Variable := ⟨s.topVar f, Nat.pos_of_ne_zero h⟩
    let low := s.child f false
    if low = .zero then return x.positive :: (← pathToTrue s (s.child f true))
    else return x.negative :: (← pathToTrue s low)
termination_by f.index
decreasing_by all_goals exact index_child_lt (one_lt_index h)

def findLowestPath (s : DiagramStore) (f : Ref) : Except Fault (Option (List SignedVariable)) :=
  if f = .zero then .ok none else (s.pathToTrue f).map some

def lowestPath (s : DiagramStore) (f : Ref) : Option (List SignedVariable) :=
  (s.findLowestPath f).toOption.join

def signedCount (total : Nat) (counts : Array Nat) (r : Ref) : Nat :=
  let n := counts[r.index]?.getD 0
  if r.IsNegated then total - n else n

/-- The numbers of models of the nodes of a diagram, children first. Half of the models of a child
go with either value of the variable of its parent. -/
def nodeCounts (s : DiagramStore) (total : Nat) (f : Ref) : Array Nat :=
  (s.reachableNodes [f]).foldl (fun counts i =>
    counts.setIfInBounds i <|
      if i ≤ 1 then total
      else
        let n := s.nodes.get i
        (signedCount total counts n.low + signedCount total counts n.high) / 2)
    (.replicate (f.index + 1) 0)

def modelCount (s : DiagramStore) (f : Ref) (numVars : Nat) : Nat :=
  signedCount (1 <<< numVars) (s.nodeCounts (1 <<< numVars) f) f

end AndInverter.DiagramStore
