import AndInverter.Graph.Basic
import AndInverter.Reach

/-!
# Cones

The transitive fanin of a node, and the inputs it can depend on.
-/

namespace AndInverter

structure Cone where
  root : Nat
  /-- All nodes of the cone, the root included, in ascending order. -/
  nodes : List Nat
  /-- The nodes of the primary inputs of the cone, by input index. -/
  inputs : List Nat
deriving DecidableEq, Repr

namespace Graph

def cone (g : Graph) (root : Nat) : Except Fault Cone :=
  if root < g.size then
    let marks := reachable g.faninNodes g.size [root]
    .ok {
      root
      nodes := marked marks
      inputs := g.inputs.toList.filter fun id => marks[id]? = some true }
  else .error .outOfRange

def coneInputs (g : Graph) (c : Cone) : List Nat :=
  c.inputs.filterMap fun id => g.nodes[id]?.bind Node.inputIndex?

/-- The indices of the primary inputs in the cone of an output, in ascending order. -/
def support (g : Graph) (output : Nat) : Except Fault (List Nat) := do
  return g.coneInputs (← g.cone (← g.driver output).node)

end Graph

end AndInverter
