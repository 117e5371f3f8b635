import AndInverter.Graph.Basic

/-!
# Simulation

The value of every node under an assignment of the primary inputs.
-/

namespace AndInverter.Graph

def edgeValue (values : Array Bool) (e : Edge) : Bool :=
  values[e.node]?.getD false ^^ e.complemented

def values (g : Graph) (x : Nat → Bool) : Array Bool :=
  g.scan fun earlier n =>
    match n with
    | .constant => false
    | .input i => x i
    | .gate a b => edgeValue earlier a && edgeValue earlier b
    | .output _ e => edgeValue earlier e

/-- The values of all nodes under an assignment that covers exactly the primary inputs. -/
def simulate (g : Graph) (assignment : Array Bool) : Except Fault (Array Bool) :=
  if assignment.size = g.numInputs then .ok (g.values fun i => assignment[i]?.getD false)
  else .error .partialAssignment

def eval (g : Graph) (assignment : Array Bool) : Except Fault (Array Bool) := do
  let values ← g.simulate assignment
  return g.outputs.map fun id => values[id]?.getD false

end AndInverter.Graph
