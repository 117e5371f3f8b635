import Std.Data.HashSet
import AndInverter.Graph.Build
import AndInverter.Reach

/-!
# Structural hashing

A graph is structurally hashed if no gate is trivial and no two gates share their fanins. Hashing
rebuilds a graph gate by gate, without the gates that no output needs.
-/

namespace AndInverter.Graph

def faninPairs (g : Graph) : List (Edge × Edge) :=
  g.nodes.toList.filterMap fun
    | .gate a b => some (Edge.sorted a b)
    | _ => none

def properPair (p : Edge × Edge) : Bool :=
  !p.1.isConstant && !p.2.isConstant && p.1.node != p.2.node

def distinctPairs (seen : Std.HashSet (Edge × Edge)) : List (Edge × Edge) → Bool
  | [] => true
  | p :: ps => !seen.contains p && distinctPairs (seen.insert p) ps

/-- Whether no gate has a constant fanin or two fanins on one node, and no two gates have the same
pair of fanins. -/
def isHashed (g : Graph) : Bool :=
  g.faninPairs.all properPair && distinctPairs ∅ g.faninPairs

/-- The nodes in the transitive fanin of some primary output. -/
def live (g : Graph) : Array Bool :=
  reachable g.faninNodes g.size g.outputs.toList

def image (images : Array (Option Edge)) (e : Edge) : Build Edge :=
  match images[e.node]?.join with
  | some d => return d.complementIf e.complemented
  | none => throw (.unmappedFanin e)

def rehashInto (g : Graph) : Build Unit := do
  let inputs ← g.inputNames.mapM fun name => Build.input (some name)
  let live := g.live
  let images ← g.scanM fun earlier n =>
    match n with
    | .constant => return some (.constant false)
    | .input i => return inputs[i]?
    | .gate a b =>
      if live[earlier.size]? = some true then
        return some (← Build.and (← image earlier a) (← image earlier b))
      else return none
    | .output .. => return none
  for (id, name) in g.outputs.zip g.outputNames do
    if let some (.output _ e) := g.nodes[id]? then
      discard <| Build.output (← image images e) (some name)

/-- The structurally hashed copy: inputs and outputs keep their order and names, and only gates that
some output needs are rebuilt. -/
def rehash (g : Graph) : Except Fault Graph :=
  match g.rehashInto.run Graph.empty with
  | (.ok _, h) => .ok h
  | (.error f, _) => .error f

end AndInverter.Graph
