import Std.Data.HashMap
import AndInverter.Fault

/-!
# And-inverter graphs

A graph is a store of nodes, numbered in the order of their creation: the constant false, primary
inputs, AND gates and primary outputs. A node is only created after its fanins, so ascending
numbers are a topological order.
-/

namespace AndInverter

inductive Node where
  | constant
  | input (index : Nat)
  | gate (fanin0 fanin1 : Edge)
  | output (index : Nat) (fanin : Edge)
deriving DecidableEq, Repr, Inhabited

namespace Node

def fanins : Node → List Edge
  | constant | input _ => []
  | gate a b => [a, b]
  | output _ e => [e]

def isGate : Node → Bool
  | gate .. => true
  | _ => false

def isInput : Node → Bool
  | input _ => true
  | _ => false

def isOutput : Node → Bool
  | output .. => true
  | _ => false

def inputIndex? : Node → Option Nat
  | input i => some i
  | _ => none

instance : ToString Node where
  toString
    | constant => "const"
    | input i => s!"pi {i}"
    | gate a b => s!"and {a} {b}"
    | output i e => s!"po {i} {e}"

end Node

/-- An and-inverter graph with named inputs and outputs. -/
structure Graph where
  nodes : Array Node := #[.constant]
  /-- The nodes of the primary inputs, by input index. -/
  inputs : Array Nat := #[]
  /-- The nodes of the primary outputs, by output index. -/
  outputs : Array Nat := #[]
  inputNames : Array String := #[]
  outputNames : Array String := #[]
  /-- The hashed gate of each sorted pair of fanins. -/
  hashed : Std.HashMap (Edge × Edge) Nat := ∅
deriving Inhabited

namespace Graph

def empty : Graph := {}

def size (g : Graph) : Nat := g.nodes.size

def numInputs (g : Graph) : Nat := g.inputs.size

def numOutputs (g : Graph) : Nat := g.outputs.size

def node (g : Graph) (id : Nat) : Except Fault Node :=
  match g.nodes[id]? with
  | some n => .ok n
  | none => .error .outOfRange

def input (g : Graph) (index : Nat) : Except Fault Nat :=
  match g.inputs[index]? with
  | some id => .ok id
  | none => .error .outOfRange

def output (g : Graph) (index : Nat) : Except Fault Nat :=
  match g.outputs[index]? with
  | some id => .ok id
  | none => .error .outOfRange

def inputName (g : Graph) (index : Nat) : Except Fault String :=
  match g.inputNames[index]? with
  | some name => .ok name
  | none => .error .outOfRange

def outputName (g : Graph) (index : Nat) : Except Fault String :=
  match g.outputNames[index]? with
  | some name => .ok name
  | none => .error .outOfRange

def driver (g : Graph) (output : Nat) : Except Fault Edge := do
  match ← g.node (← g.output output) with
  | .output _ e => return e
  | _ => throw (.notAnOutput output)

def faninNodes (g : Graph) (id : Nat) : List Nat :=
  ((g.nodes[id]?.map Node.fanins).getD []).map Edge.node

def gates (g : Graph) : List Nat :=
  (List.range g.size).filter fun id => g.nodes[id]?.any Node.isGate

def numGates (g : Graph) : Nat := g.nodes.countP Node.isGate

/-- For every node, the nodes that it feeds, once for every fanin, in ascending order. -/
def fanouts (g : Graph) : Array (List Nat) :=
  (List.range g.size).foldr
    (fun id lists => (g.faninNodes id).foldl (fun ls j => ls.modify j (id :: ·)) lists)
    (.replicate g.size [])

def scan {β : Type} (g : Graph) (f : Array β → Node → β) : Array β :=
  g.nodes.foldl (fun earlier n => earlier.push (f earlier n)) #[]

def scanM {m : Type → Type} [Monad m] {β : Type} (g : Graph) (f : Array β → Node → m β) :
    m (Array β) :=
  g.nodes.foldlM (fun earlier n => return earlier.push (← f earlier n)) #[]

/-- The level of every node: zero for the constant and the inputs, one more than the higher fanin
for a gate. An output has the level of its driver. -/
def levels (g : Graph) : Array Nat :=
  g.scan fun earlier n =>
    let level (e : Edge) := earlier[e.node]?.getD 0
    match n with
    | .constant | .input _ => 0
    | .gate a b => 1 + max (level a) (level b)
    | .output _ e => level e

end Graph

end AndInverter
