import AndInverter.Graph.Basic

/-!
# Building graphs

Operations that add nodes. A step that is denied keeps what earlier steps of the same operation
have added.
-/

namespace AndInverter

/-- A computation that extends a graph and may be denied. -/
abbrev Build := ExceptT Fault (StateM Graph)

namespace Graph

def push (g : Graph) (n : Node) : Graph := { g with nodes := g.nodes.push n }

def withGate (g : Graph) (a b : Edge) : Edge × Graph := (.plain g.size, g.push (.gate a b))

def withInput (g : Graph) (name : String) : Edge × Graph :=
  let id := g.size
  let index := g.numInputs
  (.plain id,
    { g with
      nodes := g.nodes.push (.input index)
      inputs := g.inputs.push id
      inputNames := g.inputNames.push name })

def withOutput (g : Graph) (fanin : Edge) (name : String) : Nat × Graph :=
  let id := g.size
  let index := g.numOutputs
  (index,
    { g with
      nodes := g.nodes.push (.output index fanin)
      outputs := g.outputs.push id
      outputNames := g.outputNames.push name })

def nextInputName (g : Graph) : String := s!"pi{g.numInputs}"

def nextOutputName (g : Graph) : String := s!"po{g.numOutputs}"

def renameInput (g : Graph) (index : Nat) (name : String) : Except Fault Graph :=
  if index < g.inputNames.size then
    .ok { g with inputNames := g.inputNames.setIfInBounds index name }
  else .error .outOfRange

def renameOutput (g : Graph) (index : Nat) (name : String) : Except Fault Graph :=
  if index < g.outputNames.size then
    .ok { g with outputNames := g.outputNames.setIfInBounds index name }
  else .error .outOfRange

end Graph

namespace Build

def checkFanin (e : Edge) : Build Unit := do
  match (← get).nodes[e.node]? with
  | none => throw (.missingFanin e)
  | some n => if n.isOutput then throw (.outputAsFanin e)

def input (name : Option String) : Build Edge :=
  modifyGet fun g => g.withInput (name.getD g.nextInputName)

def output (fanin : Edge) (name : Option String) : Build Nat := do
  checkFanin fanin
  modifyGet fun g => g.withOutput fanin (name.getD g.nextOutputName)

def gate (a b : Edge) : Build Edge := do
  checkFanin a
  checkFanin b
  modifyGet fun g => g.withGate a b

/-- The conjunction that constants, equal edges or complementary edges settle without a gate. The
edges come sorted. -/
def trivial? (a b : Edge) : Option Edge :=
  if a = .constant false ∨ a = b.complement then some (.constant false)
  else if a = .constant true then some b
  else if a = b then some a
  else none

/-- The conjunction of two edges, by an existing hashed gate where there is one. -/
def and (a b : Edge) : Build Edge := do
  let (a, b) := Edge.sorted a b
  if let some e := trivial? a b then return e
  if let some id := (← get).hashed[(a, b)]? then return .plain id
  let e ← gate a b
  modify fun g => { g with hashed := g.hashed.insert (a, b) e.node }
  return e

def or (a b : Edge) : Build Edge :=
  return (← and a.complement b.complement).complement

def xor (a b : Edge) : Build Edge := do
  let x ← and a b.complement
  let y ← and a.complement b
  or x y

def mux (s t e : Edge) : Build Edge := do
  let x ← and s t
  let y ← and s.complement e
  or x y

end Build

end AndInverter
