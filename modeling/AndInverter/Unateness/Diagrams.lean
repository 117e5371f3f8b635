import AndInverter.Graph.Cone
import AndInverter.Unateness.Cofactors

/-!
# Diagrams of outputs

The outputs of a graph as diagrams: all of them in one store with a variable for every input, or one
of them in a store of its own with a variable for every input of its cone.
-/

namespace AndInverter

open DiagramQuery

namespace Graph

def requireOutput (g : Graph) (output : Nat) : Except Failure Unit :=
  if output < g.numOutputs then .ok ()
  else .error (.error (.outputOutOfRange output g.numOutputs))

def requireInput (g : Graph) (input : Nat) : Except Failure Unit :=
  if input < g.numInputs then .ok ()
  else .error (.error (.inputOutOfRange input g.numInputs))

def edgeFunction (built : Array (Option Ref)) (e : Edge) : Except Failure Ref :=
  match built[e.node]?.join with
  | some r => .ok (r.negIf e.complemented)
  | none => .error (.fault (.unbuiltNode e.node))

def nodeFunction (g : Graph) (varOf : Nat → Nat) (built : Array (Option Ref)) (id : Nat) :
    DiagramQuery Ref := do
  match g.nodes[id]? with
  | none => throw (.fault .outOfRange)
  | some .constant => return .zero
  | some (.input i) => during s!"creating the variable of input {i}" (.var (varOf i))
  | some (.gate a b) =>
    let f ← edgeFunction built a
    let h ← edgeFunction built b
    during s!"building node {id}" (.and f h)
  | some (.output _ e) => edgeFunction built e

/-- The functions of some nodes, which come after their fanins. -/
def nodeFunctions (g : Graph) (varOf : Nat → Nat) (ids : List Nat) :
    DiagramQuery (Array (Option Ref)) :=
  ids.foldlM (fun built id => do
    let r ← g.nodeFunction varOf built id
    return built.setIfInBounds id (some r)) (.replicate g.size none)

def outputFunction (built : Array (Option Ref)) (id : Nat) : Except Failure Ref :=
  match built[id]?.join with
  | some r => .ok r
  | none => .error (.fault (.unbuiltOutput id))

end Graph

def emptyStore (bits : Nat) : Except Failure DiagramStore :=
  match DiagramStore.ofBits? bits with
  | .ok s => .ok s
  | .error _ => .error (.error (.storageBits bits))

def buildIn {α β : Type} (bits : Nat) (build : DiagramQuery α) (finish : α → DiagramStore → β) :
    Except Failure β := do
  match build.run (← emptyStore bits) with
  | (.ok a, s) => return finish a s
  | (.error e, _) => throw e

structure OutputDiagrams where
  store : DiagramStore
  functions : Array Ref
  numInputs : Nat

namespace OutputDiagrams

/-- Variable `j + 1` stands for input `j`. -/
def frame (numInputs : Nat) : VariableFrame := ⟨numInputs, .range numInputs⟩

def drawOutputs (g : Graph) : DiagramQuery (Array Ref) := do
  let built ← g.nodeFunctions (· + 1) (List.range g.size)
  liftExcept (g.outputs.mapM (Graph.outputFunction built))

def ofGraph (g : Graph) (bits : Nat) : Except Failure OutputDiagrams :=
  buildIn bits (drawOutputs g) fun functions store => ⟨store, functions, g.numInputs⟩

def classify (g : Graph) (output input : Nat) (d : OutputDiagrams) :
    Except Failure Verdict × OutputDiagrams :=
  match d with
  | ⟨store, functions, numInputs⟩ =>
    let query : DiagramQuery Verdict := do
      g.requireOutput output
      g.requireInput input
      if (functions.size, numInputs) ≠ (g.numOutputs, g.numInputs) then
        throw (.fault .foreignDiagrams)
      match functions[output]? with
      | some f => compareCofactors (frame numInputs) f (input + 1) output input
      | none => throw (.fault .outOfRange)
    let (v, store) := query.run store
    (v, ⟨store, functions, numInputs⟩)

end OutputDiagrams

structure ConeDiagram where
  store : DiagramStore
  output : Nat
  function : Ref
  frame : VariableFrame

namespace ConeDiagram

def drawRoot (g : Graph) (varOf : Nat → Nat) (c : Cone) (root : Nat) : DiagramQuery Ref := do
  let built ← g.nodeFunctions varOf c.nodes
  Graph.outputFunction built root

def ofOutput (g : Graph) (output bits : Nat) : Except Failure ConeDiagram := do
  g.requireOutput output
  let lift {α : Type} (a : Except Fault α) : Except Failure α := a.mapError .fault
  let root ← lift (g.output output)
  let cone ← lift (g.cone root)
  let frame : VariableFrame := ⟨g.numInputs, (g.coneInputs cone).toArray⟩
  buildIn bits (drawRoot g frame.varOf cone root) fun function store =>
    ⟨store, output, function, frame⟩

def classify (g : Graph) (input : Nat) (d : ConeDiagram) : Except Failure Verdict × ConeDiagram :=
  match d with
  | ⟨store, output, function, frame⟩ =>
    let query : DiagramQuery Verdict := do
      g.requireInput input
      let v := frame.varOf input
      if v = 0 then return { output, input, unateness := .independent }
      compareCofactors frame function v output input
    let (v, store) := query.run store
    (v, ⟨store, output, function, frame⟩)

end ConeDiagram

end AndInverter
