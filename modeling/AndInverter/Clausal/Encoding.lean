import AndInverter.Ascending
import AndInverter.Clausal.Block
import AndInverter.Graph.Cone

/-!
# Clausal encoding of output cones

Every node of the cone of an output gets a variable, in ascending order, and every gate three
clauses that say it is the conjunction of its fanins. The models of the clauses are the simulations
of the cone.
-/

namespace AndInverter.Clausal

inductive Driver where
  | constant (value : Bool)
  | literal (l : Literal)
deriving DecidableEq, Repr

/-- The clauses of the cone of an output, over local variables. -/
structure Encoding where
  numVars : Nat := 0
  clauses : List Clause := []
  /-- The variables of the nodes of the cone. -/
  vars : Std.HashMap Nat Nat := ∅
  /-- The inputs of the cone: index and variable, by ascending index. -/
  inputs : List (Nat × Nat) := []
  driver : Driver

namespace Encoding

def output? (c : Encoding) : Option Literal :=
  match c.driver with
  | .literal l => some l
  | .constant _ => none

def constant? (c : Encoding) : Option Bool :=
  match c.driver with
  | .literal _ => none
  | .constant b => some b

def varOfNode? (c : Encoding) (node : Nat) : Option Nat := c.vars[node]?

def varOfInput? (c : Encoding) (index : Nat) : Option Nat :=
  (Ascending.search Prod.fst index c.inputs).map Prod.snd

def edgeLiteral (vars : Std.HashMap Nat Nat) (e : Edge) : Except Fault Literal :=
  match vars[e.node]? with
  | some v => .ok ⟨v, !e.complemented⟩
  | none => .error (.unencodedNode e.node)

def nodeClauses (g : Graph) (vars : Std.HashMap Nat Nat) (id : Nat) :
    Except Fault (List Clause) := do
  let x ← edgeLiteral vars (.plain id)
  match ← g.node id with
  | .constant => return [[x.complement]]
  | .input _ => return []
  | .gate e f =>
    let a ← edgeLiteral vars e
    let b ← edgeLiteral vars f
    return [[x, a.complement, b.complement], [x.complement, a], [x.complement, b]]
  | .output .. => throw .outputInsideCone

def inputEntry (g : Graph) (vars : Std.HashMap Nat Nat) (id : Nat) : Except Fault (Nat × Nat) :=
  match (g.nodes[id]?.bind Node.inputIndex?) with
  | none => .error (.notAnInput id)
  | some index => do return (index, (← edgeLiteral vars (.plain id)).var)

def ofOutput (g : Graph) (output : Nat) : Except Fault Encoding := do
  let driver ← g.driver output
  if driver.isConstant then return { driver := .constant driver.complemented }
  let cone ← g.cone driver.node
  let vars := Std.HashMap.ofList cone.nodes.zipIdx
  return {
    numVars := cone.nodes.length
    clauses := (← cone.nodes.mapM (nodeClauses g vars)).flatten
    vars
    inputs := ← cone.inputs.mapM (inputEntry g vars)
    driver := .literal (← edgeLiteral vars driver) }

def addTo (c : Encoding) (f : Formula) (b : Block) : Except Fault Formula :=
  if b.count = c.numVars then
    c.clauses.foldlM (fun f clause => do return f.addClause (← clause.mapM b.placeLiteral)) f
  else .error .blockSize

end Encoding

end AndInverter.Clausal
