import AndInverter.Diagram.Constancy
import AndInverter.Diagram.Models
import AndInverter.Diagram.Restriction
import AndInverter.Diagram.Shape
import AndInverter.Unateness.Basic

/-!
# Unateness by cofactors

A function depends on an input as its two cofactors compare: they are equal, one implies the other,
or neither. In the last case the differences of the cofactors hold the evidence, and are counted.
-/

namespace AndInverter

/-- A question to a store of diagrams. What it adds stays in the store, even if it fails. -/
abbrev DiagramQuery := ExceptT Failure (StateM DiagramStore)

namespace DiagramQuery

def during {α : Type} (stage : String) (op : StoreM α) : DiagramQuery α :=
  op.adapt fun
    | .full capacity => .error (.nodeLimit stage capacity)
    | .fault f => .fault f

end DiagramQuery

open DiagramQuery

/-- How the variables of a diagram stand for the inputs of a network. -/
structure VariableFrame where
  /-- The number of inputs of the network. -/
  numInputs : Nat
  /-- The input that each variable stands for, from variable one on. -/
  inputs : Array Nat
deriving DecidableEq, Repr

namespace VariableFrame

def numVars (frame : VariableFrame) : Nat := frame.inputs.size

def varOf (frame : VariableFrame) (input : Nat) : Nat :=
  match frame.inputs.idxOf? input with
  | some j => j + 1
  | none => 0

def enter (frame : VariableFrame) (p : Pattern) (l : SignedVariable) : Except Fault Pattern :=
  match frame.inputs[l.var.id - 1]? with
  | some i => p.assign i (some !l.negated)
  | none => .error .outOfRange

/-- The pattern of a path: inputs off the path are low, and the input in question is left open. -/
def pattern (frame : VariableFrame) (input : Nat) (path : List SignedVariable) :
    Except Fault Pattern := do
  let p ← path.foldlM frame.enter (.low frame.numInputs)
  p.assign input none

def lowestPattern (frame : VariableFrame) (s : DiagramStore) (input : Nat) (f : Ref) :
    Except Fault Pattern := do
  let path? ← s.findLowestPath f
  frame.pattern input (path?.getD [])

/-- The number of variables that the cofactors of a function leave free: those that it does not
test, and the one that is set. -/
def numFree (frame : VariableFrame) (s : DiagramStore) (f : Ref) : Except Fault Nat :=
  let tested := (s.support f).length
  if tested ≤ frame.numVars then .ok (frame.numVars - tested + 1) else .error .tooManyVariables

end VariableFrame

def compareCofactors (frame : VariableFrame) (f : Ref) (v output input : Nat) :
    DiagramQuery Verdict := do
  let stage (what : String) := s!"{what} for output {output}, input {input}"
  let low ← during (stage "cofactoring") (.restrict f v false)
  let high ← during (stage "cofactoring") (.restrict f v true)
  if low = high then return { output, input, unateness := .independent }
  if ← during (stage "comparing") (.implies low high) then
    return { output, input, unateness := .positive }
  if ← during (stage "comparing") (.implies high low) then
    return { output, input, unateness := .negative }
  let rising ← during (stage "extracting the rising witness") (.and high (-low))
  let falling ← during (stage "extracting the falling witness") (.and low (-high))
  let s ← get
  let pattern (g : Ref) := (frame.lowestPattern s input g).mapError Failure.fault
  let risingPattern ← pattern rising
  let fallingPattern ← pattern falling
  let free ← (frame.numFree s f).mapError Failure.fault
  return .binate output input {
    rising := risingPattern
    falling := fallingPattern
    risingCount := some (s.modelCount rising frame.numVars >>> free)
    fallingCount := some (s.modelCount falling frame.numVars >>> free) }

end AndInverter
