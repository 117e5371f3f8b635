import AndInverter.Graph.Edge

/-!
# Faults

A fault is a breach of what an operation demands of its caller. It is no error of the input: a
caller that keeps to the conditions never meets one. Some faults have a wording, others have none.
-/

namespace AndInverter

/-- What an operation was denied by its caller. -/
inductive Fault where
  /-- An index lies outside the list it points into. -/
  | outOfRange
  | missingFanin (fanin : Edge)
  /-- A primary output drives nothing. -/
  | outputAsFanin (fanin : Edge)
  | partialAssignment
  /-- A rebuilt graph holds no image of the node. -/
  | unmappedFanin (fanin : Edge)
  | notAnOutput (output : Nat)
  | missingCuts (fanin node : Nat)
  | foreignVariable (var count : Nat)
  | blockSize
  | copiesApart
  | unencodedNode (node : Nat)
  | notAnInput (node : Nat)
  | outputInsideCone
  | uniqueTableBits
  | computedTableBits
  | diagramBits
  | sentryCell
  | variableZero
  | unnamedVariable
  | literalZero
  /-- The condition of a choice has no variable to split on. -/
  | constantCondition
  /-- A cofactor was asked for below the top variable of a diagram. -/
  | variableBelowTop
  /-- A diagram tests more variables than it is to be counted over. -/
  | tooManyVariables
  | unbuiltNode (node : Nat)
  | unbuiltOutput (node : Nat)
  | foreignDiagrams
deriving DecidableEq, Repr

def Fault.message : Fault → Option String
  | outOfRange => none
  | missingFanin e => some s!"fanin {e} of a new node does not exist"
  | outputAsFanin e => some s!"fanin {e} of a new node is a primary output"
  | partialAssignment => some "assignment must cover every primary input"
  | unmappedFanin e => some s!"fanin {e} is not mapped yet"
  | notAnOutput o => some s!"output {o} is not bound to a primary output"
  | missingCuts f n => some s!"cut set of fanin {f} is missing while processing node {n}"
  | foreignVariable v c => some s!"local variable {v} is outside a range of {c}"
  | blockSize => some "range does not fit the encoding"
  | copiesApart => some "copies must be adjacent"
  | unencodedNode n => some s!"node {n} of the cone has no variable"
  | notAnInput n => some s!"cone input {n} is not a primary input"
  | outputInsideCone => some "outputs have no fanout"
  | uniqueTableBits => some "Storage bits should be in the range 0..=31"
  | computedTableBits => some "Bits should be in the range 0..=31"
  | diagramBits => some "Storage bits should be in the range 1..=31"
  | sentryCell => some "Index is 0"
  | variableZero => some "Variable index should not be zero"
  | unnamedVariable => some "Variable IDs must be >= 1"
  | literalZero => some "Literal must be non-zero"
  | constantCondition => none
  | variableBelowTop => none
  | tooManyVariables => none
  | unbuiltNode n => some s!"node {n} has no BDD yet"
  | unbuiltOutput n => some s!"output node {n} was not built"
  | foreignDiagrams => some "BDDs were collapsed from a different network"

end AndInverter
