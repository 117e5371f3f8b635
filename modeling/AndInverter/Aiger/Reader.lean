import AndInverter.Aiger.Sections
import AndInverter.Aiger.Symbols

/-!
# Reading descriptions

The graph of a textual description of a combinational network. Gates are added as they stand,
neither hashed nor simplified.
-/

namespace AndInverter

open Aiger

/-- The graph that a description denotes, or the first problem of the description. -/
def Graph.ofAiger (text : String) : Except Error Graph :=
  let ls := Line.ofText text.toList
  match ls with
  | [] => .error (Problem.emptyText.at 1)
  | first :: rest => do
    let h ← Header.ofWords (words first.text)
    h.check
    let (inputs, rest) ← readLines ls.length "an input" (readInput h) h.numInputs rest .initial
    let (outputs, rest) ← readLines ls.length "an output" (readOutput h) h.numOutputs rest #[]
    let (gates, rest) ←
      readLines ls.length "an AND gate" (readGate h inputs) h.numGates rest {}
    let s ← inputs.solve gates.list.toList
    let s ← s.addOutputs outputs
    Symbol.applyLines s.graph rest

end AndInverter
