import AndInverter.Unateness.Basic

/-!
# Unateness reports

The inputs of one output, sorted by the dependence of the output on them.
-/

namespace AndInverter

/-- The names of the inputs in which an output is unate or binate. -/
structure UnatenessReport where
  outputName : String
  positive : List String := []
  negative : List String := []
  binate : List String := []
deriving DecidableEq, Repr

namespace UnatenessReport

/-- Enters an input. An input that does not matter counts as unate in both ways. -/
def add (r : UnatenessReport) (input : String) : Unateness → UnatenessReport
  | .independent => { r with positive := r.positive ++ [input], negative := r.negative ++ [input] }
  | .positive => { r with positive := r.positive ++ [input] }
  | .negative => { r with negative := r.negative ++ [input] }
  | .binate => { r with binate := r.binate ++ [input] }

def ofVerdicts (g : Graph) (output : Nat) (vs : List Verdict) : Except Fault UnatenessReport := do
  vs.foldlM (fun r v => do return r.add (← g.inputName v.input) v.unateness)
    { outputName := ← g.outputName output }

/-- A line for the output, and one for each list that is not empty. -/
instance : ToString UnatenessReport where
  toString r :=
    let line (label : String) (names : List String) :=
      if names.isEmpty then "" else s!"\n{label} inputs: " ++ ",".intercalate names
    s!"node {r.outputName}:" ++ line "+unate" r.positive ++ line "-unate" r.negative ++
      line "binate" r.binate

end UnatenessReport

end AndInverter
