import AndInverter.Cut.Sharing
import AndInverter.Graph.Hashing
import AndInverter.Unateness.Copies
import AndInverter.Unateness.Diagrams
import AndInverter.Unateness.Report

/-!
# Networks

A graph together with the diagrams of its outputs, once they have been built, and the queries that
choose between the two.
-/

namespace AndInverter

open Clausal

/-- A graph, and the diagrams of its outputs if they have been built. -/
structure Network where
  graph : Graph
  diagrams : Option OutputDiagrams := none

inductive Method where
  | satisfiability
  | diagrams
deriving DecidableEq, Repr

abbrev NetworkM := ExceptT Failure (StateM Network)

namespace NetworkM

def ofExcept {α : Type} : Except Failure α → NetworkM α
  | .ok a => return a
  | .error e => throw e

/-- Replaces the graph by its hashed copy. The diagrams stay, since the outputs stay what they
are. -/
def rehash : NetworkM Unit := do
  let g ← ofExcept ((← get).graph.rehash.mapError .fault)
  modify ({ · with graph := g })

def collapse (bits : Nat) : NetworkM Unit := do
  let d ← ofExcept (OutputDiagrams.ofGraph (← get).graph bits)
  modify ({ · with diagrams := some d })

def requireMethod (method : Method) : NetworkM Unit := do
  let n ← get
  match method with
  | .satisfiability => if !n.graph.isHashed then throw (.error .notHashed)
  | .diagrams => if n.diagrams.isNone then throw (.error .noDiagrams)

def classifyByDiagrams (output input : Nat) : NetworkM Verdict := fun n =>
  match n with
  | ⟨g, some d⟩ =>
    let (v, d) := d.classify g output input
    (v, ⟨g, some d⟩)
  | ⟨g, none⟩ => (.error (.error .noDiagrams), ⟨g, none⟩)

variable {σ : Type}

def classify (s : Solver σ) (output input : Nat) (method : Method) : NetworkM Verdict := do
  let g := (← get).graph
  ofExcept (g.requireOutput output)
  ofExcept (g.requireInput input)
  requireMethod method
  match method with
  | .diagrams => classifyByDiagrams output input
  | .satisfiability => ofExcept do ((← ConeCopies.ofOutput g output).classify s input).answer s

/-- The dependence of an output on an input, from a diagram of the output alone that is built for
this question in a store of `2 ^ bits` cells. -/
def classifyAlone (output input bits : Nat) : NetworkM Verdict := do
  let g := (← get).graph
  ofExcept (g.requireOutput output)
  ofExcept (g.requireInput input)
  let d ← ofExcept (ConeDiagram.ofOutput g output bits)
  ofExcept (d.classify g input).1

def classifyInputs (s : Solver σ) (output : Nat) (method : Method) : NetworkM (List Verdict) := do
  let g := (← get).graph
  match method with
  | .diagrams => (List.range g.numInputs).mapM (classifyByDiagrams output)
  | .satisfiability => ofExcept do ((← ConeCopies.ofOutput g output).classifyInputs s).answer s

def report (s : Solver σ) (method : Method) : NetworkM (List UnatenessReport) := do
  requireMethod method
  let g := (← get).graph
  (List.range g.numOutputs).mapM fun output => do
    let vs ← classifyInputs s output method
    ofExcept ((UnatenessReport.ofVerdicts g output vs).mapError .fault)

def sharedCuts (bounds : SharingBounds) (schedule : Schedule) : NetworkM (List SharedCut) := do
  ofExcept (SharedCut.ofGraph (← get).graph bounds schedule)

end NetworkM

end AndInverter
