import AndInverter.Clausal.Encoding
import AndInverter.Clausal.Solver
import AndInverter.Unateness.Basic

/-!
# Unateness by satisfiability

Two copies of the cone of an output share one formula. Every input of the cone has a switch that
forces its two copies to agree. For a question about an input all other switches are on, the input
is low in the first copy and high in the second, and the solver is asked for a falling and for a
rising output.
-/

namespace AndInverter

open Clausal

/-- Two copies of the cone of an output, and the switches that tie their inputs together. -/
structure ConeCopies where
  graph : Graph
  output : Nat
  encoding : Encoding
  first : Block
  second : Block
  /-- The switches of the cone inputs, in the order of the encoding. -/
  switches : List Nat
  formula : Formula

namespace ConeCopies

def addSwitch (f : Formula) (a b : Nat) : Nat × Formula :=
  let (e, f) := f.freshVar
  (e, (f.addClause [⟨e, false⟩, ⟨a, false⟩, ⟨b, true⟩]).addClause
    [⟨e, false⟩, ⟨a, true⟩, ⟨b, false⟩])

def addSwitches (first second : Block) (f : Formula) :
    List Nat → Except Fault (List Nat × Formula)
  | [] => .ok ([], f)
  | v :: vs => do
    let (e, f) := addSwitch f (← first.place v) (← second.place v)
    let (es, f) ← addSwitches first second f vs
    return (e :: es, f)

def ofOutput (g : Graph) (output : Nat) : Except Failure ConeCopies :=
  if g.numOutputs ≤ output then .error (.error (.outputOutOfRange output g.numOutputs))
  else
    let copies : Except Fault ConeCopies := do
      let encoding ← Encoding.ofOutput g output
      let (first, f) := Block.fresh .empty encoding.numVars
      let (second, f) := Block.fresh f encoding.numVars
      if second ≠ first.adjacent then throw .copiesApart
      let f ← encoding.addTo (← encoding.addTo f first) second
      let (switches, f) ← addSwitches first second f (encoding.inputs.map Prod.snd)
      return { graph := g, output, encoding, first, second, switches, formula := f }
    match copies with
    | .ok c => .ok c
    | .error f => .error (.fault f)

def enter (c : ConeCopies) (model : Nat → Bool) (p : Pattern) (entry : Nat × Nat) :
    Except Fault Pattern := do
  p.assign entry.1 (some (model (← c.first.place entry.2)))

/-- The pattern of a model: the values of the first copy, low outside the cone, and the input in
question left open. -/
def pattern (c : ConeCopies) (input : Nat) (model : Nat → Bool) : Except Fault Pattern := do
  let p ← c.encoding.inputs.foldlM (c.enter model) (.low c.graph.numInputs)
  p.assign input none

variable {σ : Type}

abbrev Query (σ : Type) := ExceptT Failure (StateM σ)

def ask (s : Solver σ) (c : ConeCopies) (input : Nat) (assumptions : List Literal) :
    Query σ (Option Pattern) := do
  match ← (s.solve c.formula assumptions : StateM σ Outcome) with
  | .unsatisfiable => return none
  | .satisfiable model => return some (← (c.pattern input model).mapError Failure.fault)
  | .unknown reason => throw (.error (.inconclusive c.output input reason))

def verdict (output input : Nat) : Option Pattern → Option Pattern → Verdict
  | none, none => { output, input, unateness := .independent }
  | some _, none => { output, input, unateness := .positive }
  | none, some _ => { output, input, unateness := .negative }
  | some rising, some falling => .binate output input { rising, falling }

/-- The literals that raise an input of the cone and keep all others. -/
def raising (c : ConeCopies) (input low high : Nat) : List Literal :=
  (c.switches.zip c.encoding.inputs).map (fun (e, i, _) => ⟨e, i != input⟩) ++
    [⟨low, false⟩, ⟨high, true⟩]

def classify (s : Solver σ) (c : ConeCopies) (input : Nat) : Query σ Verdict := do
  if c.graph.numInputs ≤ input then
    throw (.error (.inputOutOfRange input c.graph.numInputs))
  match c.encoding.output?, c.encoding.varOfInput? input with
  | some y, some v =>
    let lift {α : Type} (a : Except Fault α) : Query σ α :=
      match a with
      | .ok a => return a
      | .error f => throw (.fault f)
    let raising := c.raising input (← lift (c.first.place v)) (← lift (c.second.place v))
    let low ← lift (c.first.placeLiteral y)
    let high ← lift (c.second.placeLiteral y)
    let falling ← ask s c input (raising ++ [low, high.complement])
    let rising ← ask s c input (raising ++ [low.complement, high])
    return verdict c.output input rising falling
  | _, _ => return { output := c.output, input, unateness := .independent }

def classifyInputs (s : Solver σ) (c : ConeCopies) : Query σ (List Verdict) :=
  (List.range c.graph.numInputs).mapM (classify s c)

def Query.answer {α : Type} (q : Query σ α) (s : Solver σ) : Except Failure α := (q.run s.start).1

end ConeCopies

end AndInverter
