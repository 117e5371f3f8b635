import AndInverter.Error
import AndInverter.Graph.Simulation

/-!
# Unateness

How an output depends on one input: not at all, only rising with it, only falling with it, or both
ways. A dependence both ways is witnessed by two patterns, which an evaluation can check.
-/

namespace AndInverter

inductive Unateness where
  | independent
  | positive
  | negative
  | binate
deriving DecidableEq, Repr

instance : ToString Unateness where
  toString
    | .independent => "independent"
    | .positive => "positive unate"
    | .negative => "negative unate"
    | .binate => "binate"

/-- An assignment of all inputs that leaves some of them open. -/
structure Pattern where
  values : Array (Option Bool)
deriving DecidableEq, Repr

namespace Pattern

def low (n : Nat) : Pattern := ⟨.replicate n (some false)⟩

def assign (p : Pattern) (input : Nat) (value : Option Bool) : Except Fault Pattern :=
  if input < p.values.size then .ok ⟨p.values.setIfInBounds input value⟩ else .error .outOfRange

def fill (p : Pattern) (b : Bool) : Array Bool := p.values.map (·.getD b)

/-- One character for each input, with a dash for an open one. -/
instance : ToString Pattern where
  toString p := String.ofList <| p.values.toList.map fun
    | some false => '0'
    | some true => '1'
    | none => '-'

end Pattern

structure Witness where
  /-- Under this pattern the output follows the input. -/
  rising : Pattern
  /-- Under this pattern the output follows the negated input. -/
  falling : Pattern
  /-- The number of assignments of the other relevant inputs under which the output follows the
  input, if it has been counted. -/
  risingCount : Option Nat := none
  fallingCount : Option Nat := none
deriving DecidableEq, Repr

structure Verdict where
  output : Nat
  input : Nat
  unateness : Unateness
  witness : Option Witness := none
deriving DecidableEq, Repr

namespace Verdict

def binate (output input : Nat) (w : Witness) : Verdict := ⟨output, input, .binate, some w⟩

def outputValue (g : Graph) (output : Nat) (x : Array Bool) : Except Fault Bool := do
  match (← g.eval x)[output]? with
  | some b => return b
  | none => throw .outOfRange

/-- Whether raising the input, which a pattern leaves open, changes the output to `b`. -/
def reaches (g : Graph) (output input : Nat) (p : Pattern) (b : Bool) : Except Fault Bool := do
  if p.values[input]? ≠ some none then return false
  let low ← outputValue g output (p.fill false)
  let high ← outputValue g output (p.fill true)
  return low != high && high == b

/-- Whether the evidence bears a verdict out. Only a dependence both ways needs any. -/
def check (v : Verdict) (g : Graph) : Except Fault Bool :=
  match v.witness with
  | none => .ok (decide (v.unateness ≠ .binate))
  | some w => do
    if ← reaches g v.output v.input w.rising true then reaches g v.output v.input w.falling false
    else return false

/-- The unateness, then the patterns of the evidence on lines of their own. -/
instance : ToString Verdict where
  toString v :=
    match v.witness with
    | none => toString v.unateness
    | some w => s!"{v.unateness}\n{w.rising}\n{w.falling}"

end Verdict

end AndInverter
