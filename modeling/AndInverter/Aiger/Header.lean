import AndInverter.Aiger.Problem
import AndInverter.Aiger.Text

/-!
# Headers

The first line names the format and counts what follows. Latches are counted too, but a network
with latches is refused.
-/

namespace AndInverter.Aiger

/-- A line of a description, without the white space at its ends, and its number from one. -/
structure Line where
  number : Nat
  text : List Char
deriving DecidableEq, Repr

def Line.ofText (cs : List Char) : List Line :=
  (lines cs).zipIdx.map fun (text, i) => ⟨i + 1, trim text⟩

def readNumber (line : Nat) (w : List Char) : Except Error Nat :=
  match number? w with
  | some n => .ok n
  | none => .error ((Problem.notANumber w).at line)

def readNumbers (line expected : Nat) (ws : List (List Char)) :
    Except Error (Vector Nat expected) := do
  let ns ← ws.toArray.mapM (readNumber line)
  if h : ns.size = expected then return ⟨ns, h⟩
  else throw ((Problem.numberCount expected ns.size).at line)

structure Header where
  /-- No variable has a larger index. -/
  maxVar : Nat
  numInputs : Nat
  numLatches : Nat
  numOutputs : Nat
  numGates : Nat
deriving DecidableEq, Repr

namespace Header

def ofWords : List (List Char) → Except Error Header
  | [] => .error (Problem.noHeader.at 1)
  | format :: ws =>
    if format = "aag".toList then do
      let ns ← readNumbers 1 5 ws
      return ⟨ns.get 0, ns.get 1, ns.get 2, ns.get 3, ns.get 4⟩
    else if format = "aig".toList then .error (.unsupported "binary AIGER")
    else .error ((Problem.unknownFormat format).at 1)

/-- Refuses latches, and a maximum index that leaves too few variables. The counts are added as
numbers, which is their sum as 64-bit words if that is below `2 ^ 64`. -/
def check (h : Header) : Except Error Unit :=
  if 0 < h.numLatches then
    .error (.unsupported s!"{h.numLatches} latches (only combinational networks are supported)")
  else if h.maxVar < h.numInputs + h.numGates then
    .error ((Problem.tooFewVariables h.maxVar (h.numInputs + h.numGates)).at 1)
  else .ok ()

end Header

end AndInverter.Aiger
