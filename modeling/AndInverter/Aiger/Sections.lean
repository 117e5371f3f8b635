import Std.Data.HashSet
import AndInverter.Aiger.Equations

/-!
# Sections

After the header come the input lines, the output lines and the gate lines, as many of each as the
header announces.
-/

namespace AndInverter.Aiger

/-- Reads one line for each of `n` items, by a step that carries a state. The text ends at line
`last`. -/
def readLines {σ : Type} (last : Nat) (item : String) (step : σ → Line → Except Error σ) :
    Nat → List Line → σ → Except Error (σ × List Line)
  | 0, ls, s => .ok (s, ls)
  | _ + 1, [], _ => .error ((Problem.missingItem item).at (last + 1))
  | n + 1, l :: ls, s => do readLines last item step n ls (← step s l)

def isDefining (literal : Nat) : Bool := literal % 2 == 0 && 2 ≤ literal

def Header.checkLiteral (h : Header) (line literal : Nat) : Except Error Unit :=
  if h.maxVar < variableOf literal then
    .error ((Problem.beyondMaximum literal h.maxVar).at line)
  else .ok ()

def readInput (h : Header) (s : Scope) (l : Line) : Except Error Scope := do
  let literal := (← readNumbers l.number 1 (words l.text))[0]
  if !isDefining literal then throw ((Problem.inputLiteral literal).at l.number)
  h.checkLiteral l.number literal
  let var := variableOf literal
  if s.edges.contains var then throw ((Problem.definedTwice var).at l.number)
  return s.addInput var

structure OutputLine where
  line : Nat
  literal : Nat
deriving DecidableEq, Repr

def readOutput (h : Header) (outputs : Array OutputLine) (l : Line) :
    Except Error (Array OutputLine) := do
  let literal := (← readNumbers l.number 1 (words l.text))[0]
  h.checkLiteral l.number literal
  return outputs.push ⟨l.number, literal⟩

structure Equations where
  list : Array Equation := #[]
  heads : Std.HashSet Nat := ∅

/-- A gate line adds an equation for a variable that neither an input nor an earlier gate
defines. -/
def readGate (h : Header) (inputs : Scope) (qs : Equations) (l : Line) :
    Except Error Equations := do
  let ns ← readNumbers l.number 3 (words l.text)
  let q : Equation := ⟨l.number, ns[0], ns[1], ns[2]⟩
  if !isDefining q.head then throw ((Problem.gateLiteral q.head).at l.number)
  h.checkLiteral l.number q.head
  h.checkLiteral l.number q.left
  h.checkLiteral l.number q.right
  let var := variableOf q.head
  if inputs.edges.contains var || qs.heads.contains var then
    throw ((Problem.definedTwice var).at l.number)
  return { list := qs.list.push q, heads := qs.heads.insert var }

def Scope.addOutputs (s : Scope) (outputs : Array OutputLine) : Except Error Scope :=
  outputs.foldlM (fun s o =>
    match s.edge? o.literal with
    | some e => .ok (s.addOutput e)
    | none => .error ((Problem.undefinedOutput o.literal).at o.line)) s

end AndInverter.Aiger
