import AndInverter.Aiger.Header
import AndInverter.Graph.Build

/-!
# Symbols

The lines after the gates name inputs and outputs. Empty lines are skipped, and a line that holds
the letter c alone begins the comments.
-/

namespace AndInverter.Aiger

inductive Symbol.Kind where
  | input
  | output
deriving DecidableEq, Repr

structure Symbol where
  kind : Symbol.Kind
  position : Nat
  name : List Char
deriving DecidableEq, Repr

namespace Symbol

def ofParts? (kind : Kind) (cs : List Char) : Option Symbol :=
  match cs.span (· != ' ') with
  | (_, []) => none
  | (position, _ :: name) => (number? position).map fun p => ⟨kind, p, name⟩

def ofLine (l : Line) : Except Error Symbol :=
  let parts (kind : Kind) (cs : List Char) :=
    match ofParts? kind cs with
    | some s => .ok s
    | none => .error ((Problem.malformedSymbol l.text).at l.number)
  match l.text with
  | 'i' :: cs => parts .input cs
  | 'o' :: cs => parts .output cs
  | _ => .error ((Problem.symbolKind l.text).at l.number)

def apply (s : Symbol) (g : Graph) : Except Fault Graph :=
  match s.kind with
  | .input => g.renameInput s.position (String.ofList s.name)
  | .output => g.renameOutput s.position (String.ofList s.name)

/-- Applies the symbols of the given lines up to the comments. -/
def applyLines (g : Graph) : List Line → Except Error Graph
  | [] => .ok g
  | l :: ls =>
    if l.text.isEmpty then applyLines g ls
    else if l.text = ['c'] then .ok g
    else do
      let s ← ofLine l
      match s.apply g with
      | .ok g => applyLines g ls
      | .error _ => throw ((Problem.symbolPosition s.position).at l.number)

end Symbol

end AndInverter.Aiger
