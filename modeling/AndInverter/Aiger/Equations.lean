import AndInverter.Aiger.Header
import AndInverter.Graph.Build

/-!
# Gate equations

The gates of a description may come in any order. They are settled in rounds: a round goes once
through the open equations and adds the gates whose two operands are known by then.
-/

namespace AndInverter.Aiger

/-- A literal stands for variable `literal / 2`, complemented if it is odd. -/
def variableOf (literal : Nat) : Nat := literal / 2

structure Equation where
  line : Nat
  head : Nat
  left : Nat
  right : Nat
deriving DecidableEq, Repr

/-- A graph in the making, and the edges of the variables defined so far. -/
structure Scope where
  graph : Graph
  edges : Std.HashMap Nat Edge
deriving Inhabited

namespace Scope

def initial : Scope := ⟨.empty, .insert ∅ 0 (.constant false)⟩

def edge? (s : Scope) (literal : Nat) : Option Edge :=
  s.edges[variableOf literal]?.map (Edge.complementIf · (literal % 2 == 1))

def addInput : Scope → Nat → Scope
  | ⟨graph, edges⟩, var =>
    let (e, graph) := graph.withInput graph.nextInputName
    ⟨graph, edges.insert var e⟩

def addGate : Scope → Nat → Edge → Edge → Scope
  | ⟨graph, edges⟩, head, a, b =>
    let (e, graph) := graph.withGate a b
    ⟨graph, edges.insert (variableOf head) e⟩

def addOutput : Scope → Edge → Scope
  | ⟨graph, edges⟩, e => ⟨(graph.withOutput e graph.nextOutputName).2, edges⟩

def operands? (s : Scope) (q : Equation) : Option (Edge × Edge) := do
  return (← s.edge? q.left, ← s.edge? q.right)

def round (s : Scope) : List Equation → List Equation × Scope
  | [] => ([], s)
  | q :: qs =>
    match s.operands? q with
    | some (a, b) => (s.addGate q.head a b).round qs
    | none =>
      let (rest, s') := s.round qs
      (q :: rest, s')

theorem length_round_le (s : Scope) (qs : List Equation) :
    (s.round qs).1.length ≤ qs.length := by
  induction qs generalizing s with
  | nil => simp [round]
  | cons q qs ih =>
    simp only [round]
    split
    · exact Nat.le_succ_of_le (ih _)
    · simpa using ih s

/-- Rounds until every equation is settled, or until a round settles none. The first equation left
open is then to blame. -/
def solve (s : Scope) (qs : List Equation) : Except Error Scope :=
  match s.round qs with
  | ([], s') => .ok s'
  | (q :: rest, s') =>
    if _h : (q :: rest).length < qs.length then s'.solve (q :: rest)
    else .error ((Problem.undefinedFanin q.head q.left q.right).at q.line)
termination_by qs.length

end Scope

end AndInverter.Aiger
