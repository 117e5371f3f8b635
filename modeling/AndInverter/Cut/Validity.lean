import AndInverter.Graph.Basic
import AndInverter.Reach

/-!
# Valid and minimal cuts

Whether a list of leaves is a cut of a node, decided by a search of the graph and not on a table of
cuts.
-/

namespace AndInverter.Graph

/-- Leaving a node behind makes up for the fanins that it puts on the stack. -/
theorem length_fanins_add_countP_lt {marks : Array Bool} {i : Nat} (h : marks[i]? = some false)
    (n : Node) (stack : List Nat) :
    ((n.fanins.map Edge.node).reverse ++ stack).length +
        2 * (marks.setIfInBounds i true).countP (!·) <
      (i :: stack).length + 2 * marks.countP (!·) := by
  have hmarks := countP_not_setIfInBounds_lt h
  have hfanins : n.fanins.length ≤ 2 := by cases n <;> simp [Node.fanins]
  simp only [List.length_append, List.length_reverse, List.length_map, List.length_cons]
  omega

/-- Whether the search from the nodes on a stack back to the primary inputs is stopped by leaves
everywhere. It goes on with the last fanin first, and passes over nodes that have been searched. -/
def isStopped (g : Graph) (leaves : List Nat) (searched : Array Bool) :
    List Nat → Except Fault Bool
  | [] => .ok true
  | id :: stack =>
    match _h : searched[id]? with
    | none => .error .outOfRange
    | some true => g.isStopped leaves searched stack
    | some false =>
      let searched' := searched.setIfInBounds id true
      if leaves.contains id then g.isStopped leaves searched' stack
      else
        match g.nodes[id]? with
        | none => .error .outOfRange
        | some n =>
          if n.isInput then .ok false
          else g.isStopped leaves searched' ((n.fanins.map Edge.node).reverse ++ stack)
termination_by stack => stack.length + 2 * searched.countP (!·)
decreasing_by
  · exact Nat.add_lt_add_right (Nat.lt_succ_self _) _
  · have := countP_not_setIfInBounds_lt _h
    simp only [List.length_cons]
    omega
  · exact length_fanins_add_countP_lt _h n stack

def isCut (g : Graph) (node : Nat) (leaves : List Nat) : Except Fault Bool :=
  g.isStopped leaves (.replicate g.size false) [node]

/-- Whether the leaves are a cut that stops to be one when any single leaf is left out. -/
def isMinimalCut (g : Graph) (node : Nat) (leaves : List Nat) : Except Fault Bool := do
  if !(← g.isCut node leaves) then return false
  (List.range leaves.length).allM fun i => do return !(← g.isCut node (leaves.eraseIdx i))

end AndInverter.Graph
