import Std.Data.HashMap
import AndInverter.Diagram.Cofactor

/-!
# Restriction

The cofactors of a function at any variable.
-/

namespace AndInverter.StoreM

def restrictNode (v : Nat) (b : Bool) (f : Ref) : StateT (Std.HashMap Ref Ref) StoreM Ref := do
  let s ← getThe DiagramStore
  ofFault (s.nodes.check f.index)
  let n := s.view f
  if _hn : n.var = 0 then return f
  else if v < n.var then return f
  else if v = n.var then return if b then n.high else n.low
  else
    if let some r := (← get)[f]? then return r
    let e ← restrictNode v b n.low
    let t ← restrictNode v b n.high
    let r ← node n.var e t
    modify (·.insert f r)
    return r
termination_by f.index
decreasing_by all_goals exact DiagramStore.index_child_lt (DiagramStore.one_lt_index _hn)

def restrict (f : Ref) (v : Nat) (b : Bool) : StoreM Ref := do
  if v = 0 then throw (.fault .variableZero)
  (restrictNode v b f).run' ∅

end AndInverter.StoreM
