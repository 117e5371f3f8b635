import Std.Data.HashMap
import AndInverter.Diagram.Connectives

/-!
# Constant choices

Whether a choice comes to a constant, decided without adding a node to the store.
-/

namespace AndInverter.StoreM

abbrev ConstancyMemo := Std.HashMap Choice (Option Bool)

/-- The constant a choice comes to, if it is constant. The low cofactor matters only if the high one
is constant. -/
def constantChoice? (c : Choice) : StateT ConstancyMemo StoreM (Option Bool) := do
  if let some r := c.known? then return r.constant?
  if let some r ← settled? c then return r.constant?
  if let some b := (← get)[c]? then return b
  let s ← getThe DiagramStore
  if _htop : s.topVar c.test = 0 then throw (.fault .constantCondition)
  else
    ofFault (s.checkSplit c)
    let parts := s.split c
    let t ← constantChoice? parts.high
    let b ←
      if t.isNone then pure none
      else do
        let e ← constantChoice? parts.low
        pure (if e = t then t else none)
    modify (·.insert c b)
    return b
termination_by c.weight
decreasing_by all_goals exact DiagramStore.weight_cofactorChoice_lt _htop

def constantIte? (f g h : Ref) : StoreM (Option Bool) := (constantChoice? ⟨f, g, h⟩).run' ∅

def implies (f g : Ref) : StoreM Bool := return (← constantIte? f g .one) = some true

end AndInverter.StoreM
