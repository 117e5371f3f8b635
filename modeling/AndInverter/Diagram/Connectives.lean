import AndInverter.Diagram.Cofactor

/-!
# Connectives

The diagram of a choice between two functions, by splitting it variable by variable, and the
connectives that are special choices.
-/

namespace AndInverter.StoreM

def settled? (c : Choice) : StoreM (Option Ref) :=
  modifyGet fun (s : DiagramStore) =>
    match s with
    | ⟨nodes, computed⟩ =>
      let (r?, computed) := computed.lookup c
      (r?, ⟨nodes, computed⟩)

def remember (c : Choice) (r : Ref) : StoreM Unit :=
  modify fun (s : DiagramStore) =>
    match s with
    | ⟨nodes, computed⟩ => ⟨nodes, computed.insert c r⟩

def choose (c : Choice) : StoreM Ref := do
  let s ← get
  match _hform : c.form s.topVar with
  | .known r => return r
  | .split negated d =>
    if _htop : s.topVar d.test = 0 then throw (.fault .constantCondition)
    else
      if let some r ← settled? d then return r.negIf negated
      ofFault (s.checkSplit d)
      let parts := s.split d
      let e ← choose parts.low
      let t ← choose parts.high
      let r ← node parts.var e t
      remember d r
      return r.negIf negated
termination_by c.weight
decreasing_by
  all_goals
    exact Nat.lt_of_lt_of_le (DiagramStore.weight_cofactorChoice_lt _htop)
      (Choice.weight_le_of_form_eq_split _hform)

def ite (f g h : Ref) : StoreM Ref := choose ⟨f, g, h⟩

def and (f g : Ref) : StoreM Ref := ite f g .zero

def or (f g : Ref) : StoreM Ref := ite f .one g

def xor (f g : Ref) : StoreM Ref := ite f (-g) g

def iff (f g : Ref) : StoreM Ref := ite f g (-g)

/-- The conjunction of all functions of a list, from the first on. -/
def conjunction (fs : List Ref) : StoreM Ref := fs.foldlM and .one

end AndInverter.StoreM
