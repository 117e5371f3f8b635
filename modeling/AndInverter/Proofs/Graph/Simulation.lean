import AndInverter.Proofs.Graph.Scan

/-!
# Simulations

A simulation gives the values of all nodes under some assignment of the inputs, and every assignment
that covers the inputs has one.
-/

namespace AndInverter.Graph

variable {g : Graph} {assignment values : Array Bool} {x : Nat → Bool} {id i : Nat}

def assigned (assignment : Array Bool) (i : Nat) : Bool := assignment[i]?.getD false

def assignmentOf (g : Graph) (x : Nat → Bool) : Array Bool :=
  Array.ofFn fun i : Fin g.numInputs => x i

theorem size_assignmentOf (g : Graph) (x : Nat → Bool) :
    (g.assignmentOf x).size = g.numInputs := Array.size_ofFn

theorem simulate_eq_ok_iff : g.simulate assignment = .ok values ↔
    assignment.size = g.numInputs ∧ values = g.values (assigned assignment) := by
  rw [simulate]
  split
  · rename_i h
    exact ⟨fun hv => ⟨h, (Except.ok.inj hv).symm⟩, fun hv => congrArg Except.ok hv.2.symm⟩
  · rename_i h
    exact ⟨fun hv => (by cases hv), fun hv => absurd hv.1 h⟩

theorem eval_eq (g : Graph) (assignment : Array Bool) : g.eval assignment =
    if assignment.size = g.numInputs then
      .ok (g.outputs.map (g.valueOf (assigned assignment)))
    else .error .partialAssignment := by
  rw [eval, simulate]
  split
  · rfl
  · rfl

theorem getElem?_values (h : id < g.size) : (g.values x)[id]? = some (g.valueOf x id) := by
  have hlt : id < (g.values x).size := (size_scan _).symm ▸ h
  rw [valueOf, Array.getElem?_eq_getElem hlt, Option.getD_some]

theorem WellFormed.index_lt_numInputs (hg : g.WellFormed) (h : g.nodes[id]? = some (.input i)) :
    i < g.numInputs :=
  (Array.getElem?_eq_some_iff.mp (hg.input_iff.mpr h)).1

theorem valueOf_assigned_assignmentOf (hg : g.WellFormed) (x : Nat → Bool) (id : Nat) :
    g.valueOf (assigned (g.assignmentOf x)) id = g.valueOf x id := by
  refine valueOf_congr hg (P := fun _ => True) (fun _ _ _ _ _ _ => trivial)
    (fun id i _ hi => ?_) trivial
  have hlt := hg.index_lt_numInputs hi
  simp [assigned, assignmentOf, hlt]

end AndInverter.Graph
