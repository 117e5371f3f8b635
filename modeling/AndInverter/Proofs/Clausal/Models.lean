import AndInverter.Proofs.Clausal.Encoding
import AndInverter.Proofs.Graph.Building
import AndInverter.Proofs.Graph.Simulation

/-!
# Models of an encoding

The models of the clauses of an output are the simulations of its cone. The values of the inputs of
the cone determine a model, and in it the output literal has the value of the output.
-/

namespace AndInverter.Clausal.Encoding

variable {g : Graph} {c : Encoding} {e : Edge} {cone : Cone} {ids : List Nat}
  {id i v output : Nat} {m m' x : Nat → Bool}

/-- What the encoding of an output says, where the edge `e` drives the output. -/
structure Captures (c : Encoding) (g : Graph) (output : Nat) (e : Edge) : Prop where
  exists_var_iff {id : Nat} : (∃ v, c.varOfNode? id = some v) ↔ g.Reaches e.node id
  exists_node_iff {v : Nat} : (∃ id, c.varOfNode? id = some v) ↔ v < c.numVars
  node_unique {id id' v : Nat} :
    c.varOfNode? id = some v → c.varOfNode? id' = some v → id = id'
  satisfies_iff (m : Nat → Bool) : Satisfies m c.clauses ↔
    ∃ assignment values, g.simulate assignment = .ok values ∧
      ∀ id v, c.varOfNode? id = some v → values[id]? = some (m v)
  exists_model (x : Nat → Bool) :
    ∃ m, Satisfies m c.clauses ∧ ∀ i v, (i, v) ∈ c.inputs → m v = x i
  model_unique {m m' : Nat → Bool} : Satisfies m c.clauses → Satisfies m' c.clauses →
    (∀ i v, (i, v) ∈ c.inputs → m v = m' v) → ∀ v < c.numVars, m v = m' v
  eval_output : ∃ l, c.output? = some l ∧ ∀ m assignment, Satisfies m c.clauses →
    assignment.size = g.numInputs →
    (∀ i v, (i, v) ∈ c.inputs → assignment[i]? = some (m v)) →
    ∃ outputs, g.eval assignment = .ok outputs ∧ outputs[output]? = some (l.eval m)
  inputs_ascending : (c.inputs.map Prod.fst).Pairwise (· < ·)
  support_eq : g.support output = .ok (c.inputs.map Prod.fst)
  mem_inputs_iff {i v : Nat} : (i, v) ∈ c.inputs ↔
    ∃ id, g.nodes[id]? = some (.input i) ∧ c.varOfNode? id = some v
  varOfInput?_eq_some_iff {i v : Nat} : c.varOfInput? i = some v ↔ (i, v) ∈ c.inputs

namespace Represents

theorem mem_ids_of_var (h : c.Represents g e ids) (hv : c.varOfNode? id = some v) : id ∈ ids :=
  List.mem_of_getElem? (h.vars_iff.mp hv)

/-- A model is a simulation under an assignment that gives values to all inputs of the graph. -/
theorem satisfies_iff_simulate (h : c.Represents g e ids) (hg : g.WellFormed)
    (hlt : ∀ id ∈ ids, id < g.size) (m : Nat → Bool) : Satisfies m c.clauses ↔
      ∃ assignment values, g.simulate assignment = .ok values ∧
        ∀ id v, c.varOfNode? id = some v → values[id]? = some (m v) := by
  rw [h.clauses_iff]
  constructor
  · rintro ⟨x, hx⟩
    refine ⟨g.assignmentOf x, _, Graph.simulate_eq_ok_iff.mpr ⟨Graph.size_assignmentOf g x, rfl⟩,
      fun id v hv => ?_⟩
    rw [Graph.getElem?_values (hlt id (h.mem_ids_of_var hv)),
      Graph.valueOf_assigned_assignmentOf hg, hx v id (h.vars_iff.mp hv)]
  · rintro ⟨assignment, values, hvalues, hm⟩
    obtain ⟨-, rfl⟩ := Graph.simulate_eq_ok_iff.mp hvalues
    refine ⟨Graph.assigned assignment, fun v id hid => ?_⟩
    have hv := hm id v (h.vars_iff.mpr hid)
    rw [Graph.getElem?_values (hlt id (List.mem_of_getElem? hid))] at hv
    exact (Option.some.inj hv).symm

theorem exists_model (h : c.Represents g e ids) (x : Nat → Bool) :
    ∃ m, Satisfies m c.clauses ∧ ∀ i v, (i, v) ∈ c.inputs → m v = x i := by
  have hm (v id : Nat) (hid : ids[v]? = some id) :
      g.valueOf x (ids[v]?.getD 0) = g.valueOf x id := by rw [hid, Option.getD_some]
  refine ⟨fun v => g.valueOf x (ids[v]?.getD 0), (h.clauses_iff _).mpr ⟨x, hm⟩, fun i v hiv => ?_⟩
  obtain ⟨id, hid, hn⟩ := h.inputs_iff.mp hiv
  exact (hm v id hid).trans (Graph.valueOf_input hn)

/-- The values of the inputs determine a model. -/
theorem eq_valueOf (h : c.Represents g e ids) (hm : Satisfies m c.clauses)
    (hx : ∀ i v, (i, v) ∈ c.inputs → m v = x i) (hid : ids[v]? = some id) :
    m v = g.valueOf x id := by
  obtain ⟨y, hy⟩ := (h.clauses_iff m).mp hm
  rw [hy v id hid]
  refine h.depends (fun i w hiw => ?_) id (List.mem_of_getElem? hid)
  obtain ⟨k, hk, hn⟩ := h.inputs_iff.mp hiw
  rw [← hx i w hiw, hy w k hk, Graph.valueOf_input hn]

theorem model_unique (h : c.Represents g e ids) (hm : Satisfies m c.clauses)
    (hm' : Satisfies m' c.clauses) (hinputs : ∀ i v, (i, v) ∈ c.inputs → m v = m' v)
    (hv : v < c.numVars) : m v = m' v := by
  obtain ⟨x, hx⟩ := (h.clauses_iff m').mp hm'
  rw [h.numVars_eq] at hv
  have hid : ids[v]? = some ids[v] := List.getElem?_eq_getElem hv
  rw [hx v _ hid]
  refine h.eq_valueOf hm (fun i w hiw => ?_) hid
  obtain ⟨k, hk, hn⟩ := h.inputs_iff.mp hiw
  rw [hinputs i w hiw, hx w k hk, Graph.valueOf_input hn]

theorem eval_output (h : c.Represents g e ids) (hg : g.WellFormed)
    (hid : g.outputs[output]? = some id) (hn : g.nodes[id]? = some (.output output e)) :
    ∃ l, c.output? = some l ∧ ∀ m assignment, Satisfies m c.clauses →
      assignment.size = g.numInputs →
      (∀ i v, (i, v) ∈ c.inputs → assignment[i]? = some (m v)) →
      ∃ outputs, g.eval assignment = .ok outputs ∧ outputs[output]? = some (l.eval m) := by
  obtain ⟨v, hv, hdriver⟩ := h.driver_eq
  refine ⟨⟨v, !e.complemented⟩, by rw [output?, hdriver], fun m assignment hm hsize hx => ?_⟩
  refine ⟨_, (g.eval_eq assignment).trans (if_pos hsize), ?_⟩
  have hroot : m v = g.valueOf (Graph.assigned assignment) e.node :=
    h.eq_valueOf hm (fun i w hiw => by rw [Graph.assigned, hx i w hiw, Option.getD_some]) hv
  rw [Array.getElem?_map, hid, Option.map_some, Graph.valueOf_output hg hn, Graph.edgeValueOf,
    Literal.eval, hroot]
  cases g.valueOf (Graph.assigned assignment) e.node <;> cases e.complemented <;> rfl

end Represents

/-- An output that is not constant gets an encoding that captures its cone. -/
theorem ofOutput_captures (hg : g.Built) (houtput : output < g.numOutputs) :
    ∃ e, g.driver output = .ok e ∧ (e.isConstant = false →
      ∃ c, ofOutput g output = .ok c ∧ c.Captures g output e) := by
  have hwf := hg.wellFormed
  obtain ⟨id, e, hid, hn, hd⟩ := Graph.driver_eq_ok hwf houtput
  refine ⟨e, hd, fun he => ?_⟩
  have hdrives := hwf.drives_fanin hn (e := e) (by simp)
  obtain ⟨c, cone, hc, hcone, hspec, hrep, hinputs⟩ := ofOutput_eq_ok hwf hd hdrives he
  have hnodup : cone.nodes.Nodup := hspec.ascending.imp Nat.ne_of_lt
  have hsupport : g.support output = .ok (g.coneInputs cone) := by
    rw [Graph.support, hd, Except.ok_bind, hcone]
    rfl
  refine ⟨c, hc, {
    exists_var_iff := fun {k} => ?_
    exists_node_iff := fun {v} => ?_
    node_unique := fun hv hv' => ?_
    satisfies_iff := hrep.satisfies_iff_simulate hwf fun _ => hspec.lt_size hwf hdrives.lt_size
    exists_model := hrep.exists_model
    model_unique := fun hm hm' hinputs v => hrep.model_unique hm hm' hinputs
    eval_output := hrep.eval_output hwf hid hn
    inputs_ascending := List.pairwise_map.mpr hrep.inputs_ascending
    support_eq := hinputs ▸ hsupport
    mem_inputs_iff := fun {i v} => ?_
    varOfInput?_eq_some_iff := hrep.varOfInput?_eq_some_iff }⟩
  · rw [← hspec.mem_nodes_iff, List.mem_iff_getElem?]
    exact exists_congr fun v => hrep.vars_iff
  · rw [hrep.numVars_eq]
    refine ⟨?_, fun hv => ⟨_, hrep.vars_iff.mpr (List.getElem?_eq_getElem hv)⟩⟩
    rintro ⟨k, hv⟩
    exact (List.getElem?_eq_some_iff.mp (hrep.vars_iff.mp hv)).1
  · exact Option.some.inj ((hrep.vars_iff.mp hv).symm.trans (hrep.vars_iff.mp hv'))
  · rw [hrep.inputs_iff]
    exact exists_congr fun k => and_comm.trans (and_congr_right fun _ => hrep.vars_iff.symm)

end AndInverter.Clausal.Encoding

namespace AndInverter.Graph

/-- A gate with a constant fanin, one with both fanins on one node, two equal gates, and an output
whose cone leaves out the third input. -/
def redundant : Graph :=
  let g := ((Build.input (some "a")).run .empty).2
  let g := ((Build.input (some "b")).run g).2
  let g := ((Build.input (some "c")).run g).2
  let g := ((Build.gate ⟨0, true⟩ ⟨1, false⟩).run g).2
  let g := ((Build.gate ⟨4, false⟩ ⟨4, true⟩).run g).2
  let g := ((Build.gate ⟨2, false⟩ ⟨5, true⟩).run g).2
  let g := ((Build.gate ⟨2, false⟩ ⟨5, true⟩).run g).2
  let g := ((Build.gate ⟨6, true⟩ ⟨7, true⟩).run g).2
  ((Build.output ⟨8, true⟩ (some "y")).run g).2

theorem redundant_built : redundant.Built :=
  .output (.gate (.gate (.gate (.gate (.gate (.input (.input (.input .empty _) _) _) _ _) _ _) _ _)
    _ _) _ _) _ _

end AndInverter.Graph

namespace AndInverter.Clausal.Encoding

theorem ofOutput_captures_redundant : Graph.redundant.Built ∧ 0 < Graph.redundant.numOutputs ∧
    Graph.redundant.driver 0 = .ok ⟨8, true⟩ ∧ Edge.isConstant ⟨8, true⟩ = false ∧
    ∃ c, ofOutput Graph.redundant 0 = .ok c ∧ c.Captures Graph.redundant 0 ⟨8, true⟩ ∧
      c.inputs.map Prod.fst = [0, 1] ∧ c.varOfInput? 2 = none := by
  have hout : 0 < Graph.redundant.numOutputs := by decide
  obtain ⟨e, hd, h⟩ := ofOutput_captures Graph.redundant_built hout
  have hedge : Graph.redundant.driver 0 = .ok ⟨8, true⟩ := rfl
  rw [hedge] at hd
  cases hd
  obtain ⟨c, hc, hcaptures⟩ := h rfl
  have hsupport : Graph.redundant.support 0 = .ok [0, 1] := by decide +kernel
  have hinputs : c.inputs.map Prod.fst = [0, 1] :=
    Except.ok.inj (hcaptures.support_eq.symm.trans hsupport)
  refine ⟨Graph.redundant_built, hout, hedge, rfl, c, hc, hcaptures, hinputs, ?_⟩
  rw [Option.eq_none_iff_forall_ne_some]
  intro v hv
  have hmem := List.mem_map_of_mem (f := Prod.fst) (hcaptures.varOfInput?_eq_some_iff.mp hv)
  rw [hinputs] at hmem
  exact absurd (show 2 ∈ [0, 1] from hmem) (by decide)

end AndInverter.Clausal.Encoding
