import AndInverter.Proofs.Aiger.Acceptance
import AndInverter.Proofs.Graph.Cone
import AndInverter.Proofs.Graph.Simulation
import Mathlib

/-!
# What a read graph is

A graph that is read from a text has the inputs, the gates and the outputs of the one description
that the text spells, each gate with a node of its own. So it computes what the equations say,
whatever their order.
-/

namespace AndInverter

namespace Aiger

open AndInverter.Graph

def literalEdge (edge : Nat → Edge) (literal : Nat) : Edge :=
  (edge (variableOf literal)).complementIf (literal % 2 == 1)

def literalValue (value : Nat → Bool) (literal : Nat) : Bool :=
  value (variableOf literal) ^^ (literal % 2 == 1)

namespace Description

def nameOf (d : Description) (kind : Symbol.Kind) (i : Nat) : String :=
  (Symbol.lastName? d.symbols kind i).getD (kind.defaultName i)

/-- The graph has the inputs, the gates and the outputs of the description, where the variables have
the given edges. -/
structure Realizes (d : Description) (g : Graph) (edge : Nat → Edge) : Prop where
  numInputs_eq : g.numInputs = d.header.numInputs
  numOutputs_eq : g.numOutputs = d.header.numOutputs
  numGates_eq : g.numGates = d.header.numGates
  constant : edge 0 = .constant false
  input {i n : Nat} : d.inputs[i]? = some n →
    ∃ id, g.input i = .ok id ∧ g.node id = .ok (.input i) ∧ edge (variableOf n) = .plain id
  gate {q : Equation} : q ∈ d.gates → ∃ id, edge (variableOf q.head) = .plain id ∧
    g.node id = .ok (.gate (literalEdge edge q.left) (literalEdge edge q.right))
  gates_distinct : (d.gates.map fun q => edge (variableOf q.head)).Nodup
  output {j : Nat} {o : OutputLine} : d.outputs[j]? = some o →
    g.driver j = .ok (literalEdge edge o.literal)
  inputName {i : Nat} : i < d.header.numInputs → g.inputName i = .ok (d.nameOf .input i)
  outputName {j : Nat} : j < d.header.numOutputs → g.outputName j = .ok (d.nameOf .output j)

def outputValues (d : Description) (value : Nat → Bool) : Array Bool :=
  (d.outputs.map fun o => literalValue value o.literal).toArray

/-- The values of the variables are those of the constant, of the inputs and of the gates. -/
structure Solves (d : Description) (assignment : Array Bool) (value : Nat → Bool) : Prop where
  constant : value 0 = false
  input {i n : Nat} : d.inputs[i]? = some n → assignment[i]? = some (value (variableOf n))
  gate {q : Equation} : q ∈ d.gates →
    value (variableOf q.head) = (literalValue value q.left && literalValue value q.right)

end Description

theorem IsNumeral.unique {w : List Char} {m n : Nat} (hm : IsNumeral w m) (hn : IsNumeral w n) :
    m = n := by
  rw [← number?_eq_some_iff] at hm hn
  exact Option.some.inj (hm.symm.trans hn)

theorem rightUnique_isNumeral : Relator.RightUnique IsNumeral := fun _ _ _ => IsNumeral.unique

theorem rightUnique_holds : Relator.RightUnique Line.Holds := fun _ _ _ hm hn =>
  List.right_unique_forall₂' rightUnique_isNumeral hm hn

theorem rightUnique_names : Relator.RightUnique Line.Names := by
  intro l s t hs ht
  rw [← Symbol.ofLine_eq_ok_iff] at hs ht
  exact Except.ok.inj (hs.symm.trans ht)

theorem Header.counts_injective {h h' : Header} (heq : h.counts = h'.counts) : h = h' := by
  cases h
  cases h'
  simpa [counts] using heq

namespace Description

variable {d d' : Description} {text : String} {g : Graph} {edge : Nat → Edge}

/-- A text spells at most one description. -/
theorem Spelled.unique (hd : d.Spelled text) (hd' : d'.Spelled text) : d' = d := by
  obtain ⟨⟨first, is, os, gs, rest⟩, hlines, h⟩ := hd
  obtain ⟨⟨first', is', os', gs', rest'⟩, hlines', h'⟩ := hd'
  rw [hlines, Sections.lines, Sections.lines, List.cons.injEq] at hlines'
  obtain ⟨rfl, htail⟩ := hlines'
  have hheader : d'.header = d.header := by
    obtain ⟨ws, hws, hcounts⟩ := h.header
    obtain ⟨ws', hws', hcounts'⟩ := h'.header
    cases hws.symm.trans hws'
    exact Header.counts_injective
      (List.right_unique_forall₂' rightUnique_isNumeral hcounts' hcounts)
  -- The counts of the header say where each section ends.
  obtain ⟨rfl, htail⟩ := List.append_inj htail (by
    rw [h.inputs.length_eq, h'.inputs.length_eq, h.length_inputs, h'.length_inputs, hheader])
  obtain ⟨rfl, htail⟩ := List.append_inj htail (by
    rw [h.outputs.length_eq, h'.outputs.length_eq, h.length_outputs, h'.length_outputs, hheader])
  obtain ⟨rfl, rfl⟩ := List.append_inj htail (by
    rw [h.gates.length_eq, h'.gates.length_eq, h.length_gates, h'.length_gates, hheader])
  have hinputs : d'.inputs = d.inputs := by
    refine List.right_unique_forall₂' ?_ h'.inputs h.inputs
    intro l m n hm hn
    exact (List.cons.inj (rightUnique_holds hm hn)).1
  have houtputs : d'.outputs = d.outputs := by
    refine List.right_unique_forall₂' ?_ h'.outputs h.outputs
    rintro l ⟨m, a⟩ ⟨n, b⟩ ⟨rfl, ha⟩ ⟨rfl, hb⟩
    cases rightUnique_holds ha hb
    rfl
  have hgates : d'.gates = d.gates := by
    refine List.right_unique_forall₂' ?_ h'.gates h.gates
    rintro l ⟨m, a, b, c⟩ ⟨n, a', b', c'⟩ ⟨rfl, ha⟩ ⟨rfl, hb⟩
    cases rightUnique_holds ha hb
    rfl
  have hsymbols : d'.symbols = d.symbols :=
    List.right_unique_forall₂' rightUnique_names h'.symbols h.symbols
  exact Description.ext hheader hinputs houtputs hgates hsymbols

end Description

namespace Scope

variable {s : Scope} {d : Description} {text : String} {literal : Nat} {e : Edge}

def edgeOf (s : Scope) (v : Nat) : Edge := s.edges[v]?.getD (.constant false)

theorem edgeOf_eq {v : Nat} (h : s.edges[v]? = some e) : s.edgeOf v = e := by
  rw [edgeOf, h, Option.getD_some]

theorem literalEdge_edgeOf (h : s.edge? literal = some e) : literalEdge s.edgeOf literal = e := by
  obtain ⟨d, hd, rfl⟩ := edge?_eq_some_iff.mp h
  rw [literalEdge, edgeOf_eq hd]

theorem Covers.nodup_edges (hs : s.Covers d.inputs d.gates [] d.outputs) (hd : d.InRange) :
    (d.gates.map fun q => s.edgeOf (variableOf q.head)).Nodup := by
  have hinj : ∀ v ∈ d.gates.map fun q => variableOf q.head,
      ∀ w ∈ d.gates.map fun q => variableOf q.head, s.edgeOf v = s.edgeOf w → v = w := by
    intro v hv w hw heq
    obtain ⟨q, hq, rfl⟩ := List.mem_map.mp hv
    obtain ⟨r, hr, rfl⟩ := List.mem_map.mp hw
    obtain ⟨id, _, _, hq, -, -⟩ := hs.settles hq
    obtain ⟨id', _, _, hr, -, -⟩ := hs.settles hr
    rw [edgeOf_eq hq, edgeOf_eq hr] at heq
    exact hs.separates _ _ _ hq (heq ▸ hr)
  have hnodup := hd.heads_nodup.map_on hinj
  rwa [List.map_map] at hnodup

theorem Covers.names_eq (hs : s.Covers d.inputs d.gates [] d.outputs) (hspelled : d.Spelled text)
    {kind : Symbol.Kind} {i : Nat} (hi : i < d.count kind) :
    (Symbol.names (d.symbols.foldl Symbol.rename s.graph) kind)[i]? = some (d.nameOf kind i) := by
  have hdefault : (Symbol.names s.graph kind)[i]? = some (kind.defaultName i) := by
    cases kind with
    | input =>
      have hlt : i < d.inputs.length := hspelled.length_eq.1.symm ▸ hi
      simp [Symbol.names, hs.inputNames_eq, hlt]
    | output =>
      have hlt : i < d.outputs.length := hspelled.length_eq.2.1.symm ▸ hi
      simp [Symbol.names, hs.outputNames_eq, hlt]
  rw [Symbol.getElem?_names_foldl_rename, hdefault]
  rfl

/-- What is read realizes the description, whatever the names. -/
theorem Covers.realizes (hs : s.Covers d.inputs d.gates [] d.outputs) (hd : d.InRange)
    (hspelled : d.Spelled text) :
    d.Realizes (d.symbols.foldl Symbol.rename s.graph) s.edgeOf := by
  obtain ⟨hinputs, houtputs, hgates⟩ := hspelled.length_eq
  have hname (kind : Symbol.Kind) {i : Nat} (hi : i < d.count kind) := hs.names_eq hspelled hi
  obtain ⟨inputNames, outputNames, heq⟩ := Symbol.exists_foldl_rename_eq s.graph d.symbols
  rw [heq] at hname ⊢
  exact {
    numInputs_eq := hs.numInputs_eq.trans hinputs
    numOutputs_eq := hs.numOutputs_eq.trans houtputs
    numGates_eq := hs.numGates_eq.trans hgates
    constant := edgeOf_eq hs.constant
    input := fun {i n} hn => by
      obtain ⟨id, hid, he⟩ := hs.input hn
      have hnode := hs.wellFormed.graph.input_iff.mp hid
      exact ⟨id, by simp only [Graph.input, hid], by simp only [node, hnode], edgeOf_eq he⟩
    gate := fun {q} hq => by
      obtain ⟨id, a, b, hhead, hab, hn⟩ := hs.settles hq
      obtain ⟨ha, hb⟩ := operands?_eq_some_iff.mp hab
      refine ⟨id, edgeOf_eq hhead, ?_⟩
      rw [literalEdge_edgeOf ha, literalEdge_edgeOf hb]
      simp only [node, hn]
    gates_distinct := hs.nodup_edges hd
    output := fun {j o} ho => by
      obtain ⟨id, e, hid, hn, he⟩ := hs.output ho
      rw [literalEdge_edgeOf he]
      exact driver_of_outputs_eq hid hn
    inputName := fun {i} hi => by
      have h : inputNames[i]? = some _ := hname .input hi
      simp only [Graph.inputName, h]
    outputName := fun {j} hj => by
      have h : outputNames[j]? = some _ := hname .output hj
      simp only [Graph.outputName, h] }

end Scope

namespace Description.Realizes

variable {d : Description} {text : String} {g : Graph} {edge : Nat → Edge} {assignment : Array Bool}
  {value : Nat → Bool}

theorem edgeValueOf_literalEdge (g : Graph) (edge : Nat → Edge) (x : Nat → Bool) (literal : Nat) :
    g.edgeValueOf x (literalEdge edge literal) =
      literalValue (fun v => g.edgeValueOf x (edge v)) literal :=
  edgeValueOf_complementIf _

theorem literalValue_congr {value value' : Nat → Bool} {literal : Nat}
    (h : value (variableOf literal) = value' (variableOf literal)) :
    literalValue value literal = literalValue value' literal := by
  rw [literalValue, h, literalValue]

/-- The values of the edges solve the equations. -/
theorem solves (h : d.Realizes g edge) (hg : g.WellFormed) (hsize : assignment.size = g.numInputs) :
    d.Solves assignment fun v => g.edgeValueOf (assigned assignment) (edge v) where
  constant := by
    rw [h.constant, edgeValueOf_constant hg]
  input {i n} hn := by
    obtain ⟨id, -, hnode, he⟩ := h.input hn
    have hinput := node_eq_ok_iff.mp hnode
    have hlt : i < assignment.size := hsize.symm ▸ hg.index_lt_numInputs hinput
    rw [he, edgeValueOf_plain, valueOf_input hinput, assigned, Array.getElem?_eq_getElem hlt,
      Option.getD_some]
  gate {q} hq := by
    obtain ⟨id, he, hnode⟩ := h.gate hq
    rw [he, edgeValueOf_plain, valueOf_gate hg (node_eq_ok_iff.mp hnode),
      edgeValueOf_literalEdge, edgeValueOf_literalEdge]

/-- The equations have no other solution. The induction is on the nodes, and so does not depend on
the order of the gates in the text. -/
theorem edgeValueOf_eq (h : d.Realizes g edge) (hg : g.WellFormed) (hd : d.Valid)
    (hvalue : d.Solves assignment value) {v : Nat} (hv : d.Defines v) :
    g.edgeValueOf (assigned assignment) (edge v) = value v := by
  induction hm : (edge v).node using Nat.strongRecOn generalizing v with
  | ind m ih =>
    rcases hv with rfl | hinput | hhead
    · rw [h.constant, edgeValueOf_constant hg, hvalue.constant]
    · obtain ⟨n, hn, rfl⟩ := List.mem_map.mp hinput
      obtain ⟨i, hi⟩ := List.getElem?_of_mem hn
      obtain ⟨id, -, hnode, he⟩ := h.input hi
      rw [he, edgeValueOf_plain, valueOf_input (node_eq_ok_iff.mp hnode), assigned,
        hvalue.input hi, Option.getD_some]
    · obtain ⟨q, hq, rfl⟩ := List.mem_map.mp hhead
      obtain ⟨id, he, hnode⟩ := h.gate hq
      have hn := node_eq_ok_iff.mp hnode
      have hid : id = m := by
        rw [← hm, he]
        rfl
      have hoperand {literal : Nat} (hdef : d.Defines (variableOf literal))
          (hmem : literalEdge edge literal ∈
            (Node.gate (literalEdge edge q.left) (literalEdge edge q.right)).fanins) :
          g.edgeValueOf (assigned assignment) (literalEdge edge literal) =
            literalValue value literal := by
        have hlt : (literalEdge edge literal).node < m := hid ▸ hg.fanin_lt hn hmem
        rw [edgeValueOf_literalEdge]
        exact literalValue_congr (ih _ hlt hdef rfl)
      obtain ⟨hleft, hright⟩ := hd.operands_defined q hq
      rw [he, edgeValueOf_plain, valueOf_gate hg hn, hvalue.gate hq, hoperand hleft (by simp),
        hoperand hright (by simp)]

theorem eval_eq (h : d.Realizes g edge) (hg : g.WellFormed) (hd : d.Valid)
    (hspelled : d.Spelled text) (hsize : assignment.size = g.numInputs)
    (hvalue : d.Solves assignment value) : g.eval assignment =
      .ok (d.outputValues value) := by
  rw [Graph.eval_eq, if_pos hsize, outputValues]
  have hlen : d.outputs.length = g.outputs.size := hspelled.length_eq.2.1.trans h.numOutputs_eq.symm
  refine congrArg Except.ok (Array.ext (by simp [hlen]) fun j hj _ => ?_)
  rw [Array.size_map] at hj
  have hlt : j < d.outputs.length := hlen.symm ▸ hj
  obtain ⟨id, e, hid, hn, hdriver⟩ := driver_eq_ok hg hj
  have hj' : d.outputs[j]? = some d.outputs[j] := List.getElem?_eq_getElem hlt
  have he := Except.ok.inj (hdriver.symm.trans (h.output hj'))
  have hdef := hd.outputs_defined _ (List.getElem_mem hlt)
  simp only [Array.getElem_map, List.getElem_toArray, List.getElem_map,
    (Array.getElem?_eq_some_iff.mp hid).2]
  rw [valueOf_output hg hn, he, edgeValueOf_literalEdge]
  exact literalValue_congr (h.edgeValueOf_eq hg hd hvalue hdef)

end Description.Realizes

/-- A graph that is read from a text realizes the one description that the text spells. For every
assignment of its inputs there are values that solve the equations, and its outputs have the values
of the literals in every solution. -/
theorem ofAiger_realizes {text : String} {g : Graph} (h : Graph.ofAiger text = .ok g) :
    ∃ d : Description, d.Spelled text ∧ (∀ d' : Description, d'.Spelled text → d' = d) ∧
      (∃ edge, d.Realizes g edge) ∧ ∀ assignment, assignment.size = g.numInputs →
        (∃ value, d.Solves assignment value) ∧ ∀ value, d.Solves assignment value →
          g.eval assignment = .ok (d.outputValues value) := by
  have hg := ofAiger_wellFormed h
  obtain ⟨d, hspelled, hrange, s, s', hsolve, hout, hpos, rfl⟩ := ofAiger_eq_ok_iff.mp h
  have hs := hrange.covers_result hsolve hout
  have hd := hrange.valid hspelled hs hpos
  have hrealizes := hs.realizes hrange hspelled
  refine ⟨d, hspelled, fun d' hd' => hspelled.unique hd', ⟨_, hrealizes⟩, ?_⟩
  intro assignment hsize
  exact ⟨⟨_, hrealizes.solves hg hsize⟩,
    fun value hvalue => hrealizes.eval_eq hg hd hspelled hsize hvalue⟩

/-- Two gates in the wrong order, variables that are skipped, a constant output, an input that is
named twice, and a comment that looks like a name. -/
def outOfOrder : String :=
  "aag 7 2 0 2 2\n2\n4\n15\n1\n14 10 3\n10 2 4\ni0 a\ni0 b\no1 t\nc\no0 x\n"

theorem ofAiger_realizes_outOfOrder : ∃ g, Graph.ofAiger outOfOrder = .ok g ∧
    ∃ d : Description, d.Spelled outOfOrder ∧ (∀ d' : Description, d'.Spelled outOfOrder → d' = d) ∧
      (∃ edge, d.Realizes g edge) ∧ ∀ assignment, assignment.size = g.numInputs →
        (∃ value, d.Solves assignment value) ∧ ∀ value, d.Solves assignment value →
          g.eval assignment = .ok (d.outputValues value) := by
  have hok : (Graph.ofAiger outOfOrder).isOk = true := by cbv
  cases h : Graph.ofAiger outOfOrder with
  | ok g => exact ⟨g, rfl, ofAiger_realizes h⟩
  | error e =>
    rw [h] at hok
    cases hok

end Aiger

end AndInverter
