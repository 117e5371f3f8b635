import AndInverter.Proofs.Aiger.Description
import AndInverter.Proofs.Graph.Growth
import Mathlib.Data.List.Nodup

/-!
# Covering a description

One invariant goes through the reading of a description: the scope covers the inputs so far, the
gates apart from those still to do, and the outputs so far. Whatever it covers stays covered when
something is added.
-/

namespace AndInverter.Aiger

open AndInverter.Graph

namespace Scope

variable {s s' : Scope} {a b e : Edge} {v w literal : Nat} {q : Equation} {n : Node} {g : Graph}

structure Extends (s s' : Scope) : Prop where
  graph : s.graph.Extends s'.graph
  edges {v : Nat} {e : Edge} : s.edges[v]? = some e → s'.edges[v]? = some e

theorem edge?_eq_some_iff : s.edge? literal = some e ↔
    ∃ d, s.edges[variableOf literal]? = some d ∧ d.complementIf (literal % 2 == 1) = e :=
  Option.map_eq_some_iff

theorem exists_edge?_iff : (∃ e, s.edge? literal = some e) ↔ variableOf literal ∈ s.edges := by
  rw [edge?, ← Option.isSome_iff_exists, Option.isSome_map, Std.HashMap.isSome_getElem?_iff_mem]

theorem Extends.edge? (h : s.Extends s') (he : s.edge? literal = some e) :
    s'.edge? literal = some e := by
  obtain ⟨d, hd, rfl⟩ := edge?_eq_some_iff.mp he
  exact edge?_eq_some_iff.mpr ⟨d, h.edges hd, rfl⟩

theorem extends_insert (hn : g.nodes = s.graph.nodes.push n) (hv : v ∉ s.edges) :
    s.Extends ⟨g, s.edges.insert v e⟩ where
  graph := extends_of_push hn
  edges {w d} hd := by
    have hne : v ≠ w := by
      rintro rfl
      exact hv (Std.HashMap.mem_iff_isSome_getElem?.mpr (by rw [hd]; rfl))
    simp [Std.HashMap.getElem?_insert, hne, hd]

def Separates (s : Scope) : Prop :=
  ∀ (v w : Nat) (e : Edge), s.edges[v]? = some e → s.edges[w]? = some e → v = w

theorem Separates.insert (h : s.Separates) (hs : s.WellFormed) :
    Separates ⟨g, s.edges.insert v (Edge.plain s.graph.size)⟩ := by
  have hnew : ∀ w, s.edges[w]? ≠ some (Edge.plain s.graph.size) := fun w hw =>
    Nat.lt_irrefl _ (hs.drives hw).lt_size
  intro w w' e hw hw'
  simp only [Std.HashMap.getElem?_insert, beq_iff_eq] at hw hw'
  split at hw
  · rename_i hvw
    cases hw
    split at hw'
    · rename_i hvw'
      exact hvw.symm.trans hvw'
    · exact absurd hw' (hnew w')
  · split at hw'
    · cases hw'
      exact absurd hw (hnew w)
    · exact h w w' e hw hw'

theorem operands?_eq_some_iff : s.operands? q = some (a, b) ↔
    s.edge? q.left = some a ∧ s.edge? q.right = some b := by
  simp [operands?, Option.bind_eq_some_iff]

theorem exists_not_mem_of_operands?_eq_none (h : s.operands? q = none) :
    ∃ v, (variableOf q.left = v ∨ variableOf q.right = v) ∧ v ∉ s.edges := by
  by_cases hleft : variableOf q.left ∈ s.edges
  · refine ⟨_, .inr rfl, fun hright => ?_⟩
    obtain ⟨a, ha⟩ := exists_edge?_iff.mpr hleft
    obtain ⟨b, hb⟩ := exists_edge?_iff.mpr hright
    rw [operands?_eq_some_iff.mpr ⟨ha, hb⟩] at h
    cases h
  · exact ⟨_, .inl rfl, hleft⟩

def Settles (s : Scope) (q : Equation) : Prop :=
  ∃ id a b, s.edges[variableOf q.head]? = some (.plain id) ∧ s.operands? q = some (a, b) ∧
    s.graph.nodes[id]? = some (.gate a b)

theorem Settles.extend (h : s.Settles q) (hs : s.Extends s') : s'.Settles q := by
  obtain ⟨id, a, b, hhead, hab, hn⟩ := h
  obtain ⟨ha, hb⟩ := operands?_eq_some_iff.mp hab
  exact ⟨id, a, b, hs.edges hhead, operands?_eq_some_iff.mpr ⟨hs.edge? ha, hs.edge? hb⟩,
    hs.graph _ _ hn⟩

end Scope

def Symbol.Kind.defaultName : Symbol.Kind → Nat → String
  | input, i => s!"pi{i}"
  | output, i => s!"po{i}"

theorem getElem?_append_singleton_iff {α : Type} {l : List α} {x y : α} {i : Nat} :
    (l ++ [x])[i]? = some y ↔ i = l.length ∧ x = y ∨ l[i]? = some y := by
  simpa using (getElem?_push_iff : (l.toArray.push x)[i]? = some y ↔ _)

namespace Scope

variable {s s' : Scope} {inputs : List Nat} {gates skipped todo : List Equation}
  {outputs : List OutputLine} {a b e : Edge} {n : Nat} {q : Equation}

/-- The scope has the inputs and the outputs, and the gates apart from those still to do. -/
structure Covers (s : Scope) (inputs : List Nat) (gates todo : List Equation)
    (outputs : List OutputLine) : Prop where
  wellFormed : s.WellFormed
  separates : s.Separates
  mem_iff {v : Nat} : v ∈ s.edges ↔ v = 0 ∨ v ∈ inputs.map variableOf ∨
    v ∈ (gates.map fun q => variableOf q.head) ∧ v ∉ todo.map fun q => variableOf q.head
  constant : s.edges[0]? = some (.constant false)
  numInputs_eq : s.graph.numInputs = inputs.length
  input {i n : Nat} : inputs[i]? = some n →
    ∃ id, s.graph.inputs[i]? = some id ∧ s.edges[variableOf n]? = some (.plain id)
  inputNames_eq :
    s.graph.inputNames = ((List.range inputs.length).map Symbol.Kind.input.defaultName).toArray
  sublist : todo.Sublist gates
  numGates_eq : s.graph.numGates + todo.length = gates.length
  gate {q : Equation} : q ∈ gates → q ∈ todo ∨ s.Settles q
  numOutputs_eq : s.graph.numOutputs = outputs.length
  output {j : Nat} {o : OutputLine} : outputs[j]? = some o → ∃ id e,
    s.graph.outputs[j]? = some id ∧ s.graph.nodes[id]? = some (.output j e) ∧
    s.edge? o.literal = some e
  outputNames_eq :
    s.graph.outputNames = ((List.range outputs.length).map Symbol.Kind.output.defaultName).toArray

theorem covers_initial : initial.Covers [] [] [] [] where
  wellFormed := initial_wellFormed
  separates v w e hv hw := by
    simp only [initial, Std.HashMap.getElem?_insert, beq_iff_eq] at hv hw
    split at hv
    · split at hw
      · omega
      · simp at hw
    · simp at hv
  mem_iff {v} := by simp [initial, eq_comm (a := v)]
  constant := by simp [initial]
  numInputs_eq := rfl
  input h := by simp at h
  inputNames_eq := rfl
  sublist := .slnil
  numGates_eq := by simp [initial, numGates, empty, Node.isGate]
  gate h := by simp at h
  numOutputs_eq := rfl
  output h := by simp at h
  outputNames_eq := rfl

namespace Covers

theorem addInput (h : s.Covers inputs gates todo outputs) (hn : variableOf n ∉ s.edges) :
    (s.addInput (variableOf n)).Covers (inputs ++ [n]) gates todo outputs := by
  have hext : s.Extends (s.addInput (variableOf n)) :=
    extends_insert (n := .input s.graph.numInputs) rfl hn
  exact {
    wellFormed := h.wellFormed.addInput _
    separates := h.separates.insert h.wellFormed
    mem_iff := fun {v} => by
      simp only [Scope.addInput, withInput, Std.HashMap.mem_insert, h.mem_iff, List.map_append,
        List.mem_append, beq_iff_eq, List.map_singleton, List.mem_singleton, eq_comm (a := v)]
      tauto
    constant := hext.edges h.constant
    numInputs_eq := by
      simpa [Scope.addInput, withInput, numInputs] using h.numInputs_eq
    input := fun {i m} hm => by
      rcases getElem?_append_singleton_iff.mp hm with ⟨rfl, rfl⟩ | hm
      · refine ⟨s.graph.size, ?_, ?_⟩
        · simp [Scope.addInput, withInput, ← h.numInputs_eq, numInputs]
        · simp [Scope.addInput, withInput]
      · obtain ⟨id, hid, he⟩ := h.input hm
        exact ⟨id, getElem?_push_iff.mpr (.inr hid), hext.edges he⟩
    inputNames_eq := by
      change s.graph.inputNames.push (Symbol.Kind.input.defaultName s.graph.numInputs) = _
      simp [h.inputNames_eq, h.numInputs_eq, List.range_succ]
    sublist := h.sublist
    numGates_eq := by
      have hcount : (s.addInput (variableOf n)).graph.numGates = s.graph.numGates := by
        simp [Scope.addInput, withInput, numGates, Node.isGate]
      rw [hcount, h.numGates_eq]
    gate := fun hq => (h.gate hq).imp_right (·.extend hext)
    numOutputs_eq := h.numOutputs_eq
    output := fun ho => by
      obtain ⟨id, e, hid, hn, he⟩ := h.output ho
      exact ⟨id, e, hid, hext.graph _ _ hn, hext.edge? he⟩
    outputNames_eq := h.outputNames_eq }

theorem addGate (h : s.Covers inputs gates (skipped ++ q :: todo) outputs)
    (hfresh : variableOf q.head ∉ s.edges)
    (hnodup : (gates.map fun q => variableOf q.head).Nodup) (hab : s.operands? q = some (a, b)) :
    (s.addGate q.head a b).Covers inputs gates (skipped ++ todo) outputs := by
  obtain ⟨ha, hb⟩ := operands?_eq_some_iff.mp hab
  have hext : s.Extends (s.addGate q.head a b) :=
    extends_insert (n := .gate a b) rfl hfresh
  have hsettles : (s.addGate q.head a b).Settles q :=
    ⟨s.graph.size, a, b, by simp [Scope.addGate, withGate, Graph.size],
      operands?_eq_some_iff.mpr ⟨hext.edge? ha, hext.edge? hb⟩,
      by simp [Scope.addGate, withGate, push, Graph.size]⟩
  exact {
    wellFormed := h.wellFormed.addGate _ (h.wellFormed.edge? ha) (h.wellFormed.edge? hb)
    separates := h.separates.insert h.wellFormed
    mem_iff := fun {v} => by
      have hq : variableOf q.head ∈ gates.map fun q => variableOf q.head :=
        List.mem_map_of_mem (h.sublist.subset (by simp))
      have hall := (h.sublist.map fun q => variableOf q.head).nodup hnodup
      rw [List.map_append, List.map_cons, List.nodup_middle, List.nodup_cons,
        ← List.map_append] at hall
      simp only [Scope.addGate, withGate, Std.HashMap.mem_insert, h.mem_iff, beq_iff_eq]
      by_cases hv : variableOf q.head = v
      · subst hv
        exact iff_of_true (.inl rfl) (.inr (.inr ⟨hq, hall.1⟩))
      · simp [hv, eq_comm (a := v)]
    constant := hext.edges h.constant
    numInputs_eq := h.numInputs_eq
    input := fun hn => by
      obtain ⟨id, hid, he⟩ := h.input hn
      exact ⟨id, hid, hext.edges he⟩
    inputNames_eq := h.inputNames_eq
    sublist := ((List.sublist_cons_self q todo).append_left skipped).trans h.sublist
    numGates_eq := by
      have hcount : (s.addGate q.head a b).graph.numGates = s.graph.numGates + 1 :=
        Array.countP_push_of_pos rfl
      have hold := h.numGates_eq
      simp only [List.length_append, List.length_cons] at hold ⊢
      omega
    gate := fun {r} hr => by
      rcases h.gate hr with hmem | hold
      · rw [List.mem_append, List.mem_cons] at hmem
        rcases hmem with hmem | rfl | hmem
        · exact .inl (List.mem_append_left _ hmem)
        · exact .inr hsettles
        · exact .inl (List.mem_append_right _ hmem)
      · exact .inr (hold.extend hext)
    numOutputs_eq := h.numOutputs_eq
    output := fun ho => by
      obtain ⟨id, e, hid, hn, he⟩ := h.output ho
      exact ⟨id, e, hid, hext.graph _ _ hn, hext.edge? he⟩
    outputNames_eq := h.outputNames_eq }

theorem addOutput {o : OutputLine} (h : s.Covers inputs gates todo outputs)
    (he : s.edge? o.literal = some e) :
    (s.addOutput e).Covers inputs gates todo (outputs ++ [o]) := by
  have hext : s.Extends (s.addOutput e) :=
    ⟨extends_of_push (m := .output s.graph.numOutputs e) rfl, id⟩
  exact {
    wellFormed := h.wellFormed.addOutput (h.wellFormed.edge? he)
    separates := h.separates
    mem_iff := h.mem_iff
    constant := h.constant
    numInputs_eq := h.numInputs_eq
    input := h.input
    inputNames_eq := h.inputNames_eq
    sublist := h.sublist
    numGates_eq := by
      have hcount : (s.addOutput e).graph.numGates = s.graph.numGates := by
        simp [Scope.addOutput, withOutput, numGates, Node.isGate]
      rw [hcount, h.numGates_eq]
    gate := fun hq => (h.gate hq).imp_right (·.extend hext)
    numOutputs_eq := by
      simpa [Scope.addOutput, withOutput, numOutputs] using h.numOutputs_eq
    output := fun {j p} hp => by
      rcases getElem?_append_singleton_iff.mp hp with ⟨rfl, rfl⟩ | hp
      · refine ⟨s.graph.size, e, ?_, ?_, he⟩
        · simp [Scope.addOutput, withOutput, ← h.numOutputs_eq, numOutputs]
        · simp [Scope.addOutput, withOutput, ← h.numOutputs_eq, Graph.size]
      · obtain ⟨id, d, hid, hn, hd⟩ := h.output hp
        exact ⟨id, d, getElem?_push_iff.mpr (.inr hid), hext.graph _ _ hn, hd⟩
    outputNames_eq := by
      change s.graph.outputNames.push (Symbol.Kind.output.defaultName s.graph.numOutputs) = _
      simp [h.outputNames_eq, h.numOutputs_eq, List.range_succ] }

/-- Before the first gate is added, all gates are still to do. -/
theorem begin (h : s.Covers inputs [] [] outputs) (gates : List Equation) :
    s.Covers inputs gates gates outputs where
  wellFormed := h.wellFormed
  separates := h.separates
  mem_iff := by
    simp only [h.mem_iff, and_not_self_iff, implies_true]
  constant := h.constant
  numInputs_eq := h.numInputs_eq
  input := h.input
  inputNames_eq := h.inputNames_eq
  sublist := .refl gates
  numGates_eq := by
    rw [show s.graph.numGates = 0 from h.numGates_eq, Nat.zero_add]
  gate hq := .inl hq
  numOutputs_eq := h.numOutputs_eq
  output := h.output
  outputNames_eq := h.outputNames_eq

end Covers

end Scope

end AndInverter.Aiger
