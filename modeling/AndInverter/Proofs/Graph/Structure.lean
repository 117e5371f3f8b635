import AndInverter.Proofs.Graph.Building
import Mathlib.Data.List.Sort

/-!
# The structure of graphs that are built

Ascending numbers are a topological order of every graph that can be built, the lists of inputs and
outputs are the nodes of their kind in this order, and the hash table tells the truth. A denied
operation may leave nodes behind, and these are in order as well.
-/

namespace AndInverter

namespace Graph

variable {g : Graph}

/-- Ascending numbers of all nodes of a kind are the nodes of that kind in order. -/
theorem toList_eq_filter_range {ids : Array Nat} {p : Node → Bool}
    (hasc : ids.toList.Pairwise (· < ·))
    (hmem : ∀ id, (∃ i : Nat, ids[i]? = some id) ↔ ∃ n, g.nodes[id]? = some n ∧ p n = true) :
    ids.toList = (List.range g.size).filter fun id => g.nodes[id]?.any p := by
  refine hasc.eq_of_mem_iff (List.pairwise_lt_range.filter _) fun id => ?_
  rw [List.mem_filter, List.mem_range, Option.any_eq_true, List.mem_iff_getElem?]
  simp only [Array.getElem?_toList, hmem]
  exact ⟨fun ⟨n, hn, hp⟩ => ⟨lt_size_of_nodes_eq hn, n, hn, hp⟩, And.right⟩

theorem WellFormed.inputs_eq_filter (hg : g.WellFormed) :
    g.inputs.toList = (List.range g.size).filter fun id => g.nodes[id]?.any Node.isInput := by
  refine toList_eq_filter_range hg.inputs_ascending fun id => ?_
  constructor
  · rintro ⟨i, hi⟩
    exact ⟨.input i, hg.input_iff.mp hi, rfl⟩
  · rintro ⟨n, hn, hp⟩
    cases n with
    | input i => exact ⟨i, hg.input_iff.mpr hn⟩
    | constant => cases hp
    | gate a b => cases hp
    | output i e => cases hp

theorem WellFormed.outputs_eq_filter (hg : g.WellFormed) :
    g.outputs.toList = (List.range g.size).filter fun id => g.nodes[id]?.any Node.isOutput := by
  refine toList_eq_filter_range hg.outputs_ascending fun id => ?_
  constructor
  · rintro ⟨i, hi⟩
    obtain ⟨e, he⟩ := hg.output_iff.mp hi
    exact ⟨.output i e, he, rfl⟩
  · rintro ⟨n, hn, hp⟩
    cases n with
    | output i e => exact ⟨i, hg.output_iff.mpr ⟨e, hn⟩⟩
    | constant => cases hp
    | input i => cases hp
    | gate a b => cases hp

/-- Two different nodes, neither the constant. -/
theorem properPair_eq_true {a b : Edge} :
    properPair (a, b) = true ↔ a.node ≠ 0 ∧ b.node ≠ 0 ∧ a.node ≠ b.node := by
  simp [properPair, Edge.isConstant, and_assoc]

/-- What holds of every graph that can be built: the first node is the only constant, fanins come
first and are no outputs, inputs and outputs are listed in order and know their places, they have a
name each, and a hashed pair leads to the gate on it, which is sorted and not trivial. -/
theorem Built.keeps_structure (hg : g.Built) :
    (∀ id : Nat, g.nodes[id]? = some .constant ↔ id = 0) ∧
    (∀ (id : Nat) (n : Node), g.nodes[id]? = some n → ∀ e ∈ n.fanins,
      e.node < id ∧ ∃ m, g.nodes[e.node]? = some m ∧ m.isOutput = false) ∧
    (g.inputs.toList = (List.range g.size).filter (fun id => g.nodes[id]?.any Node.isInput) ∧
      ∀ i id : Nat, g.inputs[i]? = some id → g.nodes[id]? = some (.input i)) ∧
    (g.outputs.toList = (List.range g.size).filter (fun id => g.nodes[id]?.any Node.isOutput) ∧
      ∀ i id : Nat, g.outputs[i]? = some id → ∃ e, g.nodes[id]? = some (.output i e)) ∧
    (g.inputNames.size = g.inputs.size ∧ g.outputNames.size = g.outputs.size) ∧
    ∀ (a b : Edge) (id : Nat), g.hashed[(a, b)]? = some id → g.nodes[id]? = some (.gate a b) ∧
      a.literal < b.literal ∧ a.node ≠ 0 ∧ b.node ≠ 0 ∧ a.node ≠ b.node := by
  have hg := hg.wellFormed
  refine ⟨fun id => hg.constant_iff, fun id n hn e he => ⟨hg.fanin_lt hn he, hg.drives_fanin hn he⟩,
    ⟨hg.inputs_eq_filter, fun i id => hg.input_iff.mp⟩,
    ⟨hg.outputs_eq_filter, fun i id => hg.output_iff.mp⟩,
    ⟨hg.size_inputNames, hg.size_outputNames⟩, fun a b id h => ?_⟩
  obtain ⟨hnode, hlt, hproper⟩ := hg.hashed_gate h
  exact ⟨hnode, hlt, properPair_eq_true.mp hproper⟩

end Graph

namespace Build

/-- A pair that is neither trivial nor hashed is checked, gets a gate, and is hashed. -/
theorem run_and_of_unhashed {g : Graph} {a b : Edge}
    (ht : trivial? (Edge.sorted a b).1 (Edge.sorted a b).2 = none)
    (hh : g.hashed[Edge.sorted a b]? = none) :
    (and a b).run g = (do
      let e ← gate (Edge.sorted a b).1 (Edge.sorted a b).2
      modify fun g => { g with hashed := g.hashed.insert (Edge.sorted a b) e.node }
      return e : Build Edge).run g := by
  simp only [and, ht]
  refine (run_bind_of_ok (?_ : (get : Build Graph).run g = (.ok g, g))).trans ?_
  · rfl
  · simp only [hh]

end Build

namespace Graph

def twoInputs : Graph := ((Build.input (some "b")).run ((Build.input (some "a")).run .empty).2).2

def conjoined : Graph :=
  { twoInputs.push (.gate ⟨1, false⟩ ⟨2, false⟩) with
    hashed := twoInputs.hashed.insert (⟨1, false⟩, ⟨2, false⟩) 3 }

/-- A choice by the first input whose second branch is missing leaves the gate of its first branch
behind. -/
theorem run_mux_twoInputs :
    (Build.mux ⟨1, false⟩ ⟨2, false⟩ ⟨9, false⟩).run twoInputs =
      (.error (.missingFanin ⟨9, false⟩), conjoined) := by
  have hfirst : (Build.and ⟨1, false⟩ ⟨2, false⟩).run twoInputs =
      (.ok ⟨3, false⟩, conjoined) := by
    refine (Build.run_and_of_unhashed rfl ?_).trans rfl
    exact Std.HashMap.getElem?_empty
  have hsecond : (Build.and (Edge.complement ⟨1, false⟩) ⟨9, false⟩).run conjoined =
      (.error (.missingFanin ⟨9, false⟩), conjoined) := by
    refine (Build.run_and_of_unhashed rfl ?_).trans rfl
    rw [conjoined, Std.HashMap.getElem?_insert, if_neg (by decide)]
    exact Std.HashMap.getElem?_empty
  rw [Build.mux, run_bind_of_ok hfirst, run_bind_of_error hsecond]

theorem conjoined_built : conjoined.Built := by
  have h : ((Build.mux ⟨1, false⟩ ⟨2, false⟩ ⟨9, false⟩).run twoInputs).2.Built :=
    .mux (.input (.input .empty _) _) _ _ _
  rwa [run_mux_twoInputs] at h

theorem Built.keeps_structure_conjoined :
    conjoined.Built ∧ conjoined.hashed[((⟨1, false⟩, ⟨2, false⟩) : Edge × Edge)]? = some 3 ∧
      conjoined.nodes[3]? = some (.gate ⟨1, false⟩ ⟨2, false⟩) ∧
      conjoined.inputs.toList =
        (List.range 4).filter (fun id => conjoined.nodes[id]?.any Node.isInput) := by
  have hhashed : conjoined.hashed[((⟨1, false⟩, ⟨2, false⟩) : Edge × Edge)]? = some 3 :=
    Std.HashMap.getElem?_insert_self
  obtain ⟨-, -, ⟨hinputs, -⟩, -, -, hgate⟩ := Built.keeps_structure conjoined_built
  exact ⟨conjoined_built, hhashed, (hgate _ _ _ hhashed).1, hinputs⟩

end Graph

end AndInverter
