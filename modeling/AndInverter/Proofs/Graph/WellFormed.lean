import AndInverter.Graph.Hashing

/-!
# Well-formed graphs

What holds of every graph that has been built node by node: fanins come first and are no outputs,
the lists of inputs and outputs agree with the nodes, and the hash table knows only gates. Adding a
node whose fanins exist keeps all of it.
-/

namespace AndInverter

@[simp] theorem Node.mem_fanins_gate {a b e : Edge} :
    e ∈ (Node.gate a b).fanins ↔ e = a ∨ e = b := by
  simp [fanins]

@[simp] theorem Node.mem_fanins_output {i : Nat} {d e : Edge} :
    e ∈ (Node.output i d).fanins ↔ e = d := by
  simp [fanins]

namespace Graph

/-- An edge that a new node may have as a fanin. -/
def Drives (g : Graph) (e : Edge) : Prop := ∃ n, g.nodes[e.node]? = some n ∧ n.isOutput = false

structure WellFormed (g : Graph) : Prop where
  constant_iff {id : Nat} : g.nodes[id]? = some .constant ↔ id = 0
  fanin_lt {id : Nat} {n : Node} {e : Edge} : g.nodes[id]? = some n → e ∈ n.fanins → e.node < id
  drives_fanin {id : Nat} {n : Node} {e : Edge} :
    g.nodes[id]? = some n → e ∈ n.fanins → g.Drives e
  input_iff {i id : Nat} : g.inputs[i]? = some id ↔ g.nodes[id]? = some (.input i)
  output_iff {i id : Nat} : g.outputs[i]? = some id ↔ ∃ e, g.nodes[id]? = some (.output i e)
  inputs_ascending : g.inputs.toList.Pairwise (· < ·)
  outputs_ascending : g.outputs.toList.Pairwise (· < ·)
  size_inputNames : g.inputNames.size = g.inputs.size
  size_outputNames : g.outputNames.size = g.outputs.size
  hashed_gate {a b : Edge} {id : Nat} : g.hashed[(a, b)]? = some id →
    g.nodes[id]? = some (.gate a b) ∧ a.literal < b.literal ∧ properPair (a, b) = true

variable {g : Graph} {a b e : Edge} {n : Node} {id i : Nat}

theorem lt_size_of_nodes_eq (h : g.nodes[id]? = some n) : id < g.nodes.size :=
  (Array.getElem?_eq_some_iff.mp h).1

theorem mem_gates : id ∈ g.gates ↔ ∃ a b, g.nodes[id]? = some (.gate a b) := by
  rw [gates, List.mem_filter, List.mem_range]
  constructor
  · rintro ⟨-, h⟩
    obtain ⟨n, hn, hgate⟩ := Option.any_eq_true .. |>.mp h
    cases n with
    | gate a b => exact ⟨a, b, hn⟩
    | constant | input | output => cases hgate
  · rintro ⟨a, b, h⟩
    exact ⟨lt_size_of_nodes_eq h, by rw [h]; rfl⟩

theorem Drives.lt_size (h : g.Drives e) : e.node < g.nodes.size := by
  obtain ⟨n, hn, _⟩ := h
  exact lt_size_of_nodes_eq hn

theorem getElem?_push_iff {α : Type} {xs : Array α} {x y : α} {i : Nat} :
    (xs.push x)[i]? = some y ↔ i = xs.size ∧ x = y ∨ xs[i]? = some y := by
  rw [Array.getElem?_push]
  split
  · rename_i hi
    simp [hi]
  · rename_i hi
    simp [hi]

theorem nodes_push_of_eq (h : g.nodes[id]? = some n) (m : Node) :
    (g.nodes.push m)[id]? = some n :=
  getElem?_push_iff.mpr (.inr h)

theorem Drives.push (h : g.Drives e) {g' : Graph} {m : Node} (hg : g'.nodes = g.nodes.push m) :
    g'.Drives e := by
  obtain ⟨n, hn, hout⟩ := h
  exact ⟨n, by rw [hg]; exact nodes_push_of_eq hn m, hout⟩

theorem drives_constant (hg : g.WellFormed) (b : Bool) : g.Drives (.constant b) :=
  ⟨.constant, hg.constant_iff.mpr rfl, rfl⟩

theorem drives_complementIf {c : Bool} : g.Drives (e.complementIf c) ↔ g.Drives e := Iff.rfl

theorem empty_wellFormed : empty.WellFormed where
  constant_iff {id} := by
    rcases id with _ | id <;> simp [empty]
  fanin_lt {id n e} h he := by
    rcases id with _ | id <;> simp [empty] at h
    subst h
    cases he
  drives_fanin {id n e} h he := by
    rcases id with _ | id <;> simp [empty] at h
    subst h
    cases he
  input_iff {i id} := by
    rcases id with _ | id <;> simp [empty]
  output_iff {i id} := by
    rcases id with _ | id <;> simp [empty]
  inputs_ascending := .nil
  outputs_ascending := .nil
  size_inputNames := rfl
  size_outputNames := rfl
  hashed_gate h := by simp [empty] at h

namespace WellFormed

theorem input_lt (hg : g.WellFormed) (h : g.inputs[i]? = some id) : id < g.nodes.size :=
  lt_size_of_nodes_eq (hg.input_iff.mp h)

theorem output_lt (hg : g.WellFormed) (h : g.outputs[i]? = some id) : id < g.nodes.size := by
  obtain ⟨e, he⟩ := hg.output_iff.mp h
  exact lt_size_of_nodes_eq he

/-- After one more node whose fanins exist, the fanins of all nodes come first and exist. -/
theorem fanins_push (hg : g.WellFormed) {m : Node} (hm : ∀ e ∈ m.fanins, g.Drives e)
    {g' : Graph} (hn : g'.nodes = g.nodes.push m) (h : g'.nodes[id]? = some n)
    (he : e ∈ n.fanins) : e.node < id ∧ g'.Drives e := by
  rw [hn, getElem?_push_iff] at h
  rcases h with ⟨rfl, rfl⟩ | h
  · exact ⟨(hm e he).lt_size, (hm e he).push hn⟩
  · exact ⟨hg.fanin_lt h he, (hg.drives_fanin h he).push hn⟩

theorem pairwise_push {ids : Array Nat} {m : Nat} (h : ids.toList.Pairwise (· < ·))
    (hlt : ∀ {i id : Nat}, ids[i]? = some id → id < m) :
    (ids.push m).toList.Pairwise (· < ·) := by
  rw [Array.toList_push]
  refine List.pairwise_append.mpr ⟨h, List.pairwise_singleton _ _, fun id hid k hk => ?_⟩
  rw [List.mem_singleton] at hk
  obtain ⟨i, hi⟩ := List.getElem?_of_mem hid
  exact hk ▸ hlt (i := i) (by rwa [← Array.getElem?_toList])

theorem withGate (hg : g.WellFormed) (ha : g.Drives a) (hb : g.Drives b) :
    (g.withGate a b).2.WellFormed := by
  have hm : ∀ e ∈ (Node.gate a b).fanins, g.Drives e := by
    intro e he
    rw [Node.mem_fanins_gate] at he
    rcases he with rfl | rfl
    · exact ha
    · exact hb
  exact {
    constant_iff := by
      intro id
      simp [Graph.withGate, push, getElem?_push_iff, hg.constant_iff]
    fanin_lt := fun h he => (hg.fanins_push hm rfl h he).1
    drives_fanin := fun h he => (hg.fanins_push hm rfl h he).2
    input_iff := by
      intro i id
      simp [Graph.withGate, push, getElem?_push_iff, hg.input_iff]
    output_iff := by
      intro i id
      simp [Graph.withGate, push, getElem?_push_iff, hg.output_iff]
    inputs_ascending := hg.inputs_ascending
    outputs_ascending := hg.outputs_ascending
    size_inputNames := hg.size_inputNames
    size_outputNames := hg.size_outputNames
    hashed_gate := fun h => ⟨nodes_push_of_eq (hg.hashed_gate h).1 _, (hg.hashed_gate h).2⟩ }

theorem withInput (hg : g.WellFormed) (name : String) : (g.withInput name).2.WellFormed := by
  have hm : ∀ e ∈ (Node.input g.numInputs).fanins, g.Drives e := by
    intro e he
    cases he
  exact {
    constant_iff := by
      intro id
      simp [Graph.withInput, getElem?_push_iff, hg.constant_iff]
    fanin_lt := fun h he => (hg.fanins_push hm rfl h he).1
    drives_fanin := fun h he => (hg.fanins_push hm rfl h he).2
    input_iff := by
      intro i id
      simp only [Graph.withInput, getElem?_push_iff, hg.input_iff, Node.input.injEq, numInputs,
        size]
      constructor
      · rintro (⟨rfl, rfl⟩ | h)
        · exact .inl ⟨rfl, rfl⟩
        · exact .inr h
      · rintro (⟨rfl, rfl⟩ | h)
        · exact .inl ⟨rfl, rfl⟩
        · exact .inr h
    output_iff := by
      intro i id
      simp [Graph.withInput, getElem?_push_iff, hg.output_iff]
    inputs_ascending := pairwise_push hg.inputs_ascending hg.input_lt
    outputs_ascending := hg.outputs_ascending
    size_inputNames := by simp [Graph.withInput, hg.size_inputNames]
    size_outputNames := hg.size_outputNames
    hashed_gate := fun h => ⟨nodes_push_of_eq (hg.hashed_gate h).1 _, (hg.hashed_gate h).2⟩ }

theorem withOutput (hg : g.WellFormed) (he : g.Drives e) (name : String) :
    (g.withOutput e name).2.WellFormed := by
  have hm : ∀ d ∈ (Node.output g.numOutputs e).fanins, g.Drives d := by
    intro d hd
    rw [List.mem_singleton.mp hd]
    exact he
  exact {
    constant_iff := by
      intro id
      simp [Graph.withOutput, getElem?_push_iff, hg.constant_iff]
    fanin_lt := fun h he => (hg.fanins_push hm rfl h he).1
    drives_fanin := fun h he => (hg.fanins_push hm rfl h he).2
    input_iff := by
      intro i id
      simp [Graph.withOutput, getElem?_push_iff, hg.input_iff]
    output_iff := by
      intro i id
      simp only [Graph.withOutput, getElem?_push_iff, hg.output_iff, Node.output.injEq, numOutputs,
        size]
      constructor
      · rintro (⟨rfl, rfl⟩ | ⟨d, h⟩)
        · exact ⟨e, .inl ⟨rfl, rfl, rfl⟩⟩
        · exact ⟨d, .inr h⟩
      · rintro ⟨d, ⟨rfl, rfl, rfl⟩ | h⟩
        · exact .inl ⟨rfl, rfl⟩
        · exact .inr ⟨d, h⟩
    inputs_ascending := hg.inputs_ascending
    outputs_ascending := pairwise_push hg.outputs_ascending hg.output_lt
    size_inputNames := hg.size_inputNames
    size_outputNames := by simp [Graph.withOutput, hg.size_outputNames]
    hashed_gate := fun h => ⟨nodes_push_of_eq (hg.hashed_gate h).1 _, (hg.hashed_gate h).2⟩ }

theorem withHashed (hg : g.WellFormed) (hn : g.nodes[id]? = some (.gate a b))
    (hlt : a.literal < b.literal) (hp : properPair (a, b) = true) :
    { g with hashed := g.hashed.insert (a, b) id }.WellFormed where
  constant_iff := hg.constant_iff
  fanin_lt := hg.fanin_lt
  drives_fanin := hg.drives_fanin
  input_iff := hg.input_iff
  output_iff := hg.output_iff
  inputs_ascending := hg.inputs_ascending
  outputs_ascending := hg.outputs_ascending
  size_inputNames := hg.size_inputNames
  size_outputNames := hg.size_outputNames
  hashed_gate {c d k} h := by
    rw [Std.HashMap.getElem?_insert] at h
    split at h
    · rename_i heq
      cases eq_of_beq heq
      cases h
      exact ⟨hn, hlt, hp⟩
    · exact hg.hashed_gate h

theorem renameInput (hg : g.WellFormed) {name : String} {g' : Graph}
    (h : g.renameInput i name = .ok g') : g'.WellFormed := by
  simp only [Graph.renameInput] at h
  split at h
  · cases h
    exact { hg with size_inputNames := by simp [hg.size_inputNames] }
  · cases h

theorem renameOutput (hg : g.WellFormed) {name : String} {g' : Graph}
    (h : g.renameOutput i name = .ok g') : g'.WellFormed := by
  simp only [Graph.renameOutput] at h
  split at h
  · cases h
    exact { hg with size_outputNames := by simp [hg.size_outputNames] }
  · cases h

end WellFormed

end Graph

end AndInverter
