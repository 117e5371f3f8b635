import AndInverter.Graph.Cone
import AndInverter.Proofs.Graph.Scan
import AndInverter.Proofs.Reachability

/-!
# Cones

The cone of a node is found whenever the node exists. It lists the node and what lies before it,
fanins first. Its root alone can be a primary output.
-/

namespace AndInverter.Graph

variable {g : Graph} {c : Cone} {e : Edge} {n : Node} {id root i : Nat}

theorem mem_faninNodes : i ∈ g.faninNodes id ↔
    ∃ n, g.nodes[id]? = some n ∧ ∃ e ∈ n.fanins, e.node = i := by
  rw [faninNodes]
  cases g.nodes[id]? with
  | none => simp
  | some n => simp

theorem WellFormed.faninNodes_lt (hg : g.WellFormed) (h : i ∈ g.faninNodes id) : i < id := by
  obtain ⟨n, hn, e, he, rfl⟩ := mem_faninNodes.mp h
  exact hg.fanin_lt hn he

inductive Reaches (g : Graph) (root : Nat) : Nat → Prop where
  | root : Reaches g root root
  | fanin {id i : Nat} (h : Reaches g root id) (hi : i ∈ g.faninNodes id) : Reaches g root i

/-- The cone of a node: the least set with the node that is closed under fanins. -/
structure IsCone (g : Graph) (root : Nat) (c : Cone) : Prop where
  root_eq : c.root = root
  root_mem : root ∈ c.nodes
  ascending : c.nodes.Pairwise (· < ·)
  fanin_mem {id : Nat} {n : Node} {e : Edge} :
    id ∈ c.nodes → g.nodes[id]? = some n → e ∈ n.fanins → e.node ∈ c.nodes
  minimal {P : Nat → Prop} (hroot : P root)
    (hclosed : ∀ id n e, P id → g.nodes[id]? = some n → e ∈ n.fanins → P e.node) {id : Nat} :
    id ∈ c.nodes → P id
  inputs_eq : c.inputs = g.inputs.toList.filter (· ∈ c.nodes)

theorem cone_eq_ok (hg : g.WellFormed) (hlt : root < g.size) :
    ∃ c, g.cone root = .ok c ∧ g.IsCone root c := by
  refine ⟨_, if_pos hlt, rfl, ?_, pairwise_marked _, ?_, fun {P} hroot hclosed {id} hid => ?_, ?_⟩
  · exact mem_marked.mpr (reachable_root (List.mem_singleton_self _) hlt)
  · intro id n d hid hn hd
    exact mem_marked.mpr (reachable_closed (fun _ _ h => hg.faninNodes_lt h) (mem_marked.mp hid)
      d.node (mem_faninNodes.mpr ⟨n, hn, d, hd, rfl⟩))
  · refine of_reachable (P := P) (fun i hi j hj => ?_) (fun r hr => ?_) (mem_marked.mp hid)
    · obtain ⟨n, hn, d, hd, rfl⟩ := mem_faninNodes.mp hj
      exact hclosed i n d hi hn hd
    · rwa [List.mem_singleton.mp hr]
  · simp only [mem_marked]

namespace IsCone

variable {x y : Nat → Bool}

theorem mem_inputs (hg : g.WellFormed) (hc : g.IsCone root c) :
    id ∈ c.inputs ↔ id ∈ c.nodes ∧ ∃ i, g.nodes[id]? = some (.input i) := by
  rw [hc.inputs_eq, List.mem_filter, decide_eq_true_eq, Array.mem_toList_iff, and_comm,
    Array.mem_iff_getElem?]
  simp only [hg.input_iff]

theorem lt_size (hg : g.WellFormed) (hc : g.IsCone root c) (hroot : root < g.size)
    (hid : id ∈ c.nodes) : id < g.size :=
  hc.minimal (P := fun id => id < g.size) hroot
    (fun _ _ _ hlt hn he => Nat.lt_trans (hg.fanin_lt hn he) hlt) hid

/-- The cone of a node that drives others holds no output. -/
theorem exists_node (hg : g.WellFormed) (he : g.Drives e) (hc : g.IsCone e.node c)
    (hid : id ∈ c.nodes) : ∃ n, g.nodes[id]? = some n ∧ n.isOutput = false :=
  hc.minimal (P := fun id => ∃ n, g.nodes[id]? = some n ∧ n.isOutput = false) he
    (fun _ _ _ _ hn hd => hg.drives_fanin hn hd) hid

theorem mem_nodes_iff (hc : g.IsCone root c) : id ∈ c.nodes ↔ g.Reaches root id := by
  refine ⟨hc.minimal .root fun id n d hid hn hd => ?_, fun h => ?_⟩
  · exact hid.fanin (mem_faninNodes.mpr ⟨n, hn, d, hd, rfl⟩)
  · induction h with
    | root => exact hc.root_mem
    | fanin _ hi ih =>
      obtain ⟨n, hn, d, hd, rfl⟩ := mem_faninNodes.mp hi
      exact hc.fanin_mem ih hn hd

/-- Every node of a cone only depends on the inputs of the cone. -/
theorem valueOf_congr (hg : g.WellFormed) (hc : g.IsCone root c)
    (hxy : ∀ id ∈ c.inputs, ∀ i, g.nodes[id]? = some (.input i) → x i = y i)
    (hid : id ∈ c.nodes) : g.valueOf x id = g.valueOf y id :=
  Graph.valueOf_congr hg (fun _ _ _ h hn he => hc.fanin_mem h hn he)
    (fun _ i h hn => hxy _ ((hc.mem_inputs hg).mpr ⟨h, i, hn⟩) i hn) hid

end IsCone

theorem mem_coneInputs (hg : g.WellFormed) (hc : g.IsCone root c) :
    i ∈ g.coneInputs c ↔ ∃ id ∈ c.nodes, g.nodes[id]? = some (.input i) := by
  rw [coneInputs, List.mem_filterMap]
  refine ⟨?_, ?_⟩
  · rintro ⟨id, hid, hindex⟩
    obtain ⟨hmem, j, hn⟩ := (hc.mem_inputs hg).mp hid
    rw [hn] at hindex
    cases hindex
    exact ⟨id, hmem, hn⟩
  · rintro ⟨id, hid, hn⟩
    exact ⟨id, (hc.mem_inputs hg).mpr ⟨hid, i, hn⟩, by rw [hn]; rfl⟩

theorem WellFormed.index_lt_index (hg : g.WellFormed) {j k : Nat}
    (hi : g.nodes[id]? = some (.input i)) (hj : g.nodes[k]? = some (.input j)) (hlt : id < k) :
    i < j := by
  obtain ⟨hisize, rfl⟩ := Array.getElem?_eq_some_iff.mp (hg.input_iff.mpr hi)
  obtain ⟨hjsize, rfl⟩ := Array.getElem?_eq_some_iff.mp (hg.input_iff.mpr hj)
  rcases Nat.lt_trichotomy i j with h | rfl | h
  · exact h
  · exact absurd hlt (Nat.lt_irrefl _)
  · have := List.pairwise_iff_getElem.mp hg.inputs_ascending j i hjsize hisize h
    simp only [Array.getElem_toList] at this
    omega

theorem pairwise_coneInputs (hg : g.WellFormed) (hc : g.IsCone root c) :
    (g.coneInputs c).Pairwise (· < ·) := by
  rw [coneInputs, hc.inputs_eq, List.pairwise_filterMap]
  refine (hg.inputs_ascending.filter _).imp fun {id k} hlt i hi j hj => ?_
  obtain ⟨n, hn, hi⟩ := Option.bind_eq_some_iff.mp hi
  obtain ⟨m, hm, hj⟩ := Option.bind_eq_some_iff.mp hj
  cases n <;> cases hi
  cases m <;> cases hj
  exact hg.index_lt_index hn hm hlt

theorem node_eq_ok_iff : g.node id = .ok n ↔ g.nodes[id]? = some n := by
  rw [node]
  cases g.nodes[id]? with
  | none => simp
  | some m => simp

theorem driver_of_outputs_eq {j : Nat} (hid : g.outputs[i]? = some id)
    (hn : g.nodes[id]? = some (.output j e)) : g.driver i = .ok e := by
  have hout : g.output i = .ok id := by simp only [output, hid]
  have hnode : g.node id = .ok (.output j e) := by simp only [node, hn]
  rw [driver, hout]
  change (g.node id >>= _) = _
  rw [hnode]
  rfl

theorem driver_eq_ok (hg : g.WellFormed) (h : i < g.numOutputs) :
    ∃ id e, g.outputs[i]? = some id ∧ g.nodes[id]? = some (.output i e) ∧ g.driver i = .ok e := by
  have hid : g.outputs[i]? = some g.outputs[i] := Array.getElem?_eq_getElem h
  obtain ⟨e, hn⟩ := hg.output_iff.mp hid
  exact ⟨_, e, hid, hn, driver_of_outputs_eq hid hn⟩

theorem support_eq_ok (hd : g.driver i = .ok e) (hc : g.cone e.node = .ok c) :
    g.support i = .ok (g.coneInputs c) := by
  rw [support, hd, Except.ok_bind, hc]
  rfl

end AndInverter.Graph
