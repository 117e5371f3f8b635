import AndInverter.Proofs.Graph.Support

/-!
# The order of a cone

A cone lists the nodes that its root reaches in ascending order, so that each of them comes after
all of its fanins, and its inputs in the order of their indices. Whoever works through the list from
the front has met the fanins of a node before the node.
-/

namespace AndInverter.Graph

variable {g : Graph} {c : Cone} {root id i : Nat}

theorem getElem?_any_isInput :
    g.nodes[id]?.any Node.isInput = true ↔ ∃ i, g.nodes[id]? = some (.input i) := by
  rw [Option.any_eq_true]
  constructor
  · rintro ⟨n, hn, hinput⟩
    cases n with
    | input i => exact ⟨i, hn⟩
    | constant | gate | output => cases hinput
  · rintro ⟨i, hn⟩
    exact ⟨_, hn, rfl⟩

namespace IsCone

theorem inputs_eq_filter (hg : g.WellFormed) (hc : g.IsCone root c) :
    c.inputs = c.nodes.filter fun id => g.nodes[id]?.any Node.isInput := by
  have hascending : c.inputs.Pairwise (· < ·) := by
    rw [hc.inputs_eq]
    exact hg.inputs_ascending.filter _
  refine hascending.eq_of_mem_iff (hc.ascending.filter _) fun id => ?_
  rw [hc.mem_inputs hg, List.mem_filter, getElem?_any_isInput]

/-- The inputs of a cone, each with its index. -/
theorem forall₂_coneInputs (hg : g.WellFormed) (hc : g.IsCone root c) :
    List.Forall₂ (fun id i => g.nodes[id]? = some (.input i)) c.inputs (g.coneInputs c) := by
  have hindex (ids : List Nat) (hids : ∀ id ∈ ids, ∃ i, g.nodes[id]? = some (.input i)) :
      List.Forall₂ (fun id i => g.nodes[id]? = some (.input i)) ids
        (ids.filterMap fun id => g.nodes[id]?.bind Node.inputIndex?) := by
    induction ids with
    | nil => exact .nil
    | cons id ids ih =>
      obtain ⟨⟨i, hi⟩, hids⟩ := List.forall_mem_cons.mp hids
      rw [List.filterMap_cons_some (b := i) (by rw [hi]; rfl)]
      exact .cons hi (ih hids)
  exact hindex c.inputs fun id hid => ((hc.mem_inputs hg).mp hid).2

/-- Fanins lie before their node in the list. -/
theorem fanin_mem_before (hg : g.WellFormed) (hc : g.IsCone root c) {before after : List Nat}
    (hnodes : c.nodes = before ++ id :: after) (hi : i ∈ g.faninNodes id) : i ∈ before := by
  obtain ⟨n, hn, e, he, rfl⟩ := mem_faninNodes.mp hi
  have hlt := hg.fanin_lt hn he
  have hascending := hc.ascending
  rw [hnodes, List.pairwise_append, List.pairwise_cons] at hascending
  have hmem : e.node ∈ c.nodes := hc.fanin_mem (by simp [hnodes]) hn he
  rw [hnodes, List.mem_append, List.mem_cons] at hmem
  rcases hmem with hmem | heq | hmem
  · exact hmem
  · omega
  · have := hascending.2.1.1 _ hmem
    omega

end IsCone

/-- Every root that exists has a cone, and a search with a stack finds it in at most as many steps
as there are nodes. The cone lists in ascending order just the nodes that the root reaches along
fanins, itself included, and each of them after all of its fanins. Its inputs are the primary inputs
among them, by ascending index. -/
theorem Built.cone_lists (hg : g.Built) (root : Nat) :
    g.exploreCone root = g.cone root ∧
    (g.size ≤ root → g.cone root = .error .outOfRange) ∧
    (root < g.size → (Exploration.start g.size root).numTaken g.faninNodes ≤ g.size ∧
      ∃ c, g.cone root = .ok c ∧ c.root = root ∧ c.nodes.Pairwise (· < ·) ∧
        (∀ id, id ∈ c.nodes ↔ g.Reaches root id) ∧
        c.inputs = c.nodes.filter (fun id => g.nodes[id]?.any Node.isInput) ∧
        (∃ is, is.Pairwise (· < ·) ∧
          List.Forall₂ (fun id i => g.nodes[id]? = some (.input i)) c.inputs is) ∧
        ∀ before id after, c.nodes = before ++ id :: after → ∀ i ∈ g.faninNodes id, i ∈ before) := by
  have hg := hg.wellFormed
  refine ⟨hg.exploreCone_eq root, fun hle => if_neg (Nat.not_lt.mpr hle), fun hlt =>
    ⟨Exploration.numTaken_start_le _ hlt, ?_⟩⟩
  obtain ⟨c, hcone, hc⟩ := cone_eq_ok hg hlt
  exact ⟨c, hcone, hc.root_eq, hc.ascending, fun _ => hc.mem_nodes_iff, hc.inputs_eq_filter hg,
    ⟨_, pairwise_coneInputs hg hc, hc.forall₂_coneInputs hg⟩,
    fun _ _ _ hnodes _ hi => hc.fanin_mem_before hg hnodes hi⟩

/-- Both gates below the last one read both inputs, and the constant is out of reach. -/
theorem Built.cone_lists_reconvergent : reconvergent.Built ∧
    reconvergent.cone 5 = .ok ⟨5, [1, 2, 3, 4, 5], [1, 2]⟩ ∧
    (Exploration.start 7 5).numTaken reconvergent.faninNodes ≤ 7 ∧
    reconvergent.Reaches 5 2 ∧ ¬ reconvergent.Reaches 5 0 ∧
    ∀ i ∈ reconvergent.faninNodes 4, i ∈ [1, 2, 3] := by
  have hcone : reconvergent.cone 5 = .ok ⟨5, [1, 2, 3, 4, 5], [1, 2]⟩ := by decide +kernel
  obtain ⟨-, -, hlists⟩ := Built.cone_lists reconvergent_built 5
  obtain ⟨htaken, c, hc, -, -, hmem, -, -, hbefore⟩ := hlists (by decide)
  cases hcone.symm.trans hc
  exact ⟨reconvergent_built, hcone, htaken, (hmem 2).mp (by decide),
    fun h => absurd ((hmem 0).mpr h) (by decide), hbefore [1, 2, 3] 4 [5] rfl⟩

end AndInverter.Graph
