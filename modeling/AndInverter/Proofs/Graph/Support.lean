import AndInverter.Proofs.Exploration
import AndInverter.Proofs.Graph.Cone
import AndInverter.Proofs.Graph.Simulation
import AndInverter.Proofs.Graph.Structure

/-!
# The support of an output

A search from the driver of an output back along fanins finds its cone, whether it works off a stack
or passes over the nodes from the last one down. The inputs among the nodes that it finds are those
that the output can depend on: no two assignments that agree on them tell it apart.
-/

namespace AndInverter.Graph

variable {g : Graph} {c : Cone} {e : Edge} {x y : Array Bool} {o id root : Nat}

def exploreCone (g : Graph) (root : Nat) : Except Fault Cone :=
  if root < g.size then
    let marks := (Exploration.start g.size root).run g.faninNodes
    .ok {
      root
      nodes := marked marks
      inputs := g.inputs.toList.filter fun id => marks[id]? = some true }
  else .error .outOfRange

theorem WellFormed.exploreCone_eq (hg : g.WellFormed) (root : Nat) :
    g.exploreCone root = g.cone root := by
  have hbound (id i : Nat) (hi : i ∈ g.faninNodes id) : i < g.size := by
    obtain ⟨n, hn, e, he, rfl⟩ := mem_faninNodes.mp hi
    exact (hg.drives_fanin hn he).lt_size
  rw [exploreCone, cone]
  split
  · rename_i hlt
    rw [Exploration.run_start (fun _ _ h => hg.faninNodes_lt h) hbound hlt]
  · rfl

/-- The values of an output under two assignments that agree on the inputs in its cone. -/
theorem IsCone.edgeValueOf_congr (hg : g.WellFormed) (hc : g.IsCone e.node c)
    (hxy : ∀ i ∈ g.coneInputs c, x[i]? = y[i]?) :
    g.edgeValueOf (assigned x) e = g.edgeValueOf (assigned y) e := by
  refine congrArg (· ^^ e.complemented) (hc.valueOf_congr hg (fun id hid i hn => ?_) hc.root_mem)
  have hmem := (hc.mem_inputs hg).mp hid
  rw [assigned, assigned, hxy i ((mem_coneInputs hg hc).mpr ⟨id, hmem.1, hn⟩)]

/-- The support of an output lists the inputs that its driver reaches back along fanins, in
ascending order and as a search with a stack finds them. Any two assignments that agree on these
inputs give the output the same value. -/
theorem Built.support_decides (hg : g.Built) (ho : o < g.numOutputs) :
    ∃ is e, g.support o = .ok is ∧ g.driver o = .ok e ∧
      g.exploreCone e.node = g.cone e.node ∧
      is.Pairwise (· < ·) ∧
      (∀ i, i ∈ is ↔ ∃ id : Nat, g.nodes[id]? = some (.input i) ∧ g.Reaches e.node id) ∧
      ∀ x y : Array Bool, x.size = g.numInputs → y.size = g.numInputs →
        (∀ i ∈ is, x[i]? = y[i]?) → ∃ u v b, g.eval x = .ok u ∧ g.eval y = .ok v ∧
          u[o]? = some b ∧ v[o]? = some b := by
  have hg := hg.wellFormed
  obtain ⟨id, e, hid, hn, hd⟩ := driver_eq_ok hg ho
  obtain ⟨c, hc, hspec⟩ := cone_eq_ok hg (hg.drives_fanin hn (List.mem_singleton_self e)).lt_size
  refine ⟨_, e, support_eq_ok hd hc, hd, hg.exploreCone_eq _, pairwise_coneInputs hg hspec,
    fun i => ?_, fun x y hx hy hxy => ?_⟩
  · rw [mem_coneInputs hg hspec]
    simp only [hspec.mem_nodes_iff]
    exact exists_congr fun _ => and_comm
  · refine ⟨_, _, g.edgeValueOf (assigned x) e, (g.eval_eq x).trans (if_pos hx),
      (g.eval_eq y).trans (if_pos hy), ?_, ?_⟩
    · rw [Array.getElem?_map, hid, Option.map_some, valueOf_output hg hn]
    · rw [Array.getElem?_map, hid, Option.map_some, valueOf_output hg hn,
        hspec.edgeValueOf_congr hg hxy]

def oneSided : Graph :=
  let g := ((Build.gate ⟨0, true⟩ ⟨1, false⟩).run twoInputs).2
  let g := ((Build.gate ⟨3, false⟩ ⟨3, false⟩).run g).2
  ((Build.output ⟨4, true⟩ (some "y")).run g).2

theorem oneSided_built : oneSided.Built :=
  .output (.gate (.gate (.input (.input .empty _) _) _ _) _ _) _ _

/-- The output leaves out the second input, and does not tell apart two assignments that differ
there. -/
theorem Built.support_decides_oneSided : oneSided.Built ∧ 0 < oneSided.numOutputs ∧
    oneSided.support 0 = .ok [0] ∧ ∃ u v b, oneSided.eval #[true, false] = .ok u ∧
      oneSided.eval #[true, true] = .ok v ∧ u[0]? = some b ∧ v[0]? = some b := by
  have hout : 0 < oneSided.numOutputs := by decide
  have hsupport : oneSided.support 0 = .ok [0] := by decide +kernel
  obtain ⟨is, e, his, -, -, -, -, heval⟩ := Built.support_decides oneSided_built hout
  cases hsupport.symm.trans his
  exact ⟨oneSided_built, hout, hsupport, heval _ _ rfl rfl (by decide)⟩

end AndInverter.Graph
