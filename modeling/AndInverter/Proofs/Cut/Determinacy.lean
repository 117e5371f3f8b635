import AndInverter.Proofs.Cut.Schedule
import AndInverter.Proofs.Cut.Validity
import AndInverter.Proofs.Graph.Simulation
import Mathlib.Logic.Function.Basic

/-!
# A cut determines its root

The leaves of a cut are all that its root can see of the inputs: between two simulations that agree
on the leaves nothing changes at the root. So the value of the root is a function of the values of
the leaves, for every list of leaves that passes the test of a cut, minimal or not, and in
particular for the cuts of a table.
-/

namespace AndInverter

namespace Graph

variable {g : Graph} {S : Finset Nat} {leaves : List Nat} {x y : Nat → Bool} {id node : Nat}

/-- Any two simulations in which the leaves have equal values give the node equal values. -/
def Determines (g : Graph) (leaves : List Nat) (node : Nat) : Prop :=
  ∀ x y vx vy, g.simulate x = .ok vx → g.simulate y = .ok vy →
    (∀ l ∈ leaves, vx[l]? = vy[l]?) → vx[node]? = vy[node]?

/-- Assignments that agree on a separating set agree on the node, since each of its fanins is
separated as well until the set is met. -/
theorem Separates.valueOf_eq (hg : g.WellFormed) (h : g.Separates S id)
    (hS : ∀ m ∈ S, g.valueOf x m = g.valueOf y m) : g.valueOf x id = g.valueOf y id := by
  induction id using Nat.strongRecOn with
  | ind id ih =>
    cases hn : g.nodes[id]? with
    | none => rw [valueOf_eq_false hn, valueOf_eq_false hn]
    | some n =>
      rcases (separates_iff hn).mp h with hmem | ⟨hin, hfanins⟩
      · exact hS id hmem
      · apply valueOf_eq_of_fanins hg hn
        · intro e he
          exact ih e.node (hg.fanin_lt hn he) (hfanins e he)
        · rintro i rfl
          cases hin

theorem lt_size_of_isCut {b : Bool} (h : g.isCut node leaves = .ok b) : node < g.size := by
  by_contra hle
  have hnone : (Array.replicate g.size false)[node]? = none := by
    rw [Array.getElem?_eq_none_iff, Array.size_replicate]
    omega
  rw [isCut, isStopped] at h
  split at h
  · cases h
  · rename_i hsome
    cases hnone.symm.trans hsome
  · rename_i hsome
    cases hnone.symm.trans hsome

theorem Separates.determines (hg : g.WellFormed) (hnode : node < g.size)
    (h : g.Separates leaves.toFinset node) : g.Determines leaves node := by
  intro x y vx vy hx hy hleaves
  obtain ⟨-, rfl⟩ := simulate_eq_ok_iff.mp hx
  obtain ⟨-, rfl⟩ := simulate_eq_ok_iff.mp hy
  rw [getElem?_values hnode, getElem?_values hnode]
  refine congrArg some (h.valueOf_eq hg fun l hl => ?_)
  exact congrArg (·.getD false) (hleaves l (List.mem_toFinset.mp hl))

/-- The value of a node is a function of the values of leaves that separate it. -/
theorem Separates.exists_function (hg : g.WellFormed) (hnode : node < g.size)
    (h : g.Separates leaves.toFinset node) : ∃ F : List Bool → Bool, ∀ x v,
      g.simulate x = .ok v → v[node]? = some (F (leaves.map fun l => v[l]?.getD false)) := by
  have hfactors : Function.FactorsThrough (fun x => g.valueOf x node)
      fun x => leaves.map (g.valueOf x) := by
    intro x y hxy
    exact h.valueOf_eq hg fun l hl => List.map_inj_left.mp hxy l (List.mem_toFinset.mp hl)
  obtain ⟨F, hF⟩ := (Function.factorsThrough_iff _).mp hfactors
  refine ⟨F, fun x v hv => ?_⟩
  obtain ⟨-, rfl⟩ := simulate_eq_ok_iff.mp hv
  rw [getElem?_values hnode]
  exact congrArg some (congrFun hF (assigned x))

end Graph

namespace FeasibleCuts

open AndInverter.Graph

variable {g : Graph} {t : FeasibleCuts} {c : Cut} {k id : Nat} {families : Array CutFamily}
  {schedule : Schedule}

/-- A table lists cuts of nodes that exist, and only irredundant ones. -/
theorem Complete.irredundant_of_mem (h : Complete g k families)
    (hc : c ∈ cuts { bound := k, families } id) : id < g.size ∧ g.Irredundant c.leafSet id := by
  have hlt : id < g.size := by
    by_contra hle
    have hnone : families[id]? = none := Array.getElem?_eq_none (by rw [h.size_eq]; omega)
    rw [cuts, hnone] at hc
    cases hc
  have hn : g.nodes[id]? = some g.nodes[id] := Array.getElem?_eq_getElem hlt
  cases hout : g.nodes[id].isOutput with
  | false => exact ⟨hlt, ((h.mem_cuts_iff hn hout).mp hc).2⟩
  | true =>
    rw [h.cuts_of_output hn hout] at hc
    cases hc

theorem irredundant_of_mem_cuts (hg : g.WellFormed) (ht : ofGraph g k schedule = .ok t)
    (hc : c ∈ t.cuts id) : id < g.size ∧ g.Irredundant c.leafSet id := by
  have hk : 0 < k := by
    by_contra hzero
    have hrefused : ofGraph g k schedule = .error (.error (.cutBounds k 0 "k >= 1")) :=
      if_pos (Nat.eq_zero_of_not_pos hzero)
    cases ht.symm.trans hrefused
  obtain ⟨families, hok, hcomplete⟩ := ofGraph_eq_ok hg hk schedule
  cases hok.symm.trans ht
  exact hcomplete.irredundant_of_mem hc

end FeasibleCuts

namespace Graph

variable {g : Graph} {leaves : List Nat} {node : Nat}

theorem WellFormed.separates_of_isCut (hg : g.WellFormed) (h : g.isCut node leaves = .ok true) :
    node < g.size ∧ g.Separates leaves.toFinset node := by
  have hnode := lt_size_of_isCut h
  obtain ⟨b, hb, hsep⟩ := hg.isCut_eq_ok hnode leaves
  cases hb.symm.trans h
  exact ⟨hnode, hsep.mp rfl⟩

/-- Leaves that pass the test of a cut determine the node, which is then a function of them. All
cuts of a table pass the test. -/
theorem Built.cuts_determine (hg : g.Built) :
    (∀ node leaves, g.isCut node leaves = .ok true → g.Determines leaves node ∧
      ∃ F : List Bool → Bool, ∀ x v, g.simulate x = .ok v →
        v[node]? = some (F (leaves.map fun l => v[l]?.getD false))) ∧
    ∀ k schedule t, FeasibleCuts.ofGraph g k schedule = .ok t →
      ∀ node, ∀ c ∈ t.cuts node, g.isCut node c.leaves = .ok true := by
  have hwf := hg.wellFormed
  refine ⟨fun node leaves h => ?_, fun k schedule t ht node c hc => ?_⟩
  · obtain ⟨hnode, hsep⟩ := hwf.separates_of_isCut h
    exact ⟨hsep.determines hwf hnode, hsep.exists_function hwf hnode⟩
  · obtain ⟨hnode, hirredundant⟩ := FeasibleCuts.irredundant_of_mem_cuts hwf ht hc
    obtain ⟨b, hb, hsep⟩ := hwf.isCut_eq_ok hnode c.leaves
    rw [hb, hsep.mpr hirredundant.1]

/-- The output above a reconvergence is a function of the two gates below its driver, listed out of
order and with an input that adds nothing. -/
theorem Built.cuts_determine_reconvergent : reconvergent.Built ∧
    reconvergent.isCut 6 [4, 1, 3] = .ok true ∧ reconvergent.Determines [4, 1, 3] 6 := by
  have hcut : reconvergent.isCut 6 [4, 1, 3] = .ok true := by decide +kernel
  exact ⟨reconvergent_built, hcut, ((Built.cuts_determine reconvergent_built).1 _ _ hcut).1⟩

end Graph

end AndInverter
