import AndInverter.Proofs.Cut.Leaves
import AndInverter.Proofs.Graph.WellFormed
import Mathlib.Data.Finset.Lattice.Basic
import Mathlib.Data.Finset.Lattice.Lemmas
import Mathlib.Data.Finset.Sort

/-!
# Separating sets

A set of nodes separates a node from the primary inputs if it meets every path back to one. It is
irredundant if none of its proper subsets does. An irredundant set of a gate is the gate itself or a
union of irredundant sets of the fanins.
-/

namespace AndInverter

def Cut.leafSet (c : Cut) : Finset Nat := c.leaves.toFinset

namespace Cut

variable {a b c : Cut} {k x : Nat}

@[simp] theorem mem_leafSet : x ∈ c.leafSet ↔ x ∈ c.leaves := List.mem_toFinset

theorem card_leafSet (c : Cut) : c.leafSet.card = c.size := List.toFinset_card_of_nodup c.nodup

theorem subset_iff_leafSet : a.subset b = true ↔ a.leafSet ⊆ b.leafSet := by
  rw [subset_iff]
  exact ⟨fun h x hx => by simpa using h (mem_leafSet.mp hx), fun h x hx => by
    simpa using h (mem_leafSet.mpr hx)⟩

theorem leafSet_inj : a.leafSet = b.leafSet ↔ a = b := by
  constructor
  · intro h
    exact subset_antisymm (subset_iff_leafSet.mpr h.subset) (subset_iff_leafSet.mpr h.symm.subset)
  · rintro rfl
    rfl

theorem exists_leafSet_eq (S : Finset Nat) : ∃ c : Cut, c.leafSet = S := by
  refine ⟨ofLeaves (S.sort (· ≤ ·)), ?_⟩
  ext x
  simp [ofLeaves, Ascending.mem_ofList]

@[simp] theorem leafSet_empty : empty.leafSet = ∅ := rfl

@[simp] theorem leafSet_trivial (x : Nat) : (trivial x).leafSet = {x} := rfl

theorem merge?_eq_some_iff_leafSet :
    a.merge? b k = some c ↔ c.leafSet = a.leafSet ∪ b.leafSet ∧ c.size ≤ k := by
  let u : Cut := ⟨Ascending.union a.leaves b.leaves, _, Ascending.pairwise_union b.ascending, rfl⟩
  have hu : u.leafSet = a.leafSet ∪ b.leafSet := by
    ext x
    simp [u, Ascending.mem_union]
  rw [merge?_eq_some_iff, ← hu, leafSet_inj]
  refine and_congr_left fun _ => ⟨fun h => Cut.ext (b := u) h, ?_⟩
  rintro rfl
  rfl

end Cut

namespace Graph

variable {g : Graph} {S T : Finset Nat} {n i : Nat} {a b : Edge}

/-- A path from a node back to a primary input, by the nodes that it visits. -/
inductive InputPath (g : Graph) : Nat → List Nat → Prop where
  | here {n i : Nat} : g.nodes[n]? = some (.input i) → InputPath g n [n]
  | back {n m : Nat} {p : List Nat} :
      m ∈ g.faninNodes n → InputPath g m p → InputPath g n (n :: p)

def Separates (g : Graph) (S : Finset Nat) (n : Nat) : Prop :=
  ∀ p, g.InputPath n p → ∃ m ∈ p, m ∈ S

/-- A separating set without a proper subset that separates. -/
def Irredundant (g : Graph) (S : Finset Nat) (n : Nat) : Prop :=
  g.Separates S n ∧ ∀ T ⊂ S, ¬ g.Separates T n

theorem Separates.mono (h : g.Separates S n) (hST : S ⊆ T) : g.Separates T n := by
  intro p hp
  obtain ⟨m, hm, hS⟩ := h p hp
  exact ⟨m, hm, hST hS⟩

theorem separates_of_mem (h : n ∈ S) : g.Separates S n := by
  intro p hp
  cases hp with
  | here => exact ⟨n, List.mem_singleton_self n, h⟩
  | back => exact ⟨n, List.mem_cons_self, h⟩

theorem Separates.exists_irredundant (h : g.Separates S n) : ∃ T ⊆ S, g.Irredundant T n := by
  induction S using Finset.strongInduction with
  | H S ih =>
    by_cases hmin : ∀ T ⊂ S, ¬ g.Separates T n
    · exact ⟨S, subset_rfl, h, hmin⟩
    · simp only [not_forall, not_not] at hmin
      obtain ⟨T, hTS, hT⟩ := hmin
      obtain ⟨U, hUT, hU⟩ := ih T hTS hT
      exact ⟨U, hUT.trans hTS.subset, hU⟩

theorem Irredundant.eq_of_subset (h : g.Irredundant S n) (hT : g.Separates T n) (hTS : T ⊆ S) :
    T = S := by
  by_contra hne
  exact h.2 T (hTS.ssubset_of_ne hne) hT

theorem Irredundant.eq_singleton (h : g.Irredundant S n) (hn : n ∈ S) : S = {n} :=
  (h.eq_of_subset (separates_of_mem (Finset.mem_singleton_self n))
    (Finset.singleton_subset_iff.mpr hn)).symm

/-- A set separates a node that it contains, and a node that is no input and whose fanins it
separates. -/
theorem separates_iff {m : Node} (h : g.nodes[n]? = some m) : g.Separates S n ↔
    n ∈ S ∨ m.isInput = false ∧ ∀ e ∈ m.fanins, g.Separates S e.node := by
  have hfanins : g.faninNodes n = m.fanins.map Edge.node := by simp [faninNodes, h]
  constructor
  · intro hS
    by_cases hn : n ∈ S
    · exact .inl hn
    · refine .inr ⟨?_, fun e he p hp => ?_⟩
      · cases m with
        | input i =>
          obtain ⟨x, hx, hxS⟩ := hS [n] (.here h)
          exact absurd (List.mem_singleton.mp hx ▸ hxS) hn
        | constant | gate | output => rfl
      · have hback : e.node ∈ g.faninNodes n := hfanins ▸ List.mem_map_of_mem he
        obtain ⟨x, hx, hxS⟩ := hS (n :: p) (.back hback hp)
        rcases List.mem_cons.mp hx with rfl | hx
        · exact absurd hxS hn
        · exact ⟨x, hx, hxS⟩
  · rintro (hn | ⟨hin, hm⟩)
    · exact separates_of_mem hn
    · intro p hp
      cases hp with
      | here hn =>
        rw [h] at hn
        cases hn
        cases hin
      | back hi hp =>
        obtain ⟨e, he, rfl⟩ := List.mem_map.mp (hfanins ▸ hi)
        obtain ⟨x, hx, hxS⟩ := hm e he _ hp
        exact ⟨x, List.mem_cons_of_mem n hx, hxS⟩

theorem separates_constant (h : g.nodes[n]? = some .constant) : g.Separates S n :=
  (separates_iff h).mpr (.inr ⟨rfl, fun _ he => absurd he List.not_mem_nil⟩)

theorem irredundant_constant_iff (h : g.nodes[n]? = some .constant) :
    g.Irredundant S n ↔ S = ∅ := by
  constructor
  · intro hS
    exact (hS.eq_of_subset (separates_constant h) (Finset.empty_subset S)).symm
  · rintro rfl
    exact ⟨separates_constant h, fun T hT => absurd hT (Finset.not_ssubset_empty T)⟩

theorem separates_input_iff (h : g.nodes[n]? = some (.input i)) : g.Separates S n ↔ n ∈ S := by
  rw [separates_iff h]
  exact or_iff_left fun hn => Bool.noConfusion hn.1

theorem irredundant_input_iff (h : g.nodes[n]? = some (.input i)) :
    g.Irredundant S n ↔ S = {n} := by
  constructor
  · intro hS
    exact hS.eq_singleton ((separates_input_iff h).mp hS.1)
  · rintro rfl
    refine ⟨separates_of_mem (Finset.mem_singleton_self n), fun T hT hsep => ?_⟩
    rw [Finset.ssubset_singleton_iff] at hT
    rw [separates_input_iff h, hT] at hsep
    exact absurd hsep (Finset.notMem_empty n)

theorem separates_gate_iff (h : g.nodes[n]? = some (.gate a b)) :
    g.Separates S n ↔ n ∈ S ∨ g.Separates S a.node ∧ g.Separates S b.node := by
  have hfanins : (∀ e ∈ (Node.gate a b).fanins, g.Separates S e.node) ↔
      g.Separates S a.node ∧ g.Separates S b.node := by
    rw [Node.fanins, List.forall_mem_cons, List.forall_mem_singleton]
  rw [separates_iff h, hfanins]
  exact or_congr_right (and_iff_right rfl)

/-- The inputs that a gate reads are an irredundant set of it. -/
theorem irredundant_inputs {j : Nat} (h : g.nodes[n]? = some (.gate a b))
    (ha : g.nodes[a.node]? = some (.input i)) (hb : g.nodes[b.node]? = some (.input j)) :
    g.Irredundant {a.node, b.node} n := by
  constructor
  · rw [separates_gate_iff h]
    exact .inr ⟨separates_of_mem (by simp), separates_of_mem (by simp)⟩
  · intro T hT hsep
    rw [separates_gate_iff h, separates_input_iff ha, separates_input_iff hb] at hsep
    have hn : n ∉ T := by
      intro hn
      have hn := hT.1 hn
      rw [Finset.mem_insert, Finset.mem_singleton] at hn
      rcases hn with rfl | rfl
      · rw [h] at ha
        cases ha
      · rw [h] at hb
        cases hb
    obtain ⟨haT, hbT⟩ := hsep.resolve_left hn
    exact hT.2 (Finset.insert_subset haT (Finset.singleton_subset_iff.mpr hbT))

/-- An irredundant set of a gate is the gate itself or a union of irredundant sets of the fanins. -/
theorem Irredundant.of_gate (h : g.nodes[n]? = some (.gate a b)) (hS : g.Irredundant S n) :
    S = {n} ∨ ∃ A B, g.Irredundant A a.node ∧ g.Irredundant B b.node ∧ S = A ∪ B := by
  rcases (separates_gate_iff h).mp hS.1 with hn | ⟨ha, hb⟩
  · exact .inl (hS.eq_singleton hn)
  · obtain ⟨A, hAS, hA⟩ := ha.exists_irredundant
    obtain ⟨B, hBS, hB⟩ := hb.exists_irredundant
    -- The two parts separate together, so nothing else is in `S`.
    refine .inr ⟨A, B, hA, hB, (hS.eq_of_subset ?_ (Finset.union_subset hAS hBS)).symm⟩
    exact (separates_gate_iff h).mpr (.inr
      ⟨hA.1.mono Finset.subset_union_left, hB.1.mono Finset.subset_union_right⟩)

end Graph

end AndInverter
