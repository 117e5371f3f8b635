import AndInverter.Proofs.Cut.Minimality
import AndInverter.Proofs.Cut.Separation

/-!
# The cuts of a node

The family of a node, made from complete families of its fanins, lists exactly the irredundant cuts
within the bound, each once and in order. A union that is not minimal among the candidates of a
gate is redundant, since some irredundant cut lies below it and is a candidate too.
-/

namespace AndInverter

variable {g : Graph} {k id i : Nat} {a b : Edge} {f h : CutFamily} {c : Cut}
  {earlier : Array CutFamily}

structure CutFamily.Lists (f : CutFamily) (g : Graph) (k id : Nat) : Prop where
  mem_iff {c : Cut} : c ∈ f.cuts ↔ c.size ≤ k ∧ g.Irredundant c.leafSet id
  sorted : f.cuts.Pairwise CutFamily.Precedes

def CutFamily.merges (k : Nat) (f h : CutFamily) : List Cut :=
  f.cuts.flatMap fun a => h.cuts.filterMap fun b => a.merge? b k

namespace CutFamily

theorem mem_merges : c ∈ merges k f h ↔
    c.size ≤ k ∧ ∃ a ∈ f.cuts, ∃ b ∈ h.cuts, c.leafSet = a.leafSet ∪ b.leafSet := by
  simp only [merges, List.mem_flatMap, List.mem_filterMap, Cut.merge?_eq_some_iff_leafSet]
  constructor
  · rintro ⟨a, ha, b, hb, hc, hk⟩
    exact ⟨hk, a, ha, b, hb, hc⟩
  · rintro ⟨hk, a, ha, b, hb, hc⟩
    exact ⟨a, ha, b, hb, hc, hk⟩

theorem unions_eq_ofList : FeasibleCuts.unions k f h = ofList (merges k f h) := by
  rw [FeasibleCuts.unions, ofList, merges, List.foldl_flatMap]
  congr 1
  funext acc a
  rw [List.foldl_filterMap]
  congr 1
  funext acc b
  cases a.merge? b k <;> rfl

theorem lists_constant (hn : g.nodes[id]? = some .constant) :
    (empty.insert .empty).Lists g k id := by
  refine ⟨@fun c => ?_, List.pairwise_singleton _ _⟩
  have hc : c ∈ (empty.insert .empty).cuts ↔ c = .empty := List.mem_singleton
  rw [hc, Graph.irredundant_constant_iff hn, ← Cut.leafSet_empty, Cut.leafSet_inj, iff_and_self]
  rintro rfl
  exact Nat.zero_le k

theorem lists_input (hk : 0 < k) (hn : g.nodes[id]? = some (.input i)) :
    (empty.insert (.trivial id)).Lists g k id := by
  refine ⟨@fun c => ?_, List.pairwise_singleton _ _⟩
  have hc : c ∈ (empty.insert (.trivial id)).cuts ↔ c = .trivial id := List.mem_singleton
  rw [hc, Graph.irredundant_input_iff hn, ← Cut.leafSet_trivial, Cut.leafSet_inj, iff_and_self]
  rintro rfl
  exact hk

/-- The cuts of a list that contains every irredundant one within the bound, and otherwise only
separating ones, are minimal exactly if they are irredundant. -/
theorem minimalIn_iff_irredundant {cs : List Cut} (hsep : ∀ c ∈ cs, g.Separates c.leafSet id)
    (hsize : ∀ c ∈ cs, c.size ≤ k)
    (hirr : ∀ c : Cut, c.size ≤ k → g.Irredundant c.leafSet id → c ∈ cs) :
    MinimalIn cs c ↔ c.size ≤ k ∧ g.Irredundant c.leafSet id := by
  constructor
  · rintro ⟨hc, hmin⟩
    -- The irredundant cut below a minimal one is in the list too, so it is the same cut.
    obtain ⟨T, hT, hTirr⟩ := (hsep c hc).exists_irredundant
    obtain ⟨d, rfl⟩ := Cut.exists_leafSet_eq T
    have hcard := Finset.card_le_card hT
    rw [Cut.card_leafSet, Cut.card_leafSet] at hcard
    have hd := hirr d (hcard.trans (hsize c hc)) hTirr
    have hdc := hmin d hd (Cut.subset_iff_leafSet.mpr hT)
    exact ⟨hsize c hc, hdc ▸ hTirr⟩
  · rintro ⟨hk, hc⟩
    refine ⟨hirr c hk hc, fun d hd hdc => ?_⟩
    exact Cut.leafSet_inj.mp (hc.eq_of_subset (hsep d hd) (Cut.subset_iff_leafSet.mp hdc))

theorem mem_merges_of_irredundant (hn : g.nodes[id]? = some (.gate a b))
    (hf : f.Lists g k a.node) (hh : h.Lists g k b.node) (hk : c.size ≤ k)
    (hc : g.Irredundant c.leafSet id) : c = .trivial id ∨ c ∈ merges k f h := by
  rcases hc.of_gate hn with hc | ⟨A, B, hA, hB, hc⟩
  · exact .inl (Cut.leafSet_inj.mp hc)
  · obtain ⟨d, rfl⟩ := Cut.exists_leafSet_eq A
    obtain ⟨e, rfl⟩ := Cut.exists_leafSet_eq B
    have hd : d.size ≤ c.size := by
      rw [← Cut.card_leafSet, ← Cut.card_leafSet, hc]
      exact Finset.card_le_card Finset.subset_union_left
    have he : e.size ≤ c.size := by
      rw [← Cut.card_leafSet, ← Cut.card_leafSet, hc]
      exact Finset.card_le_card Finset.subset_union_right
    exact .inr (mem_merges.mpr ⟨hk, d, hf.mem_iff.mpr ⟨hd.trans hk, hA⟩,
      e, hh.mem_iff.mpr ⟨he.trans hk, hB⟩, hc⟩)

theorem separates_of_mem_merges (hn : g.nodes[id]? = some (.gate a b))
    (hf : f.Lists g k a.node) (hh : h.Lists g k b.node) (hc : c ∈ merges k f h) :
    g.Separates c.leafSet id := by
  obtain ⟨-, d, hd, e, he, hc⟩ := mem_merges.mp hc
  rw [hc, Graph.separates_gate_iff hn]
  exact .inr ⟨(hf.mem_iff.mp hd).2.1.mono Finset.subset_union_left,
    (hh.mem_iff.mp he).2.1.mono Finset.subset_union_right⟩

theorem lists_gate (hk : 0 < k) (hn : g.nodes[id]? = some (.gate a b))
    (hf : f.Lists g k a.node) (hh : h.Lists g k b.node) :
    ((FeasibleCuts.unions k f h).insert (.trivial id)).sort.Lists g k id := by
  have hfam : (FeasibleCuts.unions k f h).insert (.trivial id) =
      ofList (merges k f h ++ [.trivial id]) := by
    rw [unions_eq_ofList, ofList, ofList, List.foldl_append]
    rfl
  have hkeeps := ofList_keepsMinimal (merges k f h ++ [.trivial id])
  rw [hfam]
  refine ⟨@fun c => ?_, pairwise_sort hkeeps.nodup⟩
  rw [mem_sort, hkeeps.mem_iff]
  apply minimalIn_iff_irredundant
  · intro c hc
    rcases List.mem_append.mp hc with hc | hc
    · exact separates_of_mem_merges hn hf hh hc
    · rw [List.mem_singleton.mp hc]
      exact Graph.separates_of_mem (Finset.mem_singleton_self id)
  · intro c hc
    rcases List.mem_append.mp hc with hc | hc
    · exact (mem_merges.mp hc).1
    · rw [List.mem_singleton.mp hc]
      exact hk
  · intro c hck hc
    rcases mem_merges_of_irredundant hn hf hh hck hc with rfl | hc
    · exact List.mem_append_right _ (List.mem_singleton_self _)
    · exact List.mem_append_left _ hc

theorem Lists.exists_mem (hf : f.Lists g k id) (hk : 0 < k) : ∃ c, c ∈ f.cuts := by
  obtain ⟨T, hT, hirr⟩ := (g.separates_of_mem (Finset.mem_singleton_self id)).exists_irredundant
  obtain ⟨c, rfl⟩ := Cut.exists_leafSet_eq T
  have hcard := Finset.card_le_card hT
  rw [Finset.card_singleton, Cut.card_leafSet] at hcard
  exact ⟨c, hf.mem_iff.mpr ⟨by omega, hirr⟩⟩

end CutFamily

namespace FeasibleCuts

theorem faninFamily_eq_ok {m : Nat} (hk : 0 < k) (hf : f.Lists g k m) (hm : earlier[m]? = some f) :
    faninFamily earlier id m = .ok f := by
  obtain ⟨c, hc⟩ := hf.exists_mem hk
  have hne : f.isEmpty = false := by
    rw [CutFamily.isEmpty, List.isEmpty_eq_false_iff_exists_mem]
    exact ⟨c, hc⟩
  simp [faninFamily, hm, hne]

/-- If the families of the fanins list their cuts, a node gets a family that lists its own. -/
theorem nodeFamily_eq_ok {n : Node} (hk : 0 < k) (hn : g.nodes[id]? = some n)
    (hfanins : ∀ e ∈ n.fanins, ∃ f, earlier[e.node]? = some f ∧ f.Lists g k e.node) :
    ∃ f, nodeFamily k earlier id n = .ok f ∧
      if n.isOutput then f = .empty else f.Lists g k id := by
  cases n with
  | constant => exact ⟨_, rfl, CutFamily.lists_constant hn⟩
  | input i => exact ⟨_, rfl, CutFamily.lists_input hk hn⟩
  | gate a b =>
    obtain ⟨f, hf, hfl⟩ := hfanins a (by simp)
    obtain ⟨h, hh, hhl⟩ := hfanins b (by simp)
    refine ⟨_, ?_, CutFamily.lists_gate hk hn hfl hhl⟩
    rw [nodeFamily, faninFamily_eq_ok hk hfl hf, faninFamily_eq_ok hk hhl hh]
    rfl
  | output i e => exact ⟨_, rfl, rfl⟩

end FeasibleCuts

end AndInverter
