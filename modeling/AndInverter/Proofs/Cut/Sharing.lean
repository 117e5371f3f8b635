import AndInverter.Cut.Sharing
import AndInverter.Proofs.Cut.Schedule

/-!
# Shared cuts are complete

The index holds under each cut the gates that it counts for, so inverting a complete table gives
each set of leaves together with all gates of which it is an irredundant cut. Cuts are compared by
their leaves, hence no set of leaves is split over two groups.
-/

namespace AndInverter

namespace Cut

variable {a b : Cut}

instance : Std.LawfulEqOrd Cut where
  compare_self {c} := Std.ReflOrd.compare_self (a := c.leaves)
  eq_of_compare h := Cut.ext (Std.LawfulEqOrd.eq_of_compare h)

theorem compare_eq_lt_iff : compare a b = .lt ↔ List.Lex (· < ·) a.leaves b.leaves :=
  CutFamily.compare_eq_lt_iff

end Cut

namespace SharedCut

variable {g : Graph} {t : FeasibleCuts} {bounds : SharingBounds} {index : Index} {c d : Cut}
  {k n : Nat} {cs : List Cut} {s : SharedCut} {families : Array CutFamily}
  {a b : Edge}

theorem counts_eq_true_iff : counts bounds n c = true ↔
    c.leafSet.Nonempty ∧ (bounds.countTrivial = true ∨ c.leafSet ≠ {n}) := by
  have hempty : c.isEmpty = true ↔ c.leafSet = ∅ := by
    rw [Cut.isEmpty, List.isEmpty_iff, Cut.leafSet, List.toFinset_eq_empty_iff]
  have htrivial : c.isTrivial n = true ↔ c.leafSet = {n} := by
    rw [Cut.isTrivial, beq_iff_eq, ← Cut.leafSet_trivial, Cut.leafSet_inj]
    exact ⟨fun h => Cut.ext h, fun h => congrArg Cut.leaves h⟩
  rw [counts, Bool.and_eq_true, Bool.or_eq_true, Bool.not_eq_true', Bool.not_eq_true',
    ← Bool.not_eq_true, ← Bool.not_eq_true, hempty, htrivial, Finset.nonempty_iff_ne_empty]

def Index.gates (index : Index) (c : Cut) : List Nat := index.getD c []

theorem Index.gates_add (index : Index) (n : Nat) (d c : Cut) :
    (index.add n d).gates c = if d = c then n :: index.gates c else index.gates c := by
  unfold Index.gates Index.add
  rw [Std.TreeMap.getD_alter]
  by_cases h : d = c
  · subst h
    rw [if_pos Std.ReflOrd.compare_self, if_pos rfl, Option.getD_some,
      Std.TreeMap.getD_eq_getD_getElem?]
  · have hne : compare d c ≠ .eq := fun heq => h (Std.LawfulEqOrd.eq_of_compare heq)
    rw [if_neg hne, if_neg h]

theorem Index.gates_foldl_add (hcs : cs.Nodup) (index : Index) (n : Nat) (c : Cut) :
    (cs.foldl (fun index c => index.add n c) index).gates c =
      if c ∈ cs then n :: index.gates c else index.gates c := by
  induction cs generalizing index with
  | nil => simp
  | cons d cs ih =>
    obtain ⟨hd, hcs⟩ := List.nodup_cons.mp hcs
    rw [List.foldl_cons, ih hcs, Index.gates_add]
    by_cases h : d = c
    · subst h
      simp [hd]
    · simp [h, Ne.symm h]

theorem Index.gates_foldl_foldl_add {cuts : Nat → List Cut} (hcuts : ∀ n, (cuts n).Nodup)
    (ns : List Nat) (index : Index) (c : Cut) :
    (ns.foldl (fun index n => (cuts n).foldl (fun index c => index.add n c) index) index).gates c =
      (ns.filter fun n => c ∈ cuts n).reverse ++ index.gates c := by
  induction ns generalizing index with
  | nil => rfl
  | cons n ns ih =>
    rw [List.foldl_cons, ih, Index.gates_foldl_add (hcuts n), List.filter_cons]
    by_cases h : c ∈ cuts n
    · simp [h]
    · simp [h]

def sharers (g : Graph) (t : FeasibleCuts) (bounds : SharingBounds) (c : Cut) : List Nat :=
  g.gates.filter fun n => c ∈ (t.cuts n).filter (counts bounds n)

theorem mem_ofTable_iff (hcuts : ∀ n, (t.cuts n).Nodup) (hpos : 0 < bounds.minGates) :
    s ∈ ofTable g t bounds ↔
      s.gates = sharers g t bounds s.leaves ∧ bounds.minGates ≤ s.gates.length := by
  have hgates := Index.gates_foldl_foldl_add
    (fun n => (hcuts n).filter (counts bounds n)) g.gates ∅ s.leaves
  have hempty : (∅ : Index).gates s.leaves = [] := Std.TreeMap.getD_emptyc
  rw [hempty, List.append_nil] at hgates
  unfold ofTable sharers
  generalize g.gates.foldl _ (∅ : Index) = index at hgates ⊢
  rw [Index.gates, Std.TreeMap.getD_eq_getD_getElem?] at hgates
  simp only [List.mem_filterMap, Prod.exists, Std.TreeMap.mem_toList_iff_getElem?_eq_some]
  constructor
  · rintro ⟨c, ns, hns, hs⟩
    split at hs
    · rename_i hle
      cases hs
      rw [hns, Option.getD_some] at hgates
      rw [hgates, List.reverse_reverse]
      rw [hgates, List.length_reverse] at hle
      exact ⟨rfl, hle⟩
    · cases hs
  · rintro ⟨hs, hle⟩
    rw [← hs] at hgates
    cases hns : index[s.leaves]? with
    | none =>
      rw [hns, Option.getD_none] at hgates
      rw [List.reverse_eq_nil_iff.mp hgates.symm] at hle
      exact absurd hle (Nat.not_le.mpr hpos)
    | some ns =>
      rw [hns, Option.getD_some] at hgates
      refine ⟨s.leaves, ns, hns, ?_⟩
      rw [hgates, List.length_reverse, if_pos hle, List.reverse_reverse]

theorem pairwise_ofTable (g : Graph) (t : FeasibleCuts) (bounds : SharingBounds) :
    (ofTable g t bounds).Pairwise fun a b => List.Lex (· < ·) a.leaves.leaves b.leaves.leaves := by
  unfold ofTable
  rw [List.pairwise_filterMap]
  refine Std.TreeMap.ordered_keys_toList.imp fun {p q} hpq a ha b hb => ?_
  rw [Cut.compare_eq_lt_iff] at hpq
  rw [Option.ite_none_right_eq_some, Option.some.injEq] at ha hb
  rw [← ha.2, ← hb.2]
  exact hpq

theorem pairwise_sharers (g : Graph) (t : FeasibleCuts) (bounds : SharingBounds) (c : Cut) :
    (sharers g t bounds c).Pairwise (· < ·) :=
  (List.pairwise_lt_range.filter _).filter _

theorem mem_sharers_iff (hfs : FeasibleCuts.Complete g k families) :
    n ∈ sharers g ⟨k, families⟩ bounds c ↔
      (∃ a b, g.nodes[n]? = some (.gate a b)) ∧ (c.size ≤ k ∧ g.Irredundant c.leafSet n) ∧
        c.leafSet.Nonempty ∧ (bounds.countTrivial = true ∨ c.leafSet ≠ {n}) := by
  rw [sharers, List.mem_filter, decide_eq_true_iff, List.mem_filter, counts_eq_true_iff,
    Graph.mem_gates]
  refine and_congr_right ?_
  rintro ⟨a, b, hn⟩
  rw [hfs.mem_cuts_iff hn rfl]

/-- The groups of a graph for `k` leaves: each set of at most `k` leaves with all gates of which it
is an irredundant cut, if there are enough of them. -/
structure Groups (g : Graph) (k : Nat) (bounds : SharingBounds) (shared : List SharedCut) :
    Prop where
  exists_iff (S R : Finset Nat) :
    (∃ s ∈ shared, s.leaves.leafSet = S ∧ s.gates.toFinset = R) ↔
      S.Nonempty ∧ S.card ≤ k ∧
        (∀ n, n ∈ R ↔ (∃ a b, g.nodes[n]? = some (.gate a b)) ∧ g.Irredundant S n ∧
          (bounds.countTrivial = true ∨ S ≠ {n})) ∧
        bounds.minGates ≤ R.card
  sorted : shared.Pairwise fun a b => List.Lex (· < ·) a.leaves.leaves b.leaves.leaves
  distinct : shared.Pairwise fun a b => a.leaves.leafSet ≠ b.leaves.leafSet
  leaves_ascending {s : SharedCut} : s ∈ shared → s.leaves.leaves.Pairwise (· < ·)
  gates_ascending {s : SharedCut} : s ∈ shared → s.gates.Pairwise (· < ·)

theorem distinct_of_sorted {shared : List SharedCut}
    (h : shared.Pairwise fun a b => List.Lex (· < ·) a.leaves.leaves b.leaves.leaves) :
    shared.Pairwise fun a b => a.leaves.leafSet ≠ b.leaves.leafSet := by
  refine h.imp fun {a b} hab heq => ?_
  rw [← Cut.compare_eq_lt_iff, Cut.leafSet_inj.mp heq, Std.ReflOrd.compare_self] at hab
  cases hab

theorem groups_ofTable (hpos : 0 < bounds.minGates) (hfs : FeasibleCuts.Complete g k families) :
    Groups g k bounds (ofTable g ⟨k, families⟩ bounds) := by
  have hmem {s : SharedCut} := mem_ofTable_iff (g := g) (s := s) hfs.nodup_cuts hpos
  have hcard (c : Cut) : (sharers g ⟨k, families⟩ bounds c).toFinset.card =
      (sharers g ⟨k, families⟩ bounds c).length :=
    List.toFinset_card_of_nodup ((pairwise_sharers _ _ _ _).imp Nat.ne_of_lt)
  refine ⟨fun S R => ⟨?_, ?_⟩, pairwise_ofTable g _ _, distinct_of_sorted (pairwise_ofTable g _ _),
    fun {s} _ => s.leaves.ascending, fun {s} hs => ?_⟩
  · rintro ⟨s, hs, rfl, rfl⟩
    obtain ⟨hgates, hle⟩ := hmem.mp hs
    -- Some gate is in the group, and the leaves are a cut of it.
    obtain ⟨m, hm⟩ := List.exists_mem_of_length_pos (Nat.lt_of_lt_of_le hpos hle)
    rw [hgates] at hm hle ⊢
    obtain ⟨-, ⟨hsize, -⟩, hne, -⟩ := (mem_sharers_iff hfs).mp hm
    refine ⟨hne, s.leaves.card_leafSet.trans_le hsize, fun n => ?_, by rwa [hcard]⟩
    rw [List.mem_toFinset, mem_sharers_iff hfs]
    simp only [hsize, hne, true_and]
  · rintro ⟨hne, hsize, hR, hle⟩
    obtain ⟨c, rfl⟩ := Cut.exists_leafSet_eq S
    have hgates : (sharers g ⟨k, families⟩ bounds c).toFinset = R := by
      ext n
      rw [List.mem_toFinset, mem_sharers_iff hfs, hR, ← c.card_leafSet]
      simp only [hsize, hne, true_and]
    refine ⟨⟨c, sharers g ⟨k, families⟩ bounds c⟩, hmem.mpr ⟨rfl, ?_⟩, rfl, hgates⟩
    rwa [← hcard, hgates]
  · rw [(hmem.mp hs).1]
    exact pairwise_sharers _ _ _ _

/-- The shared cuts of a graph are found, and are its groups; so are those of a table of the graph
for any other number of leaves. -/
theorem ofGraph_groups (hg : g.Built) (hleaves : 0 < bounds.maxLeaves)
    (hgates : 0 < bounds.minGates) (schedule : Schedule) :
    (∃ shared, ofGraph g bounds schedule = .ok shared ∧
      Groups g bounds.maxLeaves bounds shared) ∧
    ∀ k, 0 < k → ∀ schedule', ∃ t, FeasibleCuts.ofGraph g k schedule' = .ok t ∧
      Groups g k bounds (ofTable g t bounds) := by
  have htable (k : Nat) (hk : 0 < k) (schedule : Schedule) :
      ∃ t, FeasibleCuts.ofGraph g k schedule = .ok t ∧
        Groups g k bounds (ofTable g t bounds) := by
    obtain ⟨families, hok, hcomplete⟩ := FeasibleCuts.ofGraph_eq_ok hg.wellFormed hk schedule
    exact ⟨_, hok, groups_ofTable hgates hcomplete⟩
  constructor
  · obtain ⟨t, ht, hgroups⟩ := htable _ hleaves schedule
    refine ⟨ofTable g t bounds, ?_, hgroups⟩
    rw [ofGraph, ht]
    rfl
  · exact htable

theorem gate_reconvergent (h : Graph.reconvergent.nodes[n]? = some (.gate a b)) :
    n = 3 ∨ n = 4 ∨ n = 5 := by
  match n with
  | 0 | 1 | 2 | 6 => cases h
  | 3 | 4 | 5 => omega
  | n + 7 => cases h

/-- The two inputs are an irredundant cut of all three gates, which are found as one group. -/
theorem ofGraph_groups_reconvergent : Graph.reconvergent.Built ∧
    0 < (⟨2, 3, false⟩ : SharingBounds).maxLeaves ∧ 0 < (⟨2, 3, false⟩ : SharingBounds).minGates ∧
    ∃ shared, ofGraph Graph.reconvergent ⟨2, 3, false⟩ .byLevels = .ok shared ∧
      ∃ s ∈ shared, s.leaves.leafSet = {1, 2} ∧ s.gates.toFinset = {3, 4, 5} := by
  have hleaves : 0 < (⟨2, 3, false⟩ : SharingBounds).maxLeaves := by decide
  have hgates : 0 < (⟨2, 3, false⟩ : SharingBounds).minGates := by decide
  obtain ⟨shared, hok, hgroups⟩ :=
    (ofGraph_groups Graph.reconvergent_built hleaves hgates .byLevels).1
  refine ⟨Graph.reconvergent_built, hleaves, hgates, shared, hok, ?_⟩
  rw [hgroups.exists_iff]
  have h3 : Graph.reconvergent.nodes[3]? = some (.gate ⟨1, false⟩ ⟨2, false⟩) := rfl
  have h4 : Graph.reconvergent.nodes[4]? = some (.gate ⟨1, true⟩ ⟨2, true⟩) := rfl
  have h5 : Graph.reconvergent.nodes[5]? = some (.gate ⟨3, true⟩ ⟨4, true⟩) := rfl
  refine ⟨by decide, by decide, fun n => ⟨fun hn => ?_, ?_⟩, by decide⟩
  · simp only [Finset.mem_insert, Finset.mem_singleton] at hn
    rcases hn with rfl | rfl | rfl
    · exact ⟨⟨_, _, h3⟩, Graph.irredundant_inputs h3 rfl rfl, .inr (by decide)⟩
    · exact ⟨⟨_, _, h4⟩, Graph.irredundant_inputs h4 rfl rfl, .inr (by decide)⟩
    · exact ⟨⟨_, _, h5⟩, FeasibleCuts.irredundant_reconvergent, .inr (by decide)⟩
  · rintro ⟨⟨a, b, hn⟩, -⟩
    simpa using gate_reconvergent hn

end SharedCut

end AndInverter
