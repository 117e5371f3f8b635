import AndInverter.Cut.Validity
import AndInverter.Proofs.Cut.Separation
import AndInverter.Proofs.Graph.Building
import AndInverter.Proofs.Graph.Cone

/-!
# The search for a cut is exact

The search that tests a cut ends in every graph. What it has left behind are leaves and nodes whose
fanins it has searched or still has to search. So a list of leaves passes the test exactly if it
meets every path back to a primary input, and is minimal exactly if no leaf occurs twice and no
proper subset meets every path.
-/

namespace AndInverter

theorem Except.allM_eq_ok {ε α : Type} {f : α → Except ε Bool} {P : α → Prop} {as : List α}
    (h : ∀ a ∈ as, ∃ b, f a = .ok b ∧ (b = true ↔ P a)) :
    ∃ b, as.allM f = .ok b ∧ (b = true ↔ ∀ a ∈ as, P a) := by
  induction as with
  | nil => exact ⟨true, rfl, by simp⟩
  | cons a as ih =>
    obtain ⟨⟨b, hb, hP⟩, has⟩ := List.forall_mem_cons.mp h
    obtain ⟨c, hc, hall⟩ := ih has
    rw [List.allM, hb, ok_bind, List.forall_mem_cons, ← hP, ← hall]
    cases b with
    | false => exact ⟨false, rfl, by simp⟩
    | true => exact ⟨c, hc, by simp⟩

namespace Graph

variable {g : Graph} {S : Finset Nat} {leaves stack rest : List Nat} {searched : Array Bool}
  {id i node : Nat}

def Found (searched : Array Bool) (stack : List Nat) (i : Nat) : Prop :=
  searched[i]? = some true ∨ i ∈ stack

/-- Every node that has been searched is in the set, or it is no primary input and its fanins have
been found. -/
def Explored (g : Graph) (S : Finset Nat) (searched : Array Bool) (stack : List Nat) : Prop :=
  ∀ id, searched[id]? = some true → id ∈ S ∨ ∃ n, g.nodes[id]? = some n ∧ n.isInput = false ∧
    ∀ e ∈ n.fanins, Found searched stack e.node

namespace Found

theorem pop (h : Found searched (id :: stack) i) (hid : searched[id]? = some true) :
    Found searched stack i := by
  rcases h with h | h
  · exact .inl h
  · rcases List.mem_cons.mp h with rfl | h
    · exact .inl hid
    · exact .inr h

theorem mark (h : Found searched (id :: stack) i) (hid : searched[id]? = some false) :
    Found (searched.setIfInBounds id true) (rest ++ stack) i := by
  have hlt := (Array.getElem?_eq_some_iff.mp hid).1
  by_cases heq : i = id
  · rw [heq]
    exact .inl (Array.getElem?_setIfInBounds_self_of_lt hlt)
  · rcases h with h | h
    · exact .inl ((Array.getElem?_setIfInBounds_ne (Ne.symm heq)).trans h)
    · exact .inr (List.mem_append_right _ ((List.mem_cons.mp h).resolve_left heq))

end Found

namespace Explored

theorem fresh (g : Graph) (S : Finset Nat) (n : Nat) (stack : List Nat) :
    g.Explored S (.replicate n false) stack := by
  intro id hid
  obtain ⟨hlt, htrue⟩ := Array.getElem?_eq_some_iff.mp hid
  rw [Array.getElem_replicate] at htrue
  cases htrue

theorem pop (h : g.Explored S searched (id :: stack)) (hid : searched[id]? = some true) :
    g.Explored S searched stack := by
  intro i hi
  refine (h i hi).imp_right fun ⟨n, hn, hin, hfanins⟩ => ⟨n, hn, hin, fun e he => ?_⟩
  exact (hfanins e he).pop hid

/-- A node of the set is left behind as it is, any other one with its fanins on the stack. -/
theorem mark (h : g.Explored S searched (id :: stack)) (hid : searched[id]? = some false)
    (hnode : id ∈ S ∨ ∃ n, g.nodes[id]? = some n ∧ n.isInput = false ∧
      ∀ e ∈ n.fanins, e.node ∈ rest) :
    g.Explored S (searched.setIfInBounds id true) (rest ++ stack) := by
  intro i hi
  by_cases heq : i = id
  · rw [heq]
    refine hnode.imp_right fun ⟨n, hn, hin, hfanins⟩ => ⟨n, hn, hin, fun e he => ?_⟩
    exact .inr (List.mem_append_left _ (hfanins e he))
  · rw [Array.getElem?_setIfInBounds_ne (Ne.symm heq)] at hi
    refine (h i hi).imp_right fun ⟨n, hn, hin, hfanins⟩ => ⟨n, hn, hin, fun e he => ?_⟩
    exact (hfanins e he).mark hid

/-- With nothing left to search, no path from a searched node gets past the set. -/
theorem separates (h : g.Explored S searched []) (hid : searched[id]? = some true) :
    g.Separates S id := by
  intro p hp
  induction hp with
  | @here n i hn =>
    rcases h n hid with hmem | ⟨m, hm, hin, -⟩
    · exact ⟨n, List.mem_singleton_self n, hmem⟩
    · cases hn.symm.trans hm
      cases hin
  | @back n m p hm _ ih =>
    rcases h n hid with hmem | ⟨_, hn, -, hfanins⟩
    · exact ⟨n, List.mem_cons_self, hmem⟩
    · obtain ⟨_, hn', e, he, rfl⟩ := mem_faninNodes.mp hm
      cases hn.symm.trans hn'
      obtain ⟨x, hx, hxS⟩ := ih ((hfanins e he).resolve_right List.not_mem_nil)
      exact ⟨x, List.mem_cons_of_mem n hx, hxS⟩

end Explored

theorem mem_reverse_fanins {n : Node} :
    i ∈ (n.fanins.map Edge.node).reverse ↔ ∃ e ∈ n.fanins, e.node = i := by
  rw [List.mem_reverse, List.mem_map]

/-- The search ends with an answer, since the fanins of all nodes exist. -/
theorem WellFormed.exists_isStopped (hg : g.WellFormed) (leaves : List Nat)
    (hsize : searched.size = g.size) (hstack : ∀ i ∈ stack, i < g.size) :
    ∃ b, g.isStopped leaves searched stack = .ok b := by
  fun_induction g.isStopped leaves searched stack with
  | case1 => exact ⟨true, rfl⟩
  | case2 searched id stack hid =>
    have hlt := hstack id List.mem_cons_self
    have hle := Array.getElem?_eq_none_iff.mp hid
    omega
  | case3 searched id stack _ ih => exact ih hsize fun i hi => hstack i (List.mem_cons_of_mem id hi)
  | case4 searched id stack _ searched' _ ih =>
    exact ih (Array.size_setIfInBounds.trans hsize) fun i hi =>
      hstack i (List.mem_cons_of_mem id hi)
  | case5 searched id stack _ _ hnone =>
    have hlt := hstack id List.mem_cons_self
    have hle : g.size ≤ id := Array.getElem?_eq_none_iff.mp hnone
    omega
  | case6 => exact ⟨false, rfl⟩
  | case7 searched id stack _ searched' _ n hn _ ih =>
    refine ih (Array.size_setIfInBounds.trans hsize) fun i hi => ?_
    rcases List.mem_append.mp hi with hi | hi
    · obtain ⟨e, he, rfl⟩ := mem_reverse_fanins.mp hi
      exact (hg.drives_fanin hn he).lt_size
    · exact hstack i (List.mem_cons_of_mem id hi)

/-- If the search is stopped everywhere, the leaves separate all nodes that it has found. -/
theorem Explored.separates_of_isStopped (h : g.Explored leaves.toFinset searched stack)
    (hrun : g.isStopped leaves searched stack = .ok true) (hi : Found searched stack i) :
    g.Separates leaves.toFinset i := by
  fun_induction g.isStopped leaves searched stack with
  | case1 => exact h.separates (hi.resolve_right List.not_mem_nil)
  | case2 | case5 | case6 => cases hrun
  | case3 searched id stack hid ih => exact ih (h.pop hid) hrun (hi.pop hid)
  | case4 searched id stack hid _ hleaf ih =>
    have hmem : id ∈ leaves.toFinset := List.mem_toFinset.mpr (List.contains_iff_mem.mp hleaf)
    have hexplored : g.Explored leaves.toFinset (searched.setIfInBounds id true) ([] ++ stack) :=
      h.mark hid (.inl hmem)
    have hfound : Found (searched.setIfInBounds id true) ([] ++ stack) i := hi.mark hid
    exact ih hexplored hrun hfound
  | case7 searched id stack hid _ _ n hn hin ih =>
    refine ih (h.mark hid (.inr ⟨n, hn, Bool.eq_false_iff.mpr hin, fun e he => ?_⟩)) hrun
      (hi.mark hid)
    exact mem_reverse_fanins.mpr ⟨e, he, rfl⟩

/-- If the search gets through to a primary input, a path from the stack does. -/
theorem exists_not_separates_of_isStopped (hrun : g.isStopped leaves searched stack = .ok false) :
    ∃ i ∈ stack, ¬ g.Separates leaves.toFinset i := by
  have hmem {id : Nat} (hleaf : ¬ leaves.contains id = true) : id ∉ leaves.toFinset := by
    rwa [List.mem_toFinset, ← List.contains_iff_mem]
  fun_induction g.isStopped leaves searched stack with
  | case1 | case2 | case5 => cases hrun
  | case3 _ _ _ _ ih | case4 _ _ _ _ _ _ ih =>
    obtain ⟨i, hi, hsep⟩ := ih hrun
    exact ⟨i, List.mem_cons_of_mem _ hi, hsep⟩
  | case6 searched id stack _ hleaf n hn hin =>
    refine ⟨id, List.mem_cons_self, fun hsep => ?_⟩
    rcases (separates_iff hn).mp hsep with h | h
    · exact hmem hleaf h
    · exact absurd hin (Bool.eq_false_iff.mp h.1)
  | case7 searched id stack _ _ hleaf n hn _ ih =>
    obtain ⟨i, hi, hsep⟩ := ih hrun
    rcases List.mem_append.mp hi with hi | hi
    · obtain ⟨e, he, rfl⟩ := mem_reverse_fanins.mp hi
      refine ⟨id, List.mem_cons_self, fun hid => ?_⟩
      rcases (separates_iff hn).mp hid with h | h
      · exact hmem hleaf h
      · exact hsep (h.2 e he)
    · exact ⟨i, List.mem_cons_of_mem _ hi, hsep⟩

/-- The test of a cut answers for every node, and says whether the leaves separate it. -/
theorem WellFormed.isCut_eq_ok (hg : g.WellFormed) (hnode : node < g.size) (leaves : List Nat) :
    ∃ b, g.isCut node leaves = .ok b ∧ (b = true ↔ g.Separates leaves.toFinset node) := by
  have hstack : ∀ i ∈ [node], i < g.size := List.forall_mem_singleton.mpr hnode
  have hroot : Found (.replicate g.size false) [node] node := .inr (List.mem_singleton_self node)
  obtain ⟨b, hb⟩ := hg.exists_isStopped leaves Array.size_replicate hstack
  refine ⟨b, hb, ?_⟩
  cases b with
  | false =>
    obtain ⟨i, hi, hsep⟩ := exists_not_separates_of_isStopped hb
    rw [List.mem_singleton.mp hi] at hsep
    exact iff_of_false Bool.false_ne_true hsep
  | true => exact iff_of_true rfl ((Explored.fresh g _ _ _).separates_of_isStopped hb hroot)

theorem mem_eraseIdx_of_ne {x : Nat} (hx : x ∈ leaves) (hi : i < leaves.length)
    (hne : x ≠ leaves[i]) : x ∈ leaves.eraseIdx i := by
  obtain ⟨j, hj, rfl⟩ := List.mem_iff_getElem.mp hx
  rw [List.mem_eraseIdx_iff_getElem]
  exact ⟨j, hj, fun heq => hne (by simp only [heq]), rfl⟩

/-- Separating leaves that cannot spare any one of their positions are irredundant, without a leaf
that occurs twice. -/
theorem forall_not_separates_eraseIdx_iff (hsep : g.Separates leaves.toFinset node) :
    (∀ i < leaves.length, ¬ g.Separates (leaves.eraseIdx i).toFinset node) ↔
      leaves.Nodup ∧ g.Irredundant leaves.toFinset node := by
  constructor
  · intro h
    refine ⟨List.pairwise_iff_getElem.mpr fun i j hi hj hij heq => ?_, hsep, fun T hT hTsep => ?_⟩
    · -- The first of two equal leaves is not missed.
      refine h i hi (hsep.mono fun x hx => ?_)
      have hx := List.mem_toFinset.mp hx
      by_cases hxi : x = leaves[i]
      · rw [hxi, List.mem_toFinset, List.mem_eraseIdx_iff_getElem]
        exact ⟨j, hj, by omega, heq.symm⟩
      · exact List.mem_toFinset.mpr (mem_eraseIdx_of_ne hx hi hxi)
    · obtain ⟨x, hx, hxT⟩ := Finset.exists_of_ssubset hT
      obtain ⟨i, hi, rfl⟩ := List.mem_iff_getElem.mp (List.mem_toFinset.mp hx)
      refine h i hi (hTsep.mono fun y hy => ?_)
      have hne : y ≠ leaves[i] := fun heq => hxT (heq ▸ hy)
      exact List.mem_toFinset.mpr (mem_eraseIdx_of_ne (List.mem_toFinset.mp (hT.1 hy)) hi hne)
  · rintro ⟨hnodup, hirredundant⟩ i hi
    apply hirredundant.2
    rw [Finset.ssubset_iff_of_subset fun x hx => List.mem_toFinset.mpr
      (List.eraseIdx_subset (List.mem_toFinset.mp hx))]
    refine ⟨leaves[i], List.mem_toFinset.mpr (List.getElem_mem hi), fun hmem => ?_⟩
    obtain ⟨j, hj, hne, heq⟩ := List.mem_eraseIdx_iff_getElem.mp (List.mem_toFinset.mp hmem)
    exact hne ((hnodup.getElem_inj_iff).mp heq)

theorem WellFormed.isMinimalCut_eq_ok (hg : g.WellFormed) (hnode : node < g.size)
    (leaves : List Nat) : ∃ b, g.isMinimalCut node leaves = .ok b ∧
      (b = true ↔ leaves.Nodup ∧ g.Irredundant leaves.toFinset node) := by
  obtain ⟨b, hb, hsep⟩ := hg.isCut_eq_ok hnode leaves
  rw [isMinimalCut, hb, Except.ok_bind]
  cases b with
  | false =>
    have hnot : ¬ g.Separates leaves.toFinset node := fun h => Bool.false_ne_true (hsep.mpr h)
    exact ⟨false, rfl, iff_of_false Bool.false_ne_true fun h => hnot h.2.1⟩
  | true =>
    rw [← forall_not_separates_eraseIdx_iff (hsep.mp rfl)]
    simp only [← List.mem_range]
    refine Except.allM_eq_ok fun i _ => ?_
    obtain ⟨c, hc, hrest⟩ := hg.isCut_eq_ok hnode (leaves.eraseIdx i)
    refine ⟨!c, by rw [hc]; rfl, ?_⟩
    rw [← hrest, Bool.not_eq_true', Bool.not_eq_true]

/-- Both tests answer for every node and all lists of leaves, in any order and with duplicates. The
first says whether the leaves meet every path from the node back to a primary input, the second
whether moreover no leaf occurs twice and no proper subset meets every path. -/
theorem Built.cut_tests_exact (hg : g.Built) (hnode : node < g.size) (leaves : List Nat) :
    (∃ b, g.isCut node leaves = .ok b ∧
      (b = true ↔ ∀ p, g.InputPath node p → ∃ m ∈ p, m ∈ leaves)) ∧
    ∃ b, g.isMinimalCut node leaves = .ok b ∧
      (b = true ↔ leaves.Nodup ∧ g.Irredundant leaves.toFinset node) := by
  refine ⟨?_, hg.wellFormed.isMinimalCut_eq_ok hnode leaves⟩
  obtain ⟨b, hb, hsep⟩ := hg.wellFormed.isCut_eq_ok hnode leaves
  simp only [Separates, List.mem_toFinset] at hsep
  exact ⟨b, hb, hsep⟩

/-- Two inputs are a minimal cut above a reconvergence, in either order but not with one of them
twice. -/
theorem Built.cut_tests_exact_reconvergent : reconvergent.Built ∧ 5 < reconvergent.size ∧
    reconvergent.isCut 5 [2, 1, 2] = .ok true ∧ reconvergent.isMinimalCut 5 [2, 1, 2] = .ok false ∧
    [2, 1].Nodup ∧ reconvergent.Irredundant [2, 1].toFinset 5 := by
  have hcut : reconvergent.isCut 5 [2, 1, 2] = .ok true := by decide +kernel
  have htwice : reconvergent.isMinimalCut 5 [2, 1, 2] = .ok false := by decide +kernel
  have honce : reconvergent.isMinimalCut 5 [2, 1] = .ok true := by decide +kernel
  obtain ⟨-, b, hb, hiff⟩ := Built.cut_tests_exact reconvergent_built (by decide : 5 < _) [2, 1]
  cases honce.symm.trans hb
  exact ⟨reconvergent_built, by decide, hcut, htwice, hiff.mp rfl⟩

end Graph

end AndInverter
