import AndInverter.Proofs.Cut.Schedule
import Mathlib.Data.List.Forall2
import Mathlib.Data.List.Sort

/-!
# Levels can be worked through in any order

A complete table is determined by the graph and the bound, since a sorted family is determined by
its cuts. So both schedules find the same table, whatever the order inside a level, and every node
reads only families of lower levels, which are final when it does.
-/

namespace AndInverter

variable {g : Graph} {k id : Nat} {families families' : Array CutFamily}

namespace CutFamily

theorem precedes_asymm {a b : Cut} (hab : Precedes a b) : ¬ Precedes b a := by
  rintro (hlt | ⟨heq, hba⟩)
  · rcases hab with h | ⟨h, -⟩ <;> omega
  · rcases hab with h | ⟨-, hab⟩
    · omega
    · rw [← compare_eq_lt_iff] at hab hba
      have hswap : compare a.leaves b.leaves = (compare b.leaves a.leaves).swap :=
        Std.OrientedCmp.eq_swap
      rw [hswap, hba] at hab
      cases hab

/-- One family only lists the cuts of a node. -/
theorem Lists.eq {f h : CutFamily} (hf : f.Lists g k id) (hh : h.Lists g k id) : f = h := by
  have : Std.Antisymm Precedes := ⟨fun _ _ hab hba => absurd hba (precedes_asymm hab)⟩
  have : Std.Irrefl Precedes := ⟨not_precedes_self⟩
  have hcuts : f.cuts = h.cuts := hf.sorted.eq_of_mem_iff hh.sorted fun c =>
    hf.mem_iff.trans hh.mem_iff.symm
  cases f
  cases h
  exact congrArg CutFamily.mk hcuts

end CutFamily

namespace FeasibleCuts

theorem Complete.eq (h : Complete g k families) (h' : Complete g k families') :
    families = families' := by
  apply Array.ext (h.size_eq.trans h'.size_eq.symm)
  intro id hid hid'
  have hlt : id < g.nodes.size := by
    rw [← Graph.size, ← h.size_eq]
    exact hid
  have hn : g.nodes[id]? = some g.nodes[id] := Array.getElem?_eq_getElem hlt
  have hf := h.family hn (Array.getElem?_eq_getElem hid)
  have hf' := h'.family hn (Array.getElem?_eq_getElem hid')
  by_cases hout : g.nodes[id].isOutput = true
  · rw [if_pos hout] at hf hf'
    rw [hf, hf']
  · rw [if_neg hout] at hf hf'
    exact hf.eq hf'

/-- The families of the levels that are done are final. -/
theorem CompleteBelow.getElem?_eq {r : Nat} {n : Node} (hfs : CompleteBelow g k r families)
    (h : Complete g k families') (hn : g.nodes[id]? = some n) (hout : n.isOutput = false)
    (hr : level g id < r) : families[id]? = families'[id]? := by
  have hlt := Graph.lt_size_of_nodes_eq hn
  have hid : id < families.size := hfs.size_eq ▸ hlt
  have hid' : id < families'.size := h.size_eq ▸ hlt
  have hf := hfs.lists hn hout hr (Array.getElem?_eq_getElem hid)
  have hf' := h.family hn (Array.getElem?_eq_getElem hid')
  rw [if_neg (by simp [hout])] at hf'
  rw [Array.getElem?_eq_getElem hid, Array.getElem?_eq_getElem hid', hf.eq hf']

/-- A node of the next rank reads nodes of the ranks before it. -/
theorem IsRank.fanin_mem_flatten {n : Node} {e : Edge} {done : List (List Nat)} {rank : List Nat}
    (hrank : IsRank g done.length rank) (hg : g.WellFormed)
    (hdone : ∀ i rank, done[i]? = some rank → IsRank g i rank) (hid : id ∈ rank)
    (hn : g.nodes[id]? = some n) (he : e ∈ n.fanins) :
    e.node ∈ done.flatten ∧ ∃ m, g.nodes[e.node]? = some m ∧ m.isOutput = false ∧
      level g e.node < done.length := by
  obtain ⟨⟨n', hn', hout⟩, hlevel⟩ := (hrank id).mp hid
  rw [hn] at hn'
  cases hn'
  obtain ⟨m, hm, hmout⟩ := hg.drives_fanin hn he
  have hlt : level g e.node < done.length := hlevel ▸ level_fanin_lt hg hn hout he
  have hmem := (hdone _ _ (List.getElem?_eq_getElem hlt) e.node).mpr ⟨⟨m, hm, hmout⟩, rfl⟩
  exact ⟨List.mem_flatten.mpr ⟨_, List.getElem_mem hlt, hmem⟩, m, hm, hmout, hlt⟩

def Reordered (g : Graph) (rs : List (List Nat)) : Prop :=
  List.Forall₂ List.Perm rs (ranks g).toList

theorem Reordered.isRank {rs : List (List Nat)} (h : Reordered g rs) (i : Nat) (rank : List Nat)
    (hi : rs[i]? = some rank) : IsRank g i rank := by
  obtain ⟨hlt, rfl⟩ := List.getElem?_eq_some_iff.mp hi
  have hlt' : i < (ranks g).toList.length := h.length_eq ▸ hlt
  have hperm := h.get hlt hlt'
  have hrank : IsRank g i (ranks g).toList[i] :=
    isRank_of_ranks (by rw [← Array.getElem?_toList, List.getElem?_eq_getElem hlt'])
  exact fun id => hperm.mem_iff.trans (hrank id)

/-- Both schedules find the same table, whatever the order in which the nodes of a level are worked
through. When a level comes up, all fanins of its nodes have been entered, with the families that
the table has in the end. -/
theorem ofGraph_any_order (hg : g.Built) (hk : 0 < k) :
    ∃ t, ofGraph g k .sequential = .ok t ∧ ofGraph g k .byLevels = .ok t ∧
      ∀ rs, Reordered g rs →
        rs.foldlM (addRank g k) (.replicate g.size .empty) = .ok t.families ∧
        ∀ done rank rest, rs = done ++ rank :: rest →
          ∃ committed, done.foldlM (addRank g k) (.replicate g.size .empty) = .ok committed ∧
            ∀ id ∈ rank, ∀ n, g.nodes[id]? = some n → ∀ e ∈ n.fanins,
              e.node ∈ done.flatten ∧ committed[e.node]? = t.families[e.node]? := by
  have hwf := hg.wellFormed
  obtain ⟨families, hok, hcomplete⟩ := ofGraph_eq_ok hwf hk .sequential
  obtain ⟨families', hok', hcomplete'⟩ := ofGraph_eq_ok hwf hk .byLevels
  cases hcomplete.eq hcomplete'
  refine ⟨⟨k, families⟩, hok, hok', fun rs hrs => ⟨?_, ?_⟩⟩
  · obtain ⟨fs, hfs, hlast⟩ := foldlM_ranks_eq_ok hwf hk hrs.isRank
    rw [hrs.length_eq, Array.length_toList] at hlast
    rw [hfs, hlast.complete.eq hcomplete]
  · rintro done rank rest rfl
    have hdone (i : Nat) (rank' : List Nat) (hi : done[i]? = some rank') : IsRank g i rank' := by
      apply hrs.isRank
      rw [List.getElem?_append_left (List.getElem?_eq_some_iff.mp hi).1, hi]
    have hrank : IsRank g done.length rank := hrs.isRank done.length rank (by simp)
    obtain ⟨committed, hcommitted, hbelow⟩ := foldlM_ranks_eq_ok hwf hk hdone
    refine ⟨committed, hcommitted, fun id hid n hn e he => ?_⟩
    obtain ⟨hmem, m, hm, hout, hlt⟩ := hrank.fanin_mem_flatten hwf hdone hid hn he
    exact ⟨hmem, hbelow.getElem?_eq hcomplete hm hout hlt⟩

/-- The inputs and the gates on them, each level backwards. -/
theorem ofGraph_any_order_reconvergent :
    Graph.reconvergent.Built ∧ 0 < 2 ∧
      Reordered .reconvergent [[2, 1, 0], [4, 3], [5]] ∧
      ∃ t, ofGraph .reconvergent 2 .sequential = .ok t ∧
        ofGraph .reconvergent 2 .byLevels = .ok t ∧
        [[2, 1, 0], [4, 3], [5]].foldlM (addRank .reconvergent 2)
          (.replicate Graph.reconvergent.size .empty) = .ok t.families := by
  have hranks : (ranks .reconvergent).toList = [[0, 1, 2], [3, 4], [5]] := by decide +kernel
  have hreordered : Reordered .reconvergent [[2, 1, 0], [4, 3], [5]] := by
    rw [Reordered, hranks]
    exact .cons (by decide) (.cons (by decide) (.cons (by decide) .nil))
  obtain ⟨t, hsequential, hlevels, horder⟩ :=
    ofGraph_any_order Graph.reconvergent_built (by decide : 0 < 2)
  exact ⟨Graph.reconvergent_built, by decide, hreordered, t, hsequential, hlevels,
    (horder _ hreordered).1⟩

end FeasibleCuts

end AndInverter
