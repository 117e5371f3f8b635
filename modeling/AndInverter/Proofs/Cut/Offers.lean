import AndInverter.Proofs.Cut.Minimality

/-!
# Cuts offered one after the other

A family accepts a cut exactly if none of the cuts that it was offered before is a subset of it,
whether they are still kept or not. The kept cuts stand in the order in which they were offered
first. Which cuts are kept does not depend on the order of the offers.
-/

namespace AndInverter.CutFamily

variable {f : CutFamily} {c : Cut} {cs : List Cut}

structure KeepsInOrder (f : CutFamily) (cs : List Cut) : Prop extends f.KeepsMinimal cs where
  ordered : f.cuts.Pairwise fun c d => cs.idxOf c < cs.idxOf d

/-- A later offer does not change which of two kept cuts was offered first. -/
theorem KeepsInOrder.pairwise_concat (h : f.KeepsInOrder cs) (c : Cut) :
    f.cuts.Pairwise fun d e => (cs ++ [c]).idxOf d < (cs ++ [c]).idxOf e := by
  refine h.ordered.imp_of_mem fun {d e} hd he hlt => ?_
  rw [List.idxOf_append_of_mem (h.mem_iff.mp hd).1, List.idxOf_append_of_mem (h.mem_iff.mp he).1]
  exact hlt

theorem KeepsInOrder.insert (h : f.KeepsInOrder cs) (c : Cut) :
    (f.insert c).KeepsInOrder (cs ++ [c]) where
  toKeepsMinimal := h.toKeepsMinimal.insert c
  ordered := by
    have hold := h.pairwise_concat c
    by_cases hacc : f.accepts c = true
    · -- An accepted cut has not been offered before, so it comes last.
      have hnew : c ∉ cs := fun hc => h.accepts_iff.mp hacc c hc c.subset_refl
      rw [cuts_insert_of_accepts hacc]
      refine List.pairwise_append.mpr ⟨hold.filter _, List.pairwise_singleton _ _, ?_⟩
      intro d hd e he
      obtain rfl := List.mem_singleton.mp he
      have hd := (h.mem_iff.mp (List.mem_of_mem_filter hd)).1
      rw [List.idxOf_append_of_mem hd, List.idxOf_append_of_notMem hnew]
      exact Nat.lt_add_right _ (List.idxOf_lt_length_of_mem hd)
    · rwa [CutFamily.insert, if_neg hacc]

theorem KeepsInOrder.foldl_insert (h : f.KeepsInOrder cs) (ds : List Cut) :
    (ds.foldl CutFamily.insert f).KeepsInOrder (cs ++ ds) := by
  induction ds generalizing f cs with
  | nil => simpa using h
  | cons d ds ih => simpa using ih (h.insert d)

theorem ofList_keepsInOrder (cs : List Cut) : (ofList cs).KeepsInOrder cs := by
  have hempty : empty.KeepsInOrder [] := ⟨ofList_keepsMinimal [], .nil⟩
  exact hempty.foldl_insert cs

theorem minimalIn_iff : MinimalIn cs c ↔ c ∈ cs ∧ ∀ d ∈ cs, d.leaves ⊆ c.leaves → d = c := by
  simp only [MinimalIn, Cut.subset_iff]

/-- After any offers, a cut is accepted, and so added by its offer, exactly if no cut offered so far
is a subset of it. The kept cuts are the minimal ones among the offered cuts, each once, in the
order of their first offers. The same cuts in another order, or some of them more often, lead to the
same kept cuts. -/
theorem ofList_offered (cs : List Cut) :
    (∀ c, (ofList cs).accepts c = true ↔ ∀ d ∈ cs, ¬ d.leaves ⊆ c.leaves) ∧
    (∀ c, (ofList cs).accepts c = true ↔
      c ∉ (ofList cs).cuts ∧ c ∈ ((ofList cs).insert c).cuts) ∧
    (∀ c, c ∈ (ofList cs).cuts ↔ c ∈ cs ∧ ∀ d ∈ cs, d.leaves ⊆ c.leaves → d = c) ∧
    (ofList cs).cuts.Nodup ∧
    (ofList cs).cuts.Pairwise (fun c d => cs.idxOf c < cs.idxOf d) ∧
    ∀ ds : List Cut, (∀ c, c ∈ ds ↔ c ∈ cs) → (ofList ds).cuts.Perm (ofList cs).cuts := by
  have h := ofList_keepsInOrder cs
  refine ⟨fun c => ?_, fun c => accepts_iff_added, fun c => h.mem_iff.trans minimalIn_iff, h.nodup,
    h.ordered, fun ds hds => ?_⟩
  · rw [h.accepts_iff]
    simp only [Cut.subset_iff]
  · have h' := ofList_keepsMinimal ds
    refine (List.perm_ext_iff_of_nodup h'.nodup h.nodup).mpr fun c => ?_
    rw [h'.mem_iff, h.mem_iff, minimalIn_iff, minimalIn_iff]
    simp only [hds]

def offers : List Cut :=
  [.ofLeaves [1, 2, 3], .ofLeaves [2, 4], .ofLeaves [3, 1, 2], .ofLeaves [2, 3, 4],
    .ofLeaves [1, 2]]

theorem ofList_offered_reversed : (∀ c, c ∈ offers.reverse ↔ c ∈ offers) ∧
    (ofList offers).cuts = [.ofLeaves [2, 4], .ofLeaves [1, 2]] ∧
    (ofList offers.reverse).cuts = [.ofLeaves [1, 2], .ofLeaves [2, 4]] ∧
    (ofList offers.reverse).cuts.Perm (ofList offers).cuts ∧
    (ofList offers).accepts (.ofLeaves [1, 2, 3]) = false := by
  obtain ⟨haccepts, -, -, -, -, hperm⟩ := ofList_offered offers
  refine ⟨fun c => List.mem_reverse, by decide, by decide, hperm _ fun c => List.mem_reverse, ?_⟩
  rw [← Bool.not_eq_true, haccepts]
  intro hnone
  exact hnone (.ofLeaves [1, 2]) (by decide) (by decide)

end AndInverter.CutFamily
