import AndInverter.Cut.Feasible
import AndInverter.Proofs.Cut.Leaves

/-!
# Families keep the minimal cuts

After any offers a family holds exactly those of the offered cuts that have no other offered cut as
a subset, each of them once. A finished family is sorted, and no two of its cuts compare equal.
-/

namespace AndInverter

/-- A cut of a list of which no other one is a subset. -/
def MinimalIn (cs : List Cut) (c : Cut) : Prop := c ∈ cs ∧ ∀ d ∈ cs, d.subset c = true → d = c

/-- Below every cut of a list lies a minimal one. -/
theorem exists_minimalIn {cs : List Cut} {c : Cut} (hc : c ∈ cs) :
    ∃ d, MinimalIn cs d ∧ d.subset c = true := by
  induction hn : c.size using Nat.strongRecOn generalizing c with
  | ind n ih =>
    by_cases hmin : ∀ d ∈ cs, d.subset c = true → d = c
    · exact ⟨c, ⟨hc, hmin⟩, c.subset_refl⟩
    · simp only [not_forall] at hmin
      obtain ⟨d, hd, hdc, hne⟩ := hmin
      have hlt : d.size < n := by
        rw [← hn]
        refine Nat.lt_of_not_le fun hle => hne ?_
        have hperm := List.Subperm.perm_of_length_le
          (List.subperm_of_subset d.nodup (Cut.subset_iff.mp hdc)) hle
        exact Cut.subset_antisymm hdc (Cut.subset_iff.mpr hperm.symm.subset)
      obtain ⟨e, he, hed⟩ := ih d.size hlt hd rfl
      exact ⟨e, he, Cut.subset_trans hed hdc⟩

variable {c d e : Cut} {cs : List Cut}

/-- One more cut that has no subset so far is minimal, and makes its supersets redundant. -/
theorem minimalIn_concat_of_new (hnew : ∀ e ∈ cs, ¬ e.subset c = true) :
    MinimalIn (cs ++ [c]) d ↔ MinimalIn cs d ∧ ¬ c.subset d = true ∨ d = c := by
  constructor
  · rintro ⟨hd, hmin⟩
    have hc := hmin c (List.mem_append_right _ (List.mem_singleton_self _))
    by_cases hcd : c.subset d = true
    · exact .inr (hc hcd).symm
    · refine .inl ⟨⟨?_, fun e he => hmin e (List.mem_append_left _ he)⟩, hcd⟩
      rcases List.mem_append.mp hd with hd | hd
      · exact hd
      · exact absurd (List.mem_singleton.mp hd ▸ c.subset_refl) hcd
  · rintro (⟨⟨hd, hmin⟩, hcd⟩ | rfl)
    · refine ⟨List.mem_append_left _ hd, fun e he hed => ?_⟩
      rcases List.mem_append.mp he with he | he
      · exact hmin e he hed
      · exact absurd (List.mem_singleton.mp he ▸ hed) hcd
    · refine ⟨List.mem_append_right _ (List.mem_singleton_self _), fun e he hed => ?_⟩
      rcases List.mem_append.mp he with he | he
      · exact absurd hed (hnew e he)
      · exact List.mem_singleton.mp he

/-- One more cut with a minimal subset changes nothing. -/
theorem minimalIn_concat_of_subset (he : MinimalIn cs e) (hec : e.subset c = true) :
    MinimalIn (cs ++ [c]) d ↔ MinimalIn cs d := by
  constructor
  · rintro ⟨hd, hmin⟩
    refine ⟨?_, fun a ha => hmin a (List.mem_append_left _ ha)⟩
    rcases List.mem_append.mp hd with hd | hd
    · exact hd
    · rw [List.mem_singleton.mp hd] at hmin ⊢
      exact hmin e (List.mem_append_left _ he.1) hec ▸ he.1
  · rintro ⟨hd, hmin⟩
    refine ⟨List.mem_append_left _ hd, fun a ha had => ?_⟩
    rcases List.mem_append.mp ha with ha | ha
    · exact hmin a ha had
    · rw [List.mem_singleton.mp ha] at had ⊢
      have hed := hmin e he.1 (Cut.subset_trans hec had)
      exact Cut.subset_antisymm had (hed ▸ hec)

namespace CutFamily

variable {f : CutFamily}

def ofList (cs : List Cut) : CutFamily := cs.foldl insert empty

structure KeepsMinimal (f : CutFamily) (cs : List Cut) : Prop where
  mem_iff {c : Cut} : c ∈ f.cuts ↔ MinimalIn cs c
  nodup : f.cuts.Nodup

theorem accepts_iff : f.accepts c = true ↔ ∀ d ∈ f.cuts, ¬ d.subset c = true := by
  rw [accepts, Bool.not_eq_true', List.any_eq_false]

theorem cuts_insert_of_accepts (h : f.accepts c = true) :
    (f.insert c).cuts = (f.cuts.filter fun d => !c.subset d) ++ [c] := by
  rw [CutFamily.insert, if_pos h]

/-- An offer adds a cut exactly if the family accepts it. -/
theorem accepts_iff_added : f.accepts c = true ↔ c ∉ f.cuts ∧ c ∈ (f.insert c).cuts := by
  by_cases h : f.accepts c = true
  · rw [cuts_insert_of_accepts h]
    refine iff_of_true h ⟨fun hc => accepts_iff.mp h c hc c.subset_refl, ?_⟩
    exact List.mem_append_right _ (List.mem_singleton_self c)
  · rw [CutFamily.insert, if_neg h]
    exact iff_of_false h fun hc => hc.1 hc.2

/-- Cuts that were dropped still count against a cut, since a minimal cut below them is kept. -/
theorem KeepsMinimal.accepts_iff (h : f.KeepsMinimal cs) :
    f.accepts c = true ↔ ∀ d ∈ cs, ¬ d.subset c = true := by
  rw [CutFamily.accepts_iff]
  constructor
  · intro hkept d hd hdc
    obtain ⟨e, he, hed⟩ := exists_minimalIn hd
    exact hkept e (h.mem_iff.mpr he) (Cut.subset_trans hed hdc)
  · exact fun hnew d hd => hnew d (h.mem_iff.mp hd).1

theorem KeepsMinimal.insert (h : f.KeepsMinimal cs) (c : Cut) :
    (f.insert c).KeepsMinimal (cs ++ [c]) := by
  by_cases hacc : f.accepts c = true
  · have hcuts := cuts_insert_of_accepts hacc
    have hnew := h.accepts_iff.mp hacc
    constructor
    · intro d
      rw [hcuts, List.mem_append, List.mem_filter, List.mem_singleton, h.mem_iff,
        minimalIn_concat_of_new hnew, Bool.not_eq_true', Bool.not_eq_true]
    · rw [hcuts]
      refine List.nodup_append.mpr ⟨h.nodup.filter _, List.nodup_singleton _, ?_⟩
      intro d hd e he hde
      rw [List.mem_singleton.mp he] at hde
      simp [hde] at hd
  · rw [CutFamily.insert, if_neg hacc]
    simp only [accepts, Bool.not_eq_true', Bool.not_eq_false, List.any_eq_true] at hacc
    obtain ⟨e, he, hec⟩ := hacc
    constructor
    · intro d
      rw [h.mem_iff, minimalIn_concat_of_subset (h.mem_iff.mp he) hec]
    · exact h.nodup

theorem KeepsMinimal.foldl_insert (h : f.KeepsMinimal cs) (ds : List Cut) :
    (ds.foldl CutFamily.insert f).KeepsMinimal (cs ++ ds) := by
  induction ds generalizing f cs with
  | nil => simpa using h
  | cons d ds ih => simpa using ih (h.insert d)

theorem ofList_keepsMinimal (cs : List Cut) : (ofList cs).KeepsMinimal cs := by
  have hempty : empty.KeepsMinimal [] :=
    ⟨by simp [empty, MinimalIn], List.nodup_nil⟩
  exact hempty.foldl_insert cs

/-- The order of finished families: smaller cuts first, cuts of one size by their leaves. -/
def Precedes (a b : Cut) : Prop :=
  a.size < b.size ∨ a.size = b.size ∧ List.Lex (· < ·) a.leaves b.leaves

theorem compare_eq_lt_iff {xs ys : List Nat} : compare xs ys = .lt ↔ List.Lex (· < ·) xs ys := by
  rw [List.compare_eq_compareLex]
  induction xs generalizing ys with
  | nil => cases ys <;> simp [List.compareLex_nil_nil, List.compareLex_nil_cons]
  | cons x xs ih =>
    cases ys with
    | nil => simp [List.compareLex_cons_nil]
    | cons y ys =>
      rw [List.compareLex_cons_cons, Ordering.then_eq_lt, Nat.compare_eq_lt,
        Std.compare_eq_iff_eq, ih, List.cons_lex_cons_iff]

theorem not_precedes_self (c : Cut) : ¬ Precedes c c := by
  rintro (h | ⟨-, h⟩)
  · exact Nat.lt_irrefl _ h
  · rw [← compare_eq_lt_iff, Std.ReflOrd.compare_self] at h
    cases h

theorem before_iff {a b : Cut} : before a b = true ↔ Precedes a b ∨ a = b := by
  have hc : compare a b = compare a.leaves b.leaves := rfl
  rw [before, Ordering.isLE_then_iff_or, Ordering.isLE_iff_eq_lt_or_eq_eq, Nat.compare_eq_lt,
    Std.compare_eq_iff_eq, hc, compare_eq_lt_iff, Std.compare_eq_iff_eq, and_or_left, ← or_assoc]
  refine or_congr Iff.rfl ⟨fun h => Cut.ext h.2, ?_⟩
  rintro rfl
  exact ⟨rfl, rfl⟩

theorem before_total (a b : Cut) : (before a b || before b a) = true := by
  by_cases h : before a b = true
  · rw [h, Bool.true_or]
  · have hlt := @Std.OrientedCmp.lt_of_not_isLE _ (compareLex (compareOn Cut.size) compare) _ a b h
    have hba : before b a = true := Ordering.isLE_iff_eq_lt_or_eq_eq.mpr (.inl hlt)
    rw [hba, Bool.or_true]

theorem before_trans (a b c : Cut) (hab : before a b = true) (hbc : before b c = true) :
    before a c = true :=
  @Std.TransCmp.isLE_trans _ (compareLex (compareOn Cut.size) compare) _ a b c hab hbc

theorem mem_sort : c ∈ f.sort.cuts ↔ c ∈ f.cuts := (List.mergeSort_perm f.cuts before).mem_iff

theorem pairwise_sort (h : f.cuts.Nodup) : f.sort.cuts.Pairwise Precedes := by
  have hnodup : f.sort.cuts.Nodup := (List.mergeSort_perm f.cuts before).nodup_iff.mpr h
  have hsorted : f.sort.cuts.Pairwise (before · ·) :=
    List.pairwise_mergeSort before_trans before_total f.cuts
  refine (hsorted.and hnodup).imp fun h => ?_
  exact (before_iff.mp h.1).resolve_right h.2

end CutFamily

end AndInverter
