import AndInverter.Cut.Family
import Mathlib.Data.Finset.Card

/-!
# Cuts as sets of leaves

The signatures never change an answer: comparison is inclusion of the leaves, and two cuts merge
exactly if their union is small enough. A cut is determined by its leaves.
-/

namespace AndInverter

theorem or_leafSignature_of_mem {x : Nat} {xs : List Nat} (h : x ∈ xs) :
    leafBit x ||| leafSignature xs = leafSignature xs := by
  induction xs with
  | nil => cases h
  | cons y ys ih =>
    have hc : leafSignature (y :: ys) = leafBit y ||| leafSignature ys := rfl
    rcases List.mem_cons.mp h with rfl | h
    · rw [hc, ← UInt64.or_assoc, UInt64.or_self]
    · rw [hc, ← UInt64.or_assoc, UInt64.or_comm (leafBit x), UInt64.or_assoc, ih h]

theorem leafSignature_or_of_subset {xs ys : List Nat} (h : xs ⊆ ys) :
    leafSignature xs ||| leafSignature ys = leafSignature ys := by
  induction xs with
  | nil => simp [leafSignature]
  | cons x xs ih =>
    have hc : leafSignature (x :: xs) = leafBit x ||| leafSignature xs := rfl
    have hs := List.cons_subset.mp h
    rw [hc, UInt64.or_assoc, ih hs.2, or_leafSignature_of_mem hs.1]

theorem and_not_eq_zero_of_or_eq {s t : UInt64} (h : s ||| t = t) : s &&& ~~~t = 0 := by
  rw [← h]
  apply UInt64.eq_of_toBitVec_eq
  ext i hi
  simp
  grind

theorem cpopNatRec_or_le (s t : BitVec 64) (n : Nat) :
    (s ||| t).cpopNatRec n 0 ≤ s.cpopNatRec n 0 + t.cpopNatRec n 0 := by
  induction n with
  | zero => simp
  | succ n ih =>
    simp only [BitVec.cpopNatRec_succ, BitVec.getLsbD_or]
    rw [BitVec.cpopNatRec_eq, BitVec.cpopNatRec_eq (x := s), BitVec.cpopNatRec_eq (x := t)]
    cases s.getLsbD n <;> cases t.getLsbD n <;> simp <;> omega

theorem cpopNatRec_twoPow_le (k n : Nat) :
    (BitVec.twoPow 64 k).cpopNatRec n 0 ≤ if k < n then 1 else 0 := by
  induction n with
  | zero => simp
  | succ n ih =>
    rw [BitVec.cpopNatRec_succ, BitVec.cpopNatRec_eq, BitVec.getLsbD_twoPow]
    by_cases hk : k = n
    · have hbit := Bool.toNat_le (decide (k < 64) && decide (k = n))
      rw [if_neg (by omega)] at ih
      rw [if_pos (by omega)]
      omega
    · have hlt : k < n + 1 ↔ k < n := by omega
      simpa [hk, hlt] using ih

theorem toBitVec_leafBit (x : Nat) : (leafBit x).toBitVec = BitVec.twoPow 64 (x % 64) := by
  have hx : x % 64 % 18446744073709551616 = x % 64 := Nat.mod_eq_of_lt (by omega)
  simp [leafBit, BitVec.twoPow, Nat.toUInt64, hx]

theorem cpop_leafSignature_le (xs : List Nat) :
    (leafSignature xs).toBitVec.cpop.toNat ≤ xs.length := by
  simp only [BitVec.toNat_cpop]
  induction xs with
  | nil => simp [leafSignature]
  | cons x xs ih =>
    have hc : leafSignature (x :: xs) = leafBit x ||| leafSignature xs := rfl
    have hor := cpopNatRec_or_le (BitVec.twoPow 64 (x % 64)) (leafSignature xs).toBitVec 64
    have hbit := cpopNatRec_twoPow_le (x % 64) 64
    rw [if_pos (Nat.mod_lt _ (by decide))] at hbit
    rw [hc, UInt64.toBitVec_or, toBitVec_leafBit, List.length_cons]
    omega

namespace Cut

variable {a b c : Cut}

theorem ext (h : a.leaves = b.leaves) : a = b := by
  rcases a with ⟨leaves, signature, _, hs⟩
  rcases b with ⟨leaves', signature', _, hs'⟩
  cases h
  cases hs
  cases hs'
  rfl

theorem nodup (c : Cut) : c.leaves.Nodup := c.ascending.imp Nat.ne_of_lt

theorem contains_iff {node : Nat} : c.contains node = true ↔ node ∈ c.leaves := by
  have hsearch {x : Nat} : Ascending.search id node c.leaves = some x ↔ x ∈ c.leaves ∧ x = node :=
    Ascending.search_eq_some_iff c.ascending
  simp only [contains, Option.isSome_iff_exists, hsearch, exists_eq_right]

theorem isSubset_leaves : Ascending.isSubset a.leaves b.leaves = true ↔ a.leaves ⊆ b.leaves :=
  Ascending.isSubset_iff a.ascending b.ascending

theorem subset_eq (a b : Cut) : a.subset b = Ascending.isSubset a.leaves b.leaves := by
  rw [subset, Bool.and_eq_right_iff_imp, isSubset_leaves, Bool.and_eq_true, decide_eq_true_eq,
    beq_iff_eq, a.signature_eq, b.signature_eq]
  intro h
  exact ⟨(List.subperm_of_subset a.nodup h).length_le,
    and_not_eq_zero_of_or_eq (leafSignature_or_of_subset h)⟩

theorem subset_iff : a.subset b = true ↔ a.leaves ⊆ b.leaves := by
  rw [subset_eq, isSubset_leaves]

@[simp] theorem subset_refl (c : Cut) : c.subset c = true := subset_iff.mpr fun _ hx => hx

theorem subset_trans (hab : a.subset b = true) (hbc : b.subset c = true) : a.subset c = true :=
  subset_iff.mpr fun _ hx => subset_iff.mp hbc (subset_iff.mp hab hx)

theorem subset_antisymm (hab : a.subset b = true) (hba : b.subset a = true) : a = b := by
  rw [subset_iff] at hab hba
  exact ext (Ascending.eq_of_mem_iff a.ascending b.ascending fun _ => ⟨@hab _, @hba _⟩)

/-- The leaves of a union are found by the pass over both lists alone. -/
theorem map_leaves_merge? (a b : Cut) (k : Nat) :
    (a.merge? b k).map leaves = Ascending.unionWithin k a.leaves b.leaves := by
  have hsig := cpop_leafSignature_le (Ascending.union a.leaves b.leaves)
  rw [leafSignature_union, ← a.signature_eq, ← b.signature_eq] at hsig
  rw [merge?]
  split
  · rename_i hk
    rw [Ascending.unionWithin_eq a.ascending b.ascending, if_neg (by omega)]
    rfl
  · split
    · rename_i h
      exact h.symm
    · rename_i h
      exact h.symm

theorem merge?_eq_some_iff {k : Nat} : a.merge? b k = some c ↔
    c.leaves = Ascending.union a.leaves b.leaves ∧ c.size ≤ k := by
  rw [size, ← Ascending.unionWithin_eq_some_iff a.ascending b.ascending, ← map_leaves_merge?,
    Option.map_eq_some_iff]
  constructor
  · intro h
    exact ⟨c, h, rfl⟩
  · rintro ⟨d, hd, hdc⟩
    rw [hd, ext hdc]

end Cut

end AndInverter
