import AndInverter.Proofs.Cut.Separation

/-!
# What signatures settle

A bit of the signature of a cut is set exactly if some leaf has its number modulo 64, so different
leaves can share one. All the same, no comparison of two cuts and no union of them depends on the
signatures: the passes over the leaves give every answer by themselves.
-/

namespace AndInverter

theorem getLsbD_leafBit (x i : Nat) : (leafBit x).toBitVec.getLsbD i = (x % 64 == i) := by
  rw [toBitVec_leafBit, BitVec.getLsbD_twoPow, Bool.eq_iff_iff]
  simp only [Bool.and_eq_true, decide_eq_true_eq, beq_iff_eq]
  omega

theorem getLsbD_leafSignature (xs : List Nat) (i : Nat) :
    (leafSignature xs).toBitVec.getLsbD i = xs.any (· % 64 == i) := by
  induction xs with
  | nil => simp [leafSignature]
  | cons x xs ih =>
    have hc : leafSignature (x :: xs) = leafBit x ||| leafSignature xs := rfl
    rw [hc, UInt64.toBitVec_or, BitVec.getLsbD_or, getLsbD_leafBit, ih, List.any_cons]

namespace Cut

variable {a b : Cut} {x : Nat} {xs ys : List Nat}

theorem mem_leaves_ofLeaves : x ∈ (ofLeaves xs).leaves ↔ x ∈ xs := Ascending.mem_ofList

theorem getLsbD_signature_ofLeaves (xs : List Nat) (i : Nat) :
    (ofLeaves xs).signature.toBitVec.getLsbD i = xs.any (· % 64 == i) := by
  rw [(ofLeaves xs).signature_eq, getLsbD_leafSignature, Bool.eq_iff_iff]
  simp only [List.any_eq_true, mem_leaves_ofLeaves]

theorem ofLeaves_leaves (a : Cut) : ofLeaves a.leaves = a :=
  ext (Ascending.eq_of_mem_iff (ofLeaves a.leaves).ascending a.ascending fun _ =>
    mem_leaves_ofLeaves)

theorem leafSet_ofLeaves_append (a b : Cut) :
    (ofLeaves (a.leaves ++ b.leaves)).leafSet = a.leafSet ∪ b.leafSet := by
  ext x
  rw [mem_leafSet, mem_leaves_ofLeaves, List.mem_append, Finset.mem_union, mem_leafSet, mem_leafSet]

theorem merge?_eq (a b : Cut) (k : Nat) : a.merge? b k =
    if (a.leafSet ∪ b.leafSet).card ≤ k then some (ofLeaves (a.leaves ++ b.leaves)) else none := by
  have hmerge (c : Cut) : a.merge? b k = some c ↔
      ofLeaves (a.leaves ++ b.leaves) = c ∧ (a.leafSet ∪ b.leafSet).card ≤ k := by
    rw [merge?_eq_some_iff_leafSet, ← leafSet_ofLeaves_append, leafSet_inj, card_leafSet,
      eq_comm (a := c)]
    exact and_congr_right fun h => by rw [h]
  apply Option.ext
  intro c
  rw [hmerge]
  split
  · rename_i hcard
    rw [Option.some.injEq, and_iff_left hcard]
  · rename_i hcard
    exact iff_of_false (fun h => hcard h.2) (by simp)

/-- Cuts with the same leaves have the same signature, so it never decides a comparison. -/
theorem compare_then_signature (a b : Cut) :
    (compare a.leaves b.leaves).then (compare a.signature b.signature) = compare a b := by
  change _ = compare a.leaves b.leaves
  cases h : compare a.leaves b.leaves with
  | lt => rfl
  | gt => rfl
  | eq =>
    obtain rfl : a = b := ext (Std.LawfulEqOrd.eq_of_compare h)
    exact Std.compare_self (a := a.signature)

/-- The signatures never change an answer. A cut is a subset of another exactly if its leaves are,
and two cuts merge exactly if they have at most `k` leaves together, into the cut that the leaves of
both make. The passes over the leaves alone give the same answers, and the signatures never decide a
comparison. A cut that is made of a list has its elements as leaves, in ascending order, and the bits
of these, modulo 64, in its signature; every cut is made of its own leaves. -/
theorem subset_and_merge_exact (a b : Cut) (k : Nat) :
    (a.subset b = true ↔ ∀ x ∈ a.leaves, x ∈ b.leaves) ∧
    a.merge? b k = (if (a.leafSet ∪ b.leafSet).card ≤ k then
      some (ofLeaves (a.leaves ++ b.leaves)) else none) ∧
    a.subset b = Ascending.isSubset a.leaves b.leaves ∧
    (a.merge? b k).map leaves = Ascending.unionWithin k a.leaves b.leaves ∧
    (compare a.leaves b.leaves).then (compare a.signature b.signature) = compare a b ∧
    ofLeaves a.leaves = a ∧
    ∀ xs : List Nat, (ofLeaves xs).leaves.Pairwise (· < ·) ∧
      (∀ x, x ∈ (ofLeaves xs).leaves ↔ x ∈ xs) ∧
      ∀ i, (ofLeaves xs).signature.toBitVec.getLsbD i = xs.any (· % 64 == i) := by
  refine ⟨subset_iff, merge?_eq a b k, subset_eq a b, map_leaves_merge? a b k,
    compare_then_signature a b, ofLeaves_leaves a, fun xs => ⟨(ofLeaves xs).ascending, ?_, ?_⟩⟩
  · exact fun x => mem_leaves_ofLeaves
  · exact getLsbD_signature_ofLeaves xs

/-- Leaves that share a bit are told apart, and a union of three of them needs a bound of three. -/
example : (ofLeaves [64, 0, 64]).merge? (ofLeaves [128]) 3 = some (ofLeaves [0, 64, 128]) ∧
    (ofLeaves [64, 0, 64]).merge? (ofLeaves [128]) 2 = none ∧
    (ofLeaves [64]).subset (ofLeaves [0, 128]) = false := by decide

end Cut

end AndInverter
