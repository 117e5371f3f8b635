import AndInverter.Diagram.Pairing
import Mathlib.Algebra.Group.Nat.Defs
import Mathlib.Data.Nat.Pairing
import Mathlib.Data.Set.Function

/-!
# Codes of pairs

The pairing of words is the pairing of natural numbers modulo `2 ^ 64`. Pairs below `2 ^ 32` fill
the shells of the first `2 ^ 64` codes, so for them nothing wraps, and every word is the code of
exactly one of them.
-/

namespace AndInverter

theorem toNat_pairing (a b : UInt64) :
    (pairing a b).toNat = Nat.pair a.toNat b.toNat % 2 ^ 64 := by
  rw [pairing, Nat.pair]
  by_cases h : a < b
  · rw [if_pos h, if_pos (UInt64.lt_iff_toNat_lt.mp h), UInt64.toNat_add, UInt64.toNat_mul,
      Nat.mod_add_mod]
  · rw [if_neg h, if_neg (mt UInt64.lt_iff_toNat_lt.mpr h), Nat.add_assoc, UInt64.add_assoc,
      UInt64.toNat_add, UInt64.toNat_add, UInt64.toNat_mul, ← Nat.add_mod]

/-- The codes below a square are those of the pairs below its side. -/
theorem pair_lt_sq_iff {m n k : Nat} : Nat.pair m n < k ^ 2 ↔ m < k ∧ n < k := by
  rw [← Nat.max_lt]
  constructor
  · intro h
    have hsq : max m n ^ 2 < k ^ 2 :=
      calc max m n ^ 2 ≤ max m n ^ 2 + min m n := Nat.le_add_right _ _
        _ ≤ Nat.pair m n := Nat.max_sq_add_min_le_pair m n
        _ < k ^ 2 := h
    exact (Nat.pow_lt_pow_iff_left (by decide)).mp hsq
  · intro h
    calc Nat.pair m n < (max m n + 1) ^ 2 := Nat.pair_lt_max_add_one_sq m n
      _ ≤ k ^ 2 := Nat.pow_le_pow_left h 2

def halfWords : Set (UInt64 × UInt64) := {p | p.1.toNat < 2 ^ 32 ∧ p.2.toNat < 2 ^ 32}

theorem mem_halfWords_iff {p : UInt64 × UInt64} :
    p ∈ halfWords ↔ Nat.pair p.1.toNat p.2.toNat < 2 ^ 64 :=
  (pair_lt_sq_iff (k := 2 ^ 32)).symm

theorem toNat_pairing_of_mem {p : UInt64 × UInt64} (hp : p ∈ halfWords) :
    (pairing p.1 p.2).toNat = Nat.pair p.1.toNat p.2.toNat := by
  rw [toNat_pairing, Nat.mod_eq_of_lt (mem_halfWords_iff.mp hp)]

theorem pairing_injOn : Set.InjOn (fun p => pairing p.1 p.2) halfWords := by
  intro p hp q hq heq
  have hcode : Nat.pair p.1.toNat p.2.toNat = Nat.pair q.1.toNat q.2.toNat := by
    rw [← toNat_pairing_of_mem hp, ← toNat_pairing_of_mem hq]
    exact congrArg UInt64.toNat heq
  obtain ⟨hfst, hsnd⟩ := Nat.pair_eq_pair.mp hcode
  exact Prod.ext (UInt64.toNat_inj.mp hfst) (UInt64.toNat_inj.mp hsnd)

theorem exists_pairing_eq (w : UInt64) : ∃ p ∈ halfWords, pairing p.1 p.2 = w := by
  obtain ⟨m, n, hcode⟩ : ∃ m n, Nat.pair m n = w.toNat := ⟨_, _, Nat.pair_unpair w.toNat⟩
  have hlt : Nat.pair m n < (2 ^ 32) ^ 2 := hcode ▸ w.toNat_lt
  obtain ⟨hm, hn⟩ := pair_lt_sq_iff.mp hlt
  have hfst : (UInt64.ofNat m).toNat = m := UInt64.toNat_ofNat_of_lt' (hm.trans (by decide))
  have hsnd : (UInt64.ofNat n).toNat = n := UInt64.toNat_ofNat_of_lt' (hn.trans (by decide))
  have hp : (UInt64.ofNat m, UInt64.ofNat n) ∈ halfWords :=
    ⟨hfst.trans_lt hm, hsnd.trans_lt hn⟩
  refine ⟨_, hp, UInt64.toNat_inj.mp ?_⟩
  rw [toNat_pairing_of_mem hp, hfst, hsnd, hcode]

/-- Below `2 ^ 32` the code of a pair is the code of its numbers, so that no product and no sum on
the way wraps; different pairs have different codes, and every word is the code of a pair. -/
theorem pairing_bijOn :
    (∀ p ∈ halfWords, (pairing p.1 p.2).toNat = Nat.pair p.1.toNat p.2.toNat) ∧
      Set.BijOn (fun p => pairing p.1 p.2) halfWords Set.univ := by
  refine ⟨fun p hp => toNat_pairing_of_mem hp, Set.mapsTo_univ _ _, pairing_injOn, ?_⟩
  intro w _
  exact exists_pairing_eq w

/-- The last pair has the last word for its code. -/
theorem pairing_bijOn_last : (0xffffffff, 0xffffffff) ∈ halfWords ∧
    (pairing 0xffffffff 0xffffffff).toNat = 2 ^ 64 - 1 := by
  have hp : (0xffffffff, 0xffffffff) ∈ halfWords := ⟨by decide, by decide⟩
  exact ⟨hp, (pairing_bijOn.1 _ hp).trans (by decide)⟩

/-- Among a power of two, the bucket of a value is a number of low bits of its word. -/
theorem bucket_eq_mod {α : Type} [BucketKey α] {n : Nat} (h : 0 < n) (hn : n ∣ 2 ^ 32) (value : α) :
    (bucket h value : Nat) = (word value).toNat % n :=
  Nat.mod_mod_of_dvd _ hn

end AndInverter
