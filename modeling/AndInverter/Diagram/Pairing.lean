/-!
# Pairing of words

The square-shell pairing of two 64-bit words, wrapping on overflow, and the keys that choose a
bucket of a table. Below `2 ^ 32` the pairing never wraps.
-/

namespace AndInverter

/-- The code of a pair: the shell of the larger component, walked up one side and along the
other. -/
def pairing (a b : UInt64) : UInt64 :=
  if a < b then b * b + a else a * a + a + b

def tripling (a b c : UInt64) : UInt64 := pairing (pairing a b) c

class BucketKey (α : Type) where
  word : α → UInt64

export BucketKey (word)

/-- The bucket of a value among `n` buckets: the remainder of the lower half of its word, which is a
number of low bits if `n` is a power of two. -/
def bucket {α : Type} [BucketKey α] {n : Nat} (h : 0 < n) (value : α) : Fin n :=
  ⟨(word value).toUInt32.toNat % n, Nat.mod_lt _ h⟩

theorem one_shiftLeft_pos (bits : Nat) : 0 < 1 <<< bits := by
  rw [Nat.one_shiftLeft]
  exact Nat.two_pow_pos bits

instance : BucketKey UInt64 := ⟨id⟩

instance : BucketKey (UInt64 × UInt64) := ⟨fun p => pairing p.1 p.2⟩

instance : BucketKey (UInt64 × UInt64 × UInt64) := ⟨fun p => tripling p.1 p.2.1 p.2.2⟩

end AndInverter
