import AndInverter.Ascending

/-!
# Cuts

A cut is a finite set of nodes, called leaves. A 64-bit signature with one bit for every leaf,
taken modulo 64, settles many comparisons without a look at the leaves.
-/

namespace AndInverter

def leafBit (x : Nat) : UInt64 := 1 <<< (x % 64).toUInt64

def leafSignature (leaves : List Nat) : UInt64 := leaves.foldr (fun x s => leafBit x ||| s) 0

theorem leafSignature_insert (x : Nat) (xs : List Nat) :
    leafSignature (Ascending.insert x xs) = leafBit x ||| leafSignature xs := by
  induction xs with
  | nil => rfl
  | cons y ys ih =>
    have hc (z : Nat) (zs : List Nat) :
        leafSignature (z :: zs) = leafBit z ||| leafSignature zs := rfl
    simp only [Ascending.insert]
    split
    · rfl
    · split
      · rename_i h
        rw [h, hc, ← UInt64.or_assoc, UInt64.or_self]
      · rw [hc, hc, ih, ← UInt64.or_assoc, UInt64.or_comm (leafBit y), UInt64.or_assoc]

theorem leafSignature_union (xs ys : List Nat) :
    leafSignature (Ascending.union xs ys) = leafSignature xs ||| leafSignature ys := by
  induction xs with
  | nil => simp [Ascending.union, leafSignature]
  | cons x xs ih =>
    have : Ascending.union (x :: xs) ys = Ascending.insert x (Ascending.union xs ys) := rfl
    rw [this, leafSignature_insert, ih, ← UInt64.or_assoc]
    rfl

structure Cut where
  /-- The leaves, in ascending order. -/
  leaves : List Nat
  signature : UInt64
  ascending : leaves.Pairwise (· < ·)
  signature_eq : signature = leafSignature leaves
deriving DecidableEq, Repr

namespace Cut

def ofLeaves (leaves : List Nat) : Cut where
  leaves := Ascending.ofList leaves
  signature := leafSignature (Ascending.ofList leaves)
  ascending := Ascending.pairwise_ofList leaves
  signature_eq := rfl

def empty : Cut := ofLeaves []

def trivial (node : Nat) : Cut := ofLeaves [node]

instance : Inhabited Cut := ⟨empty⟩

def size (c : Cut) : Nat := c.leaves.length

def isEmpty (c : Cut) : Bool := c.leaves.isEmpty

def contains (c : Cut) (node : Nat) : Bool := (Ascending.search id node c.leaves).isSome

def isTrivial (c : Cut) (node : Nat) : Bool := c.leaves == [node]

def subset (a b : Cut) : Bool :=
  a.size ≤ b.size && a.signature &&& ~~~b.signature == 0 && Ascending.isSubset a.leaves b.leaves

/-- The union of two cuts, if it has at most `k` leaves. -/
def merge? (a b : Cut) (k : Nat) : Option Cut :=
  if k < (a.signature ||| b.signature).toBitVec.cpop.toNat then none
  else
    match h : Ascending.unionWithin k a.leaves b.leaves with
    | none => none
    | some leaves =>
      have heq := ((Ascending.unionWithin_eq_some_iff a.ascending b.ascending).mp h).1
      some {
        leaves
        signature := a.signature ||| b.signature
        ascending := heq ▸ Ascending.pairwise_union b.ascending
        signature_eq := by rw [heq, leafSignature_union, a.signature_eq, b.signature_eq] }

/-- Cuts are ordered by their leaves, lexicographically. -/
instance : Ord Cut := ⟨compareOn Cut.leaves⟩

instance : Std.TransOrd Cut := inferInstanceAs (Std.TransCmp (compareOn Cut.leaves))

/-- The leaves, separated by spaces. -/
instance : ToString Cut := ⟨fun c => " ".intercalate (c.leaves.map toString)⟩

end Cut

end AndInverter
