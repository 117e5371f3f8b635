import AndInverter.Diagram.Pairing

/-!
# References to diagram nodes

A reference is a signed code: its absolute value is the index of a node, and a negative sign
complements the function of that node. Node one is the terminal, so one and its negation are the
two constant functions.
-/

namespace AndInverter

/-- A handle to a diagram node, complemented if its code is negative. -/
structure Ref where
  code : Int
deriving DecidableEq, Hashable, Repr, Inhabited

namespace Ref

def one : Ref := ⟨1⟩

def zero : Ref := ⟨-1⟩

def constant (value : Bool) : Ref := if value then one else zero

/-- The plain reference to a node, its index read as a 32-bit signed word. -/
def ofIndex (index : Nat) : Ref := ⟨(Int32.ofNat index).toInt⟩

def index (r : Ref) : Nat := r.code.natAbs

def IsNegated (r : Ref) : Prop := r.code < 0

instance (r : Ref) : Decidable r.IsNegated := inferInstanceAs (Decidable (r.code < 0))

instance : Neg Ref := ⟨fun r => ⟨-r.code⟩⟩

def negIf (r : Ref) (c : Bool) : Ref := if c then -r else r

@[simp] theorem index_one : one.index = 1 := rfl

@[simp] theorem index_zero : zero.index = 1 := rfl

@[simp] theorem index_neg (r : Ref) : (-r).index = r.index := Int.natAbs_neg r.code

@[simp] theorem index_negIf (r : Ref) (c : Bool) : (r.negIf c).index = r.index := by
  cases c <;> simp [negIf]

def regular (r : Ref) : Ref := ⟨r.code.natAbs⟩

/-- The reference as a 32-bit word: twice the index, plus one under a sign. -/
def toWord (r : Ref) : UInt32 := 2 * r.index.toUInt32 + (if r.IsNegated then 1 else 0)

def constant? (r : Ref) : Option Bool :=
  if r = zero then some false else if r = one then some true else none

instance : ToString Ref := ⟨fun r => (if r.IsNegated then "~" else "") ++ s!"@{r.index}"⟩

instance : BucketKey Ref := ⟨fun r => r.toWord.toUInt64⟩

instance : BucketKey (Ref × Ref) := ⟨fun p => pairing (word p.1) (word p.2)⟩

end Ref

end AndInverter
