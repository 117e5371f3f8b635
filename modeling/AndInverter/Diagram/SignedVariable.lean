import AndInverter.Fault

/-!
# Diagram variables

Variables of a diagram are numbered from one, and a smaller number lies closer to the root. A
variable with a sign is written as a signed number.
-/

namespace AndInverter

structure Variable where
  id : Nat
  id_pos : 0 < id := by decide
deriving DecidableEq, Repr

structure SignedVariable where
  var : Variable
  negated : Bool
deriving DecidableEq, Repr

namespace Variable

def ofNat (id : Nat) : Except Fault Variable :=
  if h : 0 < id then .ok ⟨id, h⟩ else .error .unnamedVariable

def positive (v : Variable) : SignedVariable := ⟨v, false⟩

def negative (v : Variable) : SignedVariable := ⟨v, true⟩

instance : Ord Variable := ⟨fun a b => compare a.id b.id⟩

instance : ToString Variable := ⟨fun v => s!"x{v.id}"⟩

end Variable

namespace SignedVariable

def ofInt (n : Int) : Except Fault SignedVariable :=
  if h : n = 0 then .error .literalZero else .ok ⟨⟨n.natAbs, by omega⟩, decide (n < 0)⟩

def complement (l : SignedVariable) : SignedVariable := ⟨l.var, !l.negated⟩

/-- The number of a signed variable, its variable read as a 32-bit signed word. -/
def toInt (l : SignedVariable) : Int :=
  let n := (Int32.ofNat l.var.id).toInt
  if l.negated then -n else n

/-- Signed variables are ordered by variable, a positive one before its negation. -/
instance : Ord SignedVariable :=
  ⟨fun a b => (compare a.var b.var).then (compare a.negated b.negated)⟩

instance : ToString SignedVariable := ⟨fun l => (if l.negated then "~" else "") ++ toString l.var⟩

end SignedVariable

end AndInverter
