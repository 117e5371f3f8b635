import AndInverter.Diagram.Choice

/-!
# Splits

A choice is split at the smallest variable that its operands test: its two cofactors are choices
between the cofactors of the operands.
-/

namespace AndInverter.DiagramStore

def firstVar (v w : Nat) : Nat := if w = 0 then v else min v w

def splitVar (s : DiagramStore) (c : Choice) : Nat :=
  firstVar (firstVar (s.topVar c.test) (s.topVar c.high)) (s.topVar c.low)

/-- The function with `v` set to `b`, for a variable `v` that lies no deeper than the first one it
tests. -/
def cofactor (s : DiagramStore) (v : Nat) (b : Bool) (r : Ref) : Ref :=
  if s.topVar r = v then s.child r b else r

def cofactorChoice (s : DiagramStore) (c : Choice) (b : Bool) : Choice :=
  c.map (s.cofactor (s.splitVar c) b)

theorem topVar_eq_of_index_eq {s : DiagramStore} {q r : Ref} (h : q.index = r.index) :
    s.topVar q = s.topVar r := by
  simp only [topVar, h]

theorem index_cofactor_eq {s : DiagramStore} {v : Nat} {b : Bool} {q r : Ref}
    (h : q.index = r.index) : (s.cofactor v b q).index = (s.cofactor v b r).index := by
  simp only [cofactor, topVar_eq_of_index_eq h]
  split
  · simp only [child, h, Ref.index_negIf]
  · exact h

theorem index_cofactor_le {s : DiagramStore} {v : Nat} {b : Bool} {r : Ref} (hv : v ≠ 0) :
    (s.cofactor v b r).index ≤ r.index := by
  simp only [cofactor]
  split
  · rename_i h
    exact Nat.le_of_lt (index_child_lt (one_lt_index (by rwa [h])))
  · exact Nat.le_refl _

theorem index_cofactor_lt {s : DiagramStore} {v : Nat} {b : Bool} {r : Ref} (hv : v ≠ 0)
    (h : s.topVar r = v) : 1 < r.index ∧ (s.cofactor v b r).index < r.index := by
  have hr : 1 < r.index := one_lt_index (by rwa [h])
  simp only [cofactor, h]
  exact ⟨hr, index_child_lt hr⟩

theorem splitVar_ne_zero {s : DiagramStore} {c : Choice} (h : s.topVar c.test ≠ 0) :
    s.splitVar c ≠ 0 := by
  simp only [splitVar, firstVar]
  split <;> split <;> omega

theorem splitVar_eq (s : DiagramStore) (c : Choice) :
    s.topVar c.test = s.splitVar c ∨ s.topVar c.high = s.splitVar c ∨
      s.topVar c.low = s.splitVar c := by
  simp only [splitVar, firstVar]
  split <;> split <;> omega

theorem weight_cofactorChoice_lt {s : DiagramStore} {c : Choice} {b : Bool}
    (h : s.topVar c.test ≠ 0) : (s.cofactorChoice c b).weight < c.weight := by
  have hv := splitVar_ne_zero h
  have hf := index_cofactor_le (b := b) (s := s) (r := c.test) hv
  have hg := index_cofactor_le (b := b) (s := s) (r := c.high) hv
  have hh := index_cofactor_le (b := b) (s := s) (r := c.low) hv
  have heq := index_cofactor_eq (s := s) (v := s.splitVar c) (b := b) (q := c.high) (r := c.low)
  have hlt := splitVar_eq s c
  have lt {r : Ref} (hr : s.topVar r = s.splitVar c) := index_cofactor_lt (b := b) hv hr
  simp only [cofactorChoice, Choice.weight, Choice.map]
  unfold Choice.span
  rcases hlt with hr | hr | hr
  · have := lt hr
    split <;> split <;> omega
  · have := lt hr
    split <;> split <;> omega
  · have := lt hr
    split <;> split <;> omega

def cofactorsAt (s : DiagramStore) (f : Ref) (v : Nat) : Except Fault (Ref × Ref) := do
  if v = 0 then throw .variableZero
  s.nodes.check f.index
  let w := s.topVar f
  if w = 0 ∨ v < w then return (f, f)
  if v = w then return (s.child f false, s.child f true)
  throw .variableBelowTop

def checkSplit (s : DiagramStore) (c : Choice) : Except Fault Unit := do
  let v := s.splitVar c
  let _ ← s.cofactorsAt c.test v
  let _ ← s.cofactorsAt c.high v
  let _ ← s.cofactorsAt c.low v

structure Split where
  var : Nat
  low : Choice
  high : Choice

@[noinline] def split (s : DiagramStore) (c : Choice) : Split :=
  ⟨s.splitVar c, s.cofactorChoice c false, s.cofactorChoice c true⟩

end AndInverter.DiagramStore
