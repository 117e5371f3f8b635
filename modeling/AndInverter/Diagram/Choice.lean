import AndInverter.Diagram.Store

/-!
# Normal forms of choices

Many choices describe the same function. Before a choice is looked up or split it is brought to a
normal form: some are known at once, an operand that repeats the test becomes a constant, of two
equivalent choices the one that tests the smaller variable is taken, and the signs of the first two
operands are removed.
-/

namespace AndInverter.Choice

open Ref (one zero)

def known? : Choice → Option Ref
  | ⟨f, g, h⟩ =>
    if f = one then some g
    else if f = zero then some h
    else if g = h then some g
    else if g = one ∧ h = zero then some f
    else if g = zero ∧ h = one then some (-f)
    else if g = one ∧ h = -f then some one
    else if g = f ∧ h = one then some one
    else if g = -f ∧ h = zero then some zero
    else if g = zero ∧ h = f then some f
    else none

def simplify : Choice → Choice
  | ⟨f, g, h⟩ =>
    if g = f then ⟨f, one, h⟩
    else if h = f then ⟨f, g, zero⟩
    else if g = -f then ⟨f, zero, h⟩
    else if h = -f then ⟨f, g, one⟩
    else ⟨f, g, h⟩

/-- Exchanges the test with an operand that tests a smaller variable, where the choice allows it. -/
def orient (top : Ref → Nat) : Choice → Choice
  | ⟨f, g, h⟩ =>
    if g = one ∧ top h < top f then ⟨h, one, f⟩
    else if h = zero ∧ top g < top f then ⟨g, f, zero⟩
    else if h = one ∧ top g < top f then ⟨-g, -f, one⟩
    else if g = zero ∧ top h < top f then ⟨-h, zero, -f⟩
    else if g = -h ∧ top g < top f then ⟨g, f, -f⟩
    else ⟨f, g, h⟩

def positiveTest : Choice → Choice
  | ⟨f, g, h⟩ => if f.IsNegated then ⟨-f, h, g⟩ else ⟨f, g, h⟩

def positiveHigh : Choice → Bool × Choice
  | ⟨f, g, h⟩ => if g.IsNegated then (true, ⟨f, -g, -h⟩) else (false, ⟨f, g, h⟩)

inductive Form where
  | known (r : Ref)
  /-- The choice, complemented or not, has to be split. -/
  | split (negated : Bool) (c : Choice)
deriving DecidableEq, Repr

/-- The normal form of a choice. An operand that is made constant can make the choice known; the
other steps cannot. -/
def form (top : Ref → Nat) (c : Choice) : Form :=
  match c.known? with
  | some r => .known r
  | none =>
    match c.simplify.known? with
    | some r => .known r
    | none =>
      let (n, c) := (c.simplify.orient top).positiveTest.positiveHigh
      .split n c

def map (φ : Ref → Ref) (c : Choice) : Choice := ⟨φ c.test, φ c.high, φ c.low⟩

def span (i j k : Nat) : Nat := (i - 1) + (j - 1) + (if j = k then 0 else k - 1)

/-- The nodes below the operands. No step towards the normal form increases it, and a split
decreases it. -/
def weight (c : Choice) : Nat := span c.test.index c.high.index c.low.index

theorem weight_simplify_le (c : Choice) : c.simplify.weight ≤ c.weight := by
  rcases c with ⟨f, g, h⟩
  simp only [simplify]
  split
  · rename_i hg
    simp only [weight, hg, Ref.index_one]
    unfold span
    split <;> split <;> omega
  · split
    · rename_i hh
      simp only [weight, hh, Ref.index_zero]
      unfold span
      split <;> split <;> omega
    · split
      · rename_i hg
        simp only [weight, hg, Ref.index_zero, Ref.index_neg]
        unfold span
        split <;> split <;> omega
      · split
        · rename_i hh
          simp only [weight, hh, Ref.index_one, Ref.index_neg]
          unfold span
          split <;> split <;> omega
        · exact Nat.le_refl _

theorem weight_orient_le (top : Ref → Nat) (c : Choice) : (c.orient top).weight ≤ c.weight := by
  rcases c with ⟨f, g, h⟩
  simp only [orient]
  split
  · rename_i hc
    simp only [weight, hc.1, Ref.index_one]
    unfold span
    split <;> split <;> omega
  · split
    · rename_i hc
      simp only [weight, hc.1, Ref.index_zero]
      unfold span
      split <;> split <;> omega
    · split
      · rename_i hc
        simp only [weight, hc.1, Ref.index_one, Ref.index_neg]
        unfold span
        split <;> split <;> omega
      · split
        · rename_i hc
          simp only [weight, hc.1, Ref.index_zero, Ref.index_neg]
          unfold span
          split <;> split <;> omega
        · split
          · rename_i hc
            simp only [weight, hc.1, Ref.index_neg]
            unfold span
            split <;> split <;> omega
          · exact Nat.le_refl _

theorem weight_positiveTest_le (c : Choice) : c.positiveTest.weight ≤ c.weight := by
  rcases c with ⟨f, g, h⟩
  simp only [positiveTest]
  split
  · simp only [weight, Ref.index_neg]
    unfold span
    split <;> split <;> omega
  · exact Nat.le_refl _

theorem weight_positiveHigh_le (c : Choice) : c.positiveHigh.2.weight ≤ c.weight := by
  rcases c with ⟨f, g, h⟩
  simp only [positiveHigh]
  split
  · simp only [weight, Ref.index_neg]
    exact Nat.le_refl _
  · exact Nat.le_refl _

theorem weight_le_of_form_eq_split {top : Ref → Nat} {c d : Choice} {n : Bool}
    (h : c.form top = .split n d) : d.weight ≤ c.weight := by
  simp only [form] at h
  split at h
  · cases h
  · split at h
    · cases h
    · cases h
      exact Nat.le_trans (weight_positiveHigh_le _) (Nat.le_trans (weight_positiveTest_le _)
        (Nat.le_trans (weight_orient_le top _) (weight_simplify_le c)))

end AndInverter.Choice
