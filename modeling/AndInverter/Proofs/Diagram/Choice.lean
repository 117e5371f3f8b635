import AndInverter.Diagram.Choice
import AndInverter.Proofs.Diagram.Evaluation

/-!
# Normal forms keep the choice

What holds of the operands of a choice, of the constants and of complements holds of the operands of
the normal form, and the normal form denotes the same function up to its sign. A choice that is
known at once is known for what it denotes if it is a connective.
-/

namespace AndInverter

structure Ref.Stable (P : Ref → Prop) : Prop where
  one : P .one
  zero : P .zero
  neg {r : Ref} : P r → P (-r)

structure Ref.Valuation (P : Ref → Prop) (e : Ref → Bool) : Prop where
  one : e .one = true
  zero : e .zero = false
  neg {r : Ref} : P r → e (-r) = !e r

namespace Choice

open Ref (one zero)

variable {P : Ref → Prop} {e : Ref → Bool} {c d : Choice} {r : Ref} {top : Ref → Nat} {n : Bool}

def All (P : Ref → Prop) (c : Choice) : Prop := P c.test ∧ P c.high ∧ P c.low

def denote (e : Ref → Bool) (c : Choice) : Bool := if e c.test then e c.high else e c.low

def IsConnective (c : Choice) : Prop :=
  c.low = zero ∨ c.low = one ∨ c.high = one ∨ c.low = -c.high

/-- The choices between false and their own test. A constant test makes a choice known, whatever it
chooses between. -/
def IsSelf (c : Choice) : Prop := c.high = zero ∧ c.low = c.test ∧ c.test ≠ one ∧ c.test ≠ zero

theorem isConnective_mk {f g h : Ref} :
    (⟨f, g, h⟩ : Choice).IsConnective ↔ h = zero ∨ h = one ∨ g = one ∨ h = -g := Iff.rfl

theorem All.known? (hP : Ref.Stable P) (h : c.All P) (hr : c.known? = some r) : P r := by
  obtain ⟨hone, hzero, hneg⟩ := hP
  rcases c with ⟨f, g, h⟩
  grind [Choice.known?, All]

theorem All.simplify (hP : Ref.Stable P) (h : c.All P) : c.simplify.All P := by
  obtain ⟨hone, hzero, -⟩ := hP
  rcases c with ⟨f, g, h⟩
  grind [Choice.simplify, All]

theorem All.orient (hP : Ref.Stable P) (h : c.All P) : (c.orient top).All P := by
  obtain ⟨hone, hzero, hneg⟩ := hP
  rcases c with ⟨f, g, h⟩
  grind [Choice.orient, All]

theorem All.positiveTest (hP : Ref.Stable P) (h : c.All P) : c.positiveTest.All P := by
  obtain ⟨-, -, hneg⟩ := hP
  rcases c with ⟨f, g, h⟩
  grind [Choice.positiveTest, All]

theorem All.positiveHigh (hP : Ref.Stable P) (h : c.All P) : c.positiveHigh.2.All P := by
  obtain ⟨-, -, hneg⟩ := hP
  rcases c with ⟨f, g, h⟩
  grind [Choice.positiveHigh, All]

theorem denote_simplify (he : Ref.Valuation P e) (h : c.All P) :
    c.simplify.denote e = c.denote e := by
  obtain ⟨hone, hzero, hneg⟩ := he
  rcases c with ⟨f, g, h⟩
  grind [simplify, denote, All]

theorem denote_orient (he : Ref.Valuation P e) (h : c.All P) :
    (c.orient top).denote e = c.denote e := by
  obtain ⟨hone, hzero, hneg⟩ := he
  rcases c with ⟨f, g, h⟩
  grind [orient, denote, All]

theorem denote_positiveTest (he : Ref.Valuation P e) (h : c.All P) :
    c.positiveTest.denote e = c.denote e := by
  obtain ⟨-, -, hneg⟩ := he
  rcases c with ⟨f, g, h⟩
  grind [positiveTest, denote, All]

theorem denote_positiveHigh (he : Ref.Valuation P e) (h : c.All P) :
    (c.positiveHigh.2.denote e ^^ c.positiveHigh.1) = c.denote e := by
  obtain ⟨-, -, hneg⟩ := he
  rcases c with ⟨f, g, h⟩
  grind [positiveHigh, denote, All]

theorem IsConnective.not_isSelf (hc : c.IsConnective) : ¬ c.IsSelf := by
  have hne : zero ≠ one := by decide
  rintro ⟨hhigh, hlow, hone, hzero⟩
  rcases hc with h | h | h | h
  · exact hzero (hlow.symm.trans h)
  · exact hone (hlow.symm.trans h)
  · exact hne (hhigh.symm.trans h)
  · rw [hhigh, Ref.neg_zero] at h
    exact hone (hlow.symm.trans h)

theorem IsSelf.known?_eq (hc : c.IsSelf) : c.known? = some c.test := by
  have hne : zero ≠ one := by decide
  rcases c with ⟨f, g, h⟩
  obtain ⟨hhigh, hlow, hone, hzero⟩ := hc
  dsimp only at hhigh hlow hone hzero
  subst hhigh hlow
  simp [Choice.known?, hne, hone, hzero, Ne.symm hzero]

theorem IsSelf.denote_eq (hc : c.IsSelf) (hzero : e zero = false) : c.denote e = false := by
  rw [denote, hc.1, hc.2.1, hzero]
  cases e c.test
  · rfl
  · rfl

/-- A choice between false and its own test is known for the test, and every other known one is
known for what it denotes. -/
theorem denote_of_known? (he : Ref.Valuation P e) (hall : c.All P) (hself : ¬ c.IsSelf)
    (hr : c.known? = some r) : e r = c.denote e := by
  obtain ⟨hone, hzero, hneg⟩ := he
  rcases c with ⟨f, g, h⟩
  have hf : e (-f) = !e f := hneg hall.1
  clear hneg
  simp only [IsSelf] at hself
  simp only [Choice.known?] at hr
  split at hr
  · grind [denote]
  · split at hr
    · grind [denote]
    · grind [denote]

theorem not_isSelf_simplify (hnone : c.known? = none) : ¬ c.simplify.IsSelf := by
  rcases c with ⟨f, g, h⟩
  grind [Choice.known?, Choice.simplify, IsSelf]

theorem IsConnective.simplify (hc : c.IsConnective) (hnone : c.known? = none) :
    c.simplify.IsConnective := by
  rcases c with ⟨f, g, h⟩
  rcases isConnective_mk.mp hc with rfl | rfl | rfl | rfl
  · grind [Choice.known?, Choice.simplify, IsConnective]
  · grind [Choice.known?, Choice.simplify, IsConnective]
  · grind [Choice.known?, Choice.simplify, IsConnective]
  · grind [Choice.known?, Choice.simplify, IsConnective]

theorem IsConnective.orient (hc : c.IsConnective) (hnone : c.known? = none) :
    (c.orient top).IsConnective := by
  rcases c with ⟨f, g, h⟩
  grind [Choice.known?, Choice.orient, IsConnective]

theorem IsConnective.positive (hc : c.IsConnective) :
    c.positiveTest.positiveHigh.2.IsConnective := by
  rcases c with ⟨f, g, h⟩
  have hzero : zero.IsNegated := by decide
  have hone : ¬ one.IsNegated := by decide
  grind [Choice.positiveTest, Choice.positiveHigh, IsConnective]

theorem orient_test_ne (hnone : c.known? = none) :
    (c.orient top).test ≠ one ∧ (c.orient top).test ≠ zero := by
  rcases c with ⟨f, g, h⟩
  simp only [Choice.orient]
  grind [Choice.known?]

/-- The test of a choice that is not known is no constant, whichever operand becomes it. -/
theorem test_ne_of_known?_eq_none (hnone : c.known? = none) :
    (c.orient top).positiveTest.positiveHigh.2.test ≠ one ∧
      (c.orient top).positiveTest.positiveHigh.2.test ≠ zero := by
  obtain ⟨hone, hzero⟩ := @orient_test_ne c top hnone
  generalize c.orient top = d at hone hzero
  rcases d with ⟨f, g, h⟩
  grind [Choice.positiveTest, Choice.positiveHigh]

theorem form_eq_known (h : c.form top = .known r) :
    c.known? = some r ∨ c.known? = none ∧ c.simplify.known? = some r := by
  simp only [form] at h
  split at h
  · rename_i hr
    cases h
    exact .inl hr
  · rename_i hnone
    split at h
    · rename_i hr
      cases h
      exact .inr ⟨hnone, hr⟩
    · cases h

theorem form_eq_split (h : c.form top = .split n d) :
    c.known? = none ∧ c.simplify.known? = none ∧
      n = (c.simplify.orient top).positiveTest.positiveHigh.1 ∧
      d = (c.simplify.orient top).positiveTest.positiveHigh.2 := by
  simp only [form] at h
  split at h
  · cases h
  · rename_i hnone
    split at h
    · cases h
    · rename_i hnone'
      cases h
      exact ⟨hnone, hnone', rfl, rfl⟩

theorem All.form_known (hP : Ref.Stable P) (hc : c.All P) (h : c.form top = .known r) : P r := by
  rcases form_eq_known h with hr | ⟨-, hr⟩
  · exact hc.known? hP hr
  · exact (hc.simplify hP).known? hP hr

theorem All.form_split (hP : Ref.Stable P) (hc : c.All P) (h : c.form top = .split n d) :
    d.All P := by
  obtain ⟨-, -, -, rfl⟩ := form_eq_split h
  exact (((hc.simplify hP).orient hP).positiveTest hP).positiveHigh hP

/-- A choice and its split denote the same function, up to the sign. -/
theorem denote_form_split (hP : Ref.Stable P) (he : Ref.Valuation P e) (hc : c.All P)
    (h : c.form top = .split n d) : (d.denote e ^^ n) = c.denote e := by
  obtain ⟨-, -, rfl, rfl⟩ := form_eq_split h
  have hsimple := hc.simplify hP
  have horient : (c.simplify.orient top).All P := hsimple.orient hP
  rw [denote_positiveHigh he (horient.positiveTest hP), denote_positiveTest he horient,
    denote_orient he hsimple, denote_simplify he hc]

theorem denote_form_known (hP : Ref.Stable P) (he : Ref.Valuation P e) (hc : c.All P)
    (hself : ¬ c.IsSelf) (h : c.form top = .known r) : e r = c.denote e := by
  rcases form_eq_known h with hr | ⟨hnone, hr⟩
  · exact denote_of_known? he hc hself hr
  · rw [← denote_simplify he hc]
    exact denote_of_known? he (hc.simplify hP) (not_isSelf_simplify hnone) hr

theorem IsConnective.form_split (hconn : c.IsConnective) (h : c.form top = .split n d) :
    d.IsConnective := by
  obtain ⟨hnone, hnone', -, rfl⟩ := form_eq_split h
  exact ((hconn.simplify hnone).orient hnone').positive

theorem test_ne_of_form (h : c.form top = .split n d) : d.test ≠ one ∧ d.test ≠ zero := by
  obtain ⟨-, hnone, -, rfl⟩ := form_eq_split h
  exact test_ne_of_known?_eq_none hnone

end Choice

end AndInverter
