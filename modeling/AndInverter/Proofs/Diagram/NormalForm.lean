import AndInverter.Proofs.Diagram.Choice

/-!
# Normal forms are stable

A choice that has to be split is in normal form: it is not known, no operand repeats the test, no
exchange brings a smaller variable to the front, and the first two operands carry no sign. Such a
choice is its own normal form, so a remembered one is found by any choice that comes down to it.
-/

namespace AndInverter.Choice

open Ref (one zero)

variable {c d : Choice} {top top' : Ref → Nat} {n : Bool}

/-- A choice that is not known and has no operand to replace by a constant. -/
structure Plain (c : Choice) : Prop where
  test_ne : c.test ≠ one ∧ c.test ≠ zero
  high_ne : c.high ≠ c.test ∧ c.high ≠ -c.test
  low_ne : c.low ≠ c.test ∧ c.low ≠ -c.test
  high_ne_low : c.high ≠ c.low
  not_literal : ¬ (c.high = one ∧ c.low = zero) ∧ ¬ (c.high = zero ∧ c.low = one)

/-- No exchange that the choice allows brings a smaller variable to the front. -/
structure Oriented (top : Ref → Nat) (c : Choice) : Prop where
  high_one : c.high = one → top c.test ≤ top c.low
  high_zero : c.high = zero → top c.test ≤ top c.low
  low_one : c.low = one → top c.test ≤ top c.high
  low_zero : c.low = zero → top c.test ≤ top c.high
  opposite : c.high = -c.low → top c.test ≤ top c.high

theorem Oriented.orient_eq (h : c.Oriented top) : c.orient top = c := by
  rcases c with ⟨f, g, h⟩
  obtain ⟨hone, hzero, lone, lzero, hopp⟩ := h
  simp only at hone hzero lone lzero hopp
  rw [Choice.orient, if_neg fun h => Nat.not_lt.mpr (hone h.1) h.2,
    if_neg fun h => Nat.not_lt.mpr (lzero h.1) h.2, if_neg fun h => Nat.not_lt.mpr (lone h.1) h.2,
    if_neg fun h => Nat.not_lt.mpr (hzero h.1) h.2, if_neg fun h => Nat.not_lt.mpr (hopp h.1) h.2]

structure Regular (c : Choice) : Prop where
  test_regular : ¬ c.test.IsNegated
  high_regular : ¬ c.high.IsNegated

structure Normal (top : Ref → Nat) (c : Choice) : Prop extends c.Plain, c.Regular where
  oriented : c.Oriented top

theorem plain_mk {f g h : Ref} : (⟨f, g, h⟩ : Choice).Plain ↔
    (f ≠ one ∧ f ≠ zero) ∧ (g ≠ f ∧ g ≠ -f) ∧ (h ≠ f ∧ h ≠ -f) ∧ g ≠ h ∧
      ¬ (g = one ∧ h = zero) ∧ ¬ (g = zero ∧ h = one) := by
  constructor
  · rintro ⟨htest, hhigh, hlow, hne, hliteral⟩
    exact ⟨htest, hhigh, hlow, hne, hliteral⟩
  · rintro ⟨htest, hhigh, hlow, hne, hliteral⟩
    exact ⟨htest, hhigh, hlow, hne, hliteral⟩

theorem plain_simplify (h : c.known? = none) (h' : c.simplify.known? = none) :
    c.simplify.Plain := by
  rcases c with ⟨f, g, h⟩
  simp only [simplify] at h' ⊢
  split at h'
  · grind [known?, plain_mk]
  · grind [known?, plain_mk]

namespace Plain

theorem known?_eq (hc : c.Plain) : c.known? = none := by
  rcases c with ⟨f, g, h⟩
  have hc := plain_mk.mp hc
  grind [known?]

theorem simplify_eq (hc : c.Plain) : c.simplify = c := by
  rcases c with ⟨f, g, h⟩
  have hc := plain_mk.mp hc
  grind [simplify]

theorem orient (hc : c.Plain) (hneg : -c.test ≠ c.test) : (c.orient top).Plain := by
  rcases c with ⟨f, g, h⟩
  have hc := plain_mk.mp hc
  simp only [Choice.orient]
  split
  · grind [plain_mk]
  · split
    · grind [plain_mk]
    · grind [plain_mk]

theorem positiveTest (hc : c.Plain) : c.positiveTest.Plain := by
  rcases c with ⟨f, g, h⟩
  have hc := plain_mk.mp hc
  grind [Choice.positiveTest, plain_mk]

theorem positiveHigh (hc : c.Plain) : c.positiveHigh.2.Plain := by
  rcases c with ⟨f, g, h⟩
  have hc := plain_mk.mp hc
  grind [Choice.positiveHigh, plain_mk]

end Plain

/-- An exchange brings a smaller variable to the front, so no second one follows. -/
theorem oriented_orient (hone : c.test ≠ one) (hzero : c.test ≠ zero)
    (htop : ∀ r, top (-r) = top r) : (c.orient top).Oriented top := by
  rcases c with ⟨f, g, h⟩
  simp only at hone hzero
  have hne : one ≠ zero := by decide
  have hnegone : -f ≠ one := fun h => hzero (Ref.neg_inj.mp h)
  have hnegzero : -f ≠ zero := fun h => hone (Ref.neg_inj.mp h)
  simp only [orient]
  split
  · rename_i hcond
    exact ⟨fun _ => Nat.le_of_lt hcond.2, fun h => absurd h hne, fun h => absurd h hone,
      fun h => absurd h hzero, fun h => absurd h.symm hnegone⟩
  split
  · rename_i hcond
    exact ⟨fun h => absurd h hone, fun h => absurd h hzero, fun h => absurd h.symm hne,
      fun _ => Nat.le_of_lt hcond.2, fun h => absurd h hone⟩
  split
  · rename_i hcond
    have hle : top (-g) ≤ top (-f) := by
      rw [htop, htop]
      exact Nat.le_of_lt hcond.2
    exact ⟨fun h => absurd h hnegone, fun h => absurd h hnegzero, fun _ => hle,
      fun h => absurd h hne, fun h => absurd h hnegzero⟩
  split
  · rename_i hcond
    have hle : top (-h) ≤ top (-f) := by
      rw [htop, htop]
      exact Nat.le_of_lt hcond.2
    exact ⟨fun h => absurd h.symm hne, fun _ => hle, fun h => absurd h hnegone,
      fun h => absurd h hnegzero, fun h => absurd (h.trans (Ref.neg_neg f)).symm hzero⟩
  split
  · rename_i hcond
    exact ⟨fun h => absurd h hone, fun h => absurd h hzero, fun h => absurd h hnegone,
      fun h => absurd h hnegzero, fun _ => Nat.le_of_lt hcond.2⟩
  · rename_i h₁ h₂ h₃ h₄ h₅
    constructor
    · exact fun h => Nat.not_lt.mp fun hlt => h₁ ⟨h, hlt⟩
    · exact fun h => Nat.not_lt.mp fun hlt => h₄ ⟨h, hlt⟩
    · exact fun h => Nat.not_lt.mp fun hlt => h₃ ⟨h, hlt⟩
    · exact fun h => Nat.not_lt.mp fun hlt => h₂ ⟨h, hlt⟩
    · exact fun h => Nat.not_lt.mp fun hlt => h₅ ⟨h, hlt⟩

namespace Oriented

theorem positiveTest (hc : c.Oriented top) (htop : ∀ r, top (-r) = top r) :
    c.positiveTest.Oriented top := by
  rcases c with ⟨f, g, h⟩
  simp only [Choice.positiveTest]
  split
  · refine ⟨?_, ?_, ?_, ?_, ?_⟩
    · rw [htop]
      exact hc.low_one
    · rw [htop]
      exact hc.low_zero
    · rw [htop]
      exact hc.high_one
    · rw [htop]
      exact hc.high_zero
    · intro heq
      simp only at heq
      have hle := hc.opposite (by simp only [heq, Ref.neg_neg])
      simp only at hle ⊢
      rwa [htop, heq, htop]
  · exact hc

theorem positiveHigh (hc : c.Oriented top) (htop : ∀ r, top (-r) = top r) :
    c.positiveHigh.2.Oriented top := by
  rcases c with ⟨f, g, h⟩
  simp only [Choice.positiveHigh]
  split
  · refine ⟨fun heq => ?_, fun heq => ?_, fun heq => ?_, fun heq => ?_, fun heq => ?_⟩
    · rw [htop]
      exact hc.high_zero (Ref.neg_inj.mp heq)
    · rw [htop]
      exact hc.high_one (Ref.neg_inj.mp heq)
    · rw [htop]
      exact hc.low_zero (Ref.neg_inj.mp heq)
    · rw [htop]
      exact hc.low_one (Ref.neg_inj.mp heq)
    · rw [htop]
      exact hc.opposite (Ref.neg_inj.mp heq)
  · exact hc

end Oriented

theorem test_simplify (c : Choice) : c.simplify.test = c.test := by
  rcases c with ⟨f, g, h⟩
  grind [simplify]

theorem test_positiveHigh (c : Choice) : c.positiveHigh.2.test = c.test := by
  rcases c with ⟨f, g, h⟩
  grind [positiveHigh]

theorem test_positiveTest_regular (c : Choice) : ¬ c.positiveTest.test.IsNegated := by
  rcases c with ⟨f, g, h⟩
  simp only [positiveTest]
  split
  · rename_i hf
    exact Ref.not_isNegated_neg hf
  · assumption

theorem high_positiveHigh_regular (c : Choice) : ¬ c.positiveHigh.2.high.IsNegated := by
  rcases c with ⟨f, g, h⟩
  simp only [positiveHigh]
  split
  · rename_i hg
    exact Ref.not_isNegated_neg hg
  · assumption

theorem regular_of_form (h : c.form top = .split n d) : d.Regular := by
  obtain ⟨-, -, -, rfl⟩ := form_eq_split h
  constructor
  · rw [test_positiveHigh]
    exact test_positiveTest_regular _
  · exact high_positiveHigh_regular _

theorem normal_of_form (htop : ∀ r, top (-r) = top r) (hneg : -c.test ≠ c.test)
    (h : c.form top = .split n d) : d.Normal top := by
  have hregular := regular_of_form h
  obtain ⟨hnone, hnone', -, rfl⟩ := form_eq_split h
  have hplain := plain_simplify hnone hnone'
  have horient : (c.simplify.orient top).Plain := hplain.orient (by rwa [test_simplify])
  have horiented := oriented_orient hplain.test_ne.1 hplain.test_ne.2 htop
  exact {
    toPlain := horient.positiveTest.positiveHigh
    toRegular := hregular
    oriented := (horiented.positiveTest htop).positiveHigh htop }

theorem Normal.form_eq (hc : c.Normal top) : c.form top = .split false c := by
  have htest : c.positiveTest = c := if_neg hc.test_regular
  have hhigh : c.positiveHigh = (false, c) := if_neg hc.high_regular
  simp only [form, hc.known?_eq, hc.simplify_eq, hc.oriented.orient_eq, htest, hhigh]

/-- Only the first variables of the operands matter to the normal form. -/
theorem form_congr (h : c.simplify.All fun r => top r = top' r) : c.form top = c.form top' := by
  obtain ⟨htest, hhigh, hlow⟩ := h
  have horient : c.simplify.orient top = c.simplify.orient top' := by
    simp only [orient, htest, hhigh, hlow]
  simp only [form, horient]

end AndInverter.Choice
