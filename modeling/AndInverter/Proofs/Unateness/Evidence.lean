import AndInverter.Proofs.Assignments
import AndInverter.Proofs.Unateness.Dependence

/-!
# Exact verdicts

The evidence that diagrams give is determined by the function alone: the patterns are the lowest
assignments under which the output follows the input, rising or falling, and the counts are those of
such assignments of the other relevant inputs.
-/

namespace AndInverter

def follows (F : (Nat → Bool) → Bool) (i : Nat) (b : Bool) (x : Nat → Bool) : Bool :=
  F (Function.update x i b) && !F (Function.update x i !b)

def Pattern.leaving (n i : Nat) (x : Nat → Bool) : Pattern :=
  ⟨(Array.range n).map fun j => if j = i then none else some (x j)⟩

open Classical in
noncomputable def relevant (n : Nat) (F : (Nat → Bool) → Bool) : Finset Nat :=
  (Finset.range n).filter (Sensitive F)

/-- Evidence for a dependence on the input `i` among `n`, as low as possible and counted. -/
structure Witness.Exact (n : Nat) (F : (Nat → Bool) → Bool) (i : Nat) (w : Witness) : Prop where
  rising : ∃ x, Lowest (follows F i true) x ∧ w.rising = .leaving n i x
  falling : ∃ x, Lowest (follows F i false) x ∧ w.falling = .leaving n i x
  risingCount : w.risingCount = some (countOn ((relevant n F).erase i) (follows F i true))
  fallingCount : w.fallingCount = some (countOn ((relevant n F).erase i) (follows F i false))

structure Verdict.Exact (n : Nat) (F : (Nat → Bool) → Bool) (output i : Nat) (v : Verdict) :
    Prop where
  output_eq : v.output = output
  input_eq : v.input = i
  describes (u : Unateness) : v.unateness = u ↔ u.Describes F i
  evidence : (v.unateness ≠ .binate ∧ v.witness = none) ∨
    v.unateness = .binate ∧ ∃ w, v.witness = some w ∧ w.Exact n F i

variable {F : (Nat → Bool) → Bool} {S : Set Nat} {x y : Nat → Bool} {n i j output : Nat} {b : Bool}

theorem follows_true_iff : follows F i true x = true ↔ Rises F i x := by
  rw [follows, Rises, Bool.and_eq_true, Bool.not_eq_true', and_comm]
  rfl

theorem follows_false_iff : follows F i false x = true ↔ Falls F i x := by
  rw [follows, Falls, Bool.and_eq_true, Bool.not_eq_true']
  rfl

/-- Whether a function follows an input depends on the other inputs alone. -/
theorem dependsOn_follows (hF : DependsOn F S) : DependsOn (follows F i b) (S \ {i}) := by
  intro x y hxy
  have hpart (a : Bool) : F (Function.update x i a) = F (Function.update y i a) := by
    apply hF
    intro j hj
    by_cases hji : j = i
    · rw [hji, Function.update_self, Function.update_self]
    · rw [Function.update_of_ne hji, Function.update_of_ne hji]
      exact hxy j ⟨hj, hji⟩
  rw [follows, follows, hpart, hpart]

theorem sensitive_iff_not_independent : Sensitive F i ↔ ¬ Unateness.independent.Describes F i :=
  not_forall.symm

theorem mem_relevant : j ∈ relevant n F ↔ j < n ∧ Sensitive F j := by
  classical
  unfold relevant
  rw [Finset.mem_filter, Finset.mem_range]

theorem Unateness.Describes.sensitive (h : Unateness.binate.Describes F i) : Sensitive F i := by
  obtain ⟨⟨x, hlow, hhigh⟩, -⟩ := h
  refine ⟨x, ?_⟩
  rw [hlow, hhigh]
  exact Bool.false_ne_true

theorem Witness.Exact.eq {v w : Witness} (hv : v.Exact n F i) (hw : w.Exact n F i) : v = w := by
  obtain ⟨x, hx, hvrising⟩ := hv.rising
  obtain ⟨x', hx', hwrising⟩ := hw.rising
  obtain ⟨y, hy, hvfalling⟩ := hv.falling
  obtain ⟨y', hy', hwfalling⟩ := hw.falling
  have hrising : v.rising = w.rising := by rw [hvrising, hwrising, hx.eq hx']
  have hfalling : v.falling = w.falling := by rw [hvfalling, hwfalling, hy.eq hy']
  have hrisingCount := hv.risingCount.trans hw.risingCount.symm
  have hfallingCount := hv.fallingCount.trans hw.fallingCount.symm
  cases v
  cases w
  rw [Witness.mk.injEq]
  exact ⟨hrising, hfalling, hrisingCount, hfallingCount⟩

namespace Verdict.Exact

variable {v w : Verdict}

/-- There is one exact verdict on a function and an input. -/
theorem eq (hv : v.Exact n F output i) (hw : w.Exact n F output i) : v = w := by
  have hunate : v.unateness = w.unateness := (hv.describes _).mpr ((hw.describes _).mp rfl)
  have hwitness : v.witness = w.witness := by
    rcases hv.evidence with ⟨hne, hnone⟩ | ⟨hbinate, a, ha, hexact⟩
    · rcases hw.evidence with ⟨-, hnone'⟩ | ⟨hbinate', -⟩
      · rw [hnone, hnone']
      · exact absurd (hunate.trans hbinate') hne
    · rcases hw.evidence with ⟨hne', -⟩ | ⟨-, a', ha', hexact'⟩
      · exact absurd (hunate.symm.trans hbinate) hne'
      · rw [ha, ha', hexact.eq hexact']
  have houtput := hv.output_eq.trans hw.output_eq.symm
  have hinput := hv.input_eq.trans hw.input_eq.symm
  cases v
  cases w
  rw [Verdict.mk.injEq]
  exact ⟨houtput, hinput, hunate, hwitness⟩

/-- A dependence both ways has exact evidence. -/
theorem exists_witness (h : v.Exact n F output i) (hbinate : v.unateness = .binate) :
    ∃ w, v = .binate output i w ∧ w.Exact n F i := by
  rcases h.evidence with ⟨hne, -⟩ | ⟨-, w, hw, hexact⟩
  · exact absurd hbinate hne
  · refine ⟨w, ?_, hexact⟩
    rw [binate, ← h.output_eq, ← h.input_eq, ← hbinate, ← hw]

/-- A verdict other than a dependence both ways needs no evidence. -/
theorem of_describes {u : Unateness} (hu : u ≠ .binate)
    (h : ∀ u', u = u' ↔ u'.Describes F i) :
    Verdict.Exact n F output i { output, input := i, unateness := u } :=
  ⟨rfl, rfl, h, .inl ⟨hu, rfl⟩⟩

end Verdict.Exact

end AndInverter
