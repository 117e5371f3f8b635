import AndInverter.Proofs.Diagram.Fitting
import AndInverter.Proofs.Unateness.Cofactors

/-!
# Comparisons find room where they were made before

A store that fits into one that holds all that a comparison makes has room for the comparison.
-/

namespace AndInverter

open DiagramStore DiagramQuery

variable {s t : DiagramStore} {frame : VariableFrame} {F : (Nat → Bool) → Bool}
  {f low high rising falling : Ref} {i output : Nat}

theorem evidence_findsRoom (hs : s.WellFormed) (hfits : s.Fits t) (h : frame.Covers F)
    (hf : s.Denotes (frame.read F) f) (hi : i ∈ frame.inputs)
    (hrising : s.Denotes (follows (frame.read F) (frame.varOf i) true) rising)
    (hfalling : s.Denotes (follows (frame.read F) (frame.varOf i) false) falling)
    (hbinate : ∀ u, Unateness.binate = u ↔ u.Describes F i) :
    FindsRoom (evidence frame f output i rising falling) s t := by
  obtain ⟨p, q, free, hp, hq, hfree, -⟩ :=
    h.exact_binate hs.toReduced hf hi output hrising hfalling hbinate
  apply Ensures.bindGet
  apply Ensures.bindExcept (congrArg (Except.mapError Failure.fault) hp)
  apply Ensures.bindExcept (congrArg (Except.mapError Failure.fault) hq)
  apply Ensures.bindExcept (congrArg (Except.mapError Failure.fault) hfree)
  exact .result hfits

theorem differences_findsRoom (hs : s.WellFormed) (ht : t.Reduced) (hfits : s.Fits t)
    (h : frame.Covers F) (hf : s.Denotes (frame.read F) f) (hi : i ∈ frame.inputs)
    (hparts : s.DenotesCofactors (frame.read F) (frame.varOf i) low high)
    (hholds : t.HoldsComparison (frame.read F) (frame.varOf i))
    (hbinate : ∀ u, Unateness.binate = u ↔ u.Describes F i) :
    FindsRoom (differences frame f output i low high) s t := by
  obtain ⟨hrises, hfalls⟩ := h.describes_read hi |>.mpr ((hbinate .binate).mp rfl)
  obtain ⟨p, hp⟩ := hholds.differences hrises hfalls true
  obtain ⟨q, hq⟩ := hholds.differences hrises hfalls false
  have hlow := hparts.low.holds
  have hhigh := hparts.high.holds
  have hrising := hp.congr fun x => (hparts.rising_eq hs.toReduced x).symm
  refine ((StoreM.and_findsRoom hs ht hfits hhigh (holds_neg.mpr hlow) hrising).adapt _).bind
    ((StoreM.and_grows hs hhigh (holds_neg.mpr hlow)).during _)
    fun rising s₁ hext₁ hs₁ hrising hfits₁ => ?_
  have hrising := hrising.congr (hparts.rising_eq hs.toReduced)
  have hparts₁ := hparts.of_extends hs.toReduced hext₁
  have hlow := hparts₁.low.holds
  have hhigh := hparts₁.high.holds
  have hfalling := hq.congr fun x => (hparts₁.falling_eq hs₁.toReduced x).symm
  refine ((StoreM.and_findsRoom hs₁ ht hfits₁ hlow (holds_neg.mpr hhigh) hfalling).adapt _).bind
    ((StoreM.and_grows hs₁ hlow (holds_neg.mpr hhigh)).during _)
    fun falling s₂ hext₂ hs₂ hfalling hfits₂ => ?_
  have hfalling := hfalling.congr (hparts₁.falling_eq hs₁.toReduced)
  exact evidence_findsRoom hs₂ hfits₂ h (hf.of_extends hs.toReduced (hext₁.trans hext₂)) hi
    (hrising.of_extends hs₁.toReduced hext₂) hfalling hbinate

theorem compareFalling_findsRoom (hs : s.WellFormed) (ht : t.Reduced) (hfits : s.Fits t)
    (h : frame.Covers F) (hf : s.Denotes (frame.read F) f) (hi : i ∈ frame.inputs)
    (hparts : s.DenotesCofactors (frame.read F) (frame.varOf i) low high)
    (hholds : t.HoldsComparison (frame.read F) (frame.varOf i))
    (hfalls : ∃ x, Falls (frame.read F) (frame.varOf i) x) :
    FindsRoom (compareFalling frame f output i low high) s t := by
  have hlow := hparts.low.holds
  have hhigh := hparts.high.holds
  refine ((StoreM.implies_findsRoom hs hfits hhigh hlow).adapt _).bind
    ((StoreM.implies_grows hs hhigh hlow).during _) fun b s₁ hext₁ hs₁ hb hfits₁ => ?_
  split
  · exact .result hfits₁ _
  rename_i himplies
  have hrises : ∃ x, Rises (frame.read F) (frame.varOf i) x := by
    simp only [hparts.low.eval_eq, hparts.high.eval_eq] at hb
    rw [← not_exists_rises_iff] at hb
    exact not_not.mp fun hn => himplies (hb.mpr hn)
  exact differences_findsRoom hs₁ ht hfits₁ h (hf.of_extends hs.toReduced hext₁) hi
    (hparts.of_extends hs.toReduced hext₁) hholds
    (@VariableFrame.Covers.ofChanges_eq_iff _ _ _ h hi true true (by simpa using hrises)
      (by simpa using hfalls))

theorem compareParts_findsRoom (hs : s.WellFormed) (ht : t.Reduced) (hfits : s.Fits t)
    (h : frame.Covers F) (hf : s.Denotes (frame.read F) f) (hi : i ∈ frame.inputs)
    (hparts : s.DenotesCofactors (frame.read F) (frame.varOf i) low high)
    (hholds : t.HoldsComparison (frame.read F) (frame.varOf i)) :
    FindsRoom (compareParts frame f output i low high) s t := by
  have hlow := hparts.low.holds
  have hhigh := hparts.high.holds
  unfold compareParts
  dsimp only
  split
  · exact .result hfits _
  refine ((StoreM.implies_findsRoom hs hfits hlow hhigh).adapt _).bind
    ((StoreM.implies_grows hs hlow hhigh).during _) fun b s₁ hext₁ hs₁ hb hfits₁ => ?_
  split
  · exact .result hfits₁ _
  rename_i himplies
  have hfalls : ∃ x, Falls (frame.read F) (frame.varOf i) x := by
    simp only [hparts.low.eval_eq, hparts.high.eval_eq] at hb
    rw [← not_exists_falls_iff] at hb
    exact not_not.mp fun hn => himplies (hb.mpr hn)
  exact compareFalling_findsRoom hs₁ ht hfits₁ h (hf.of_extends hs.toReduced hext₁) hi
    (hparts.of_extends hs.toReduced hext₁) hholds hfalls

/-- A comparison that another store holds is made again, in whatever order functions were added. -/
theorem compareCofactors_findsRoom (hs : s.WellFormed) (ht : t.Reduced) (hfits : s.Fits t)
    (h : frame.Covers F) (hf : s.Denotes (frame.read F) f) (hi : i ∈ frame.inputs)
    (hholds : t.HoldsComparison (frame.read F) (frame.varOf i)) (output : Nat) :
    FindsRoom (compareCofactors frame f (frame.varOf i) output i) s t := by
  have hv : frame.varOf i ≠ 0 := Nat.pos_iff_ne_zero.mp (VariableFrame.varOf_pos hi)
  obtain ⟨p, q, hp, hq⟩ := hholds.cofactors
  rw [compareCofactors_eq]
  have hlow := hp.congr fun x => (hf.eval_eq (Function.update x (frame.varOf i) false)).symm
  refine ((StoreM.restrict_findsRoom hs ht hfits hf.holds hv hlow).adapt _).bind
    ((StoreM.restrict_grows hs hf.holds hv).during _) fun low s₁ hext₁ hs₁ hlow hfits₁ => ?_
  simp only [hf.eval_eq] at hlow
  have hf₁ := hf.of_extends hs.toReduced hext₁
  have hhigh := hq.congr fun x => (hf₁.eval_eq (Function.update x (frame.varOf i) true)).symm
  refine ((StoreM.restrict_findsRoom hs₁ ht hfits₁ hf₁.holds hv hhigh).adapt _).bind
    ((StoreM.restrict_grows hs₁ hf₁.holds hv).during _) fun high s₂ hext₂ hs₂ hhigh hfits₂ => ?_
  simp only [hf₁.eval_eq] at hhigh
  exact compareParts_findsRoom hs₂ ht hfits₂ h (hf₁.of_extends hs₁.toReduced hext₂) hi
    ⟨hlow.of_extends hs₁.toReduced hext₂, hhigh⟩ hholds

end AndInverter
