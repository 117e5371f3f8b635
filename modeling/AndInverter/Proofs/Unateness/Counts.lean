import AndInverter.Proofs.Unateness.Inquiries

/-!
# Diagrams count exactly

The models of the difference of two cofactors are counted over all variables of the store. What the
function does not test, and the variable that has been set, double the count each, so the shift that
takes them out takes away zero bits, and there are never more tested variables than variables.
-/

namespace AndInverter

open DiagramStore

variable {g : Graph} {b : Bool} {output input : Nat}

/-- The number of assignments of the other inputs that an output is sensitive to, under which it is
`b` with the input in question high and the opposite with this input low. -/
noncomputable def Graph.followingCount (g : Graph) (output input : Nat) (b : Bool) : Nat :=
  countOn ((relevant g.numInputs (g.truthFunction output)).erase input)
    (follows (g.truthFunction output) input b)

namespace Inquiry

/-- The store has the function whose models are the assignments under which the output is `b` with
the input high and the opposite with it low. Inputs that are not counted do not matter to it, and
its models are as many as have been counted, with a zero bit for each variable that is free. -/
structure Counted (q : Inquiry) (g : Graph) (output input : Nat) (b : Bool) : Prop where
  dependsOn : DependsOn (follows (g.truthFunction output) input b)
    ((relevant g.numInputs (g.truthFunction output)).erase input : Set Nat)
  exists_denotes : ∃ r,
    q.store.Denotes (follows (q.frame.read (g.truthFunction output)) (q.frame.varOf input) b) r
  modelCount_eq {r : Ref} :
    q.store.Denotes (follows (q.frame.read (g.truthFunction output)) (q.frame.varOf input) b) r →
      q.store.modelCount r q.frame.numVars = g.followingCount output input b <<<
        (q.frame.numVars - (q.store.support q.function).length + 1)

variable {q : Inquiry} {v : Verdict}

namespace Sound

/-- The diagram tests no more variables than there are. -/
theorem length_support_le (hq : q.Sound g output input) :
    (q.store.support q.function).length ≤ q.frame.numVars := by
  rw [hq.covers.length_support hq.reduced hq.denotes]
  exact hq.covers.card_relevant_le

theorem counted (hq : q.Sound g output input) (hv : q.answer = .ok v)
    (hbinate : v.unateness = .binate) (b : Bool) : q.Counted g output input b where
  dependsOn := by
    have hdepends := dependsOn_follows (i := input) (b := b) hq.covers.dependsOn_relevant
    rw [hq.numInputs_eq] at hdepends
    rw [Finset.coe_erase]
    exact hdepends
  exists_denotes := by
    obtain ⟨hexact, hholds⟩ := hq.yields.of_eq_ok hv
    obtain ⟨hrises, hfalls⟩ : Unateness.binate.Describes (q.frame.read (g.truthFunction output))
        (q.frame.varOf input) :=
      (hq.covers.describes_read (hq.mem_inputs hv hbinate)).mpr ((hexact.describes _).mp hbinate)
    exact (hholds hbinate).differences hrises hfalls b
  modelCount_eq hr := by
    have hcount := hq.covers.modelCount_eq hq.reduced hq.denotes (hq.mem_relevant hv hbinate) hr
    rwa [← hq.covers.length_support hq.reduced hq.denotes, hq.numInputs_eq] at hcount

end Sound

/-- The number of variables that are left free is never taken from too few, and no question fails by
a fault. Whenever diagrams answer that an output depends both ways on an input, the counts are those
of the assignments of the other inputs that the output is sensitive to, under which it follows the
input or the negated input, and the shift that gives them takes away zero bits only. -/
theorem About.counts_exact (hg : g.Built) (hq : q.About output input g) :
    (q.store.support q.function).length ≤ q.frame.numVars ∧
    q.frame.numFree q.store q.function =
      .ok (q.frame.numVars - (q.store.support q.function).length + 1) ∧
    (∀ f, q.answer ≠ .error (.fault f)) ∧
    ∀ v, q.answer = .ok v → v.unateness = .binate → ∃ w, v = .binate output input w ∧
      w.risingCount = some (g.followingCount output input true) ∧
      w.fallingCount = some (g.followingCount output input false) ∧
      ∀ b, q.Counted g output input b := by
  have hsound := hq.sound hg
  have hle := hsound.length_support_le
  refine ⟨hle, if_pos hle, fun f hfault => ?_, fun v hv hbinate => ?_⟩
  · obtain ⟨e, he⟩ := hsound.yields.of_eq_error hfault
    cases he
  · obtain ⟨w, hw, hexact⟩ := (hsound.yields.of_eq_ok hv).1.exists_witness hbinate
    exact ⟨w, hw, hexact.risingCount, hexact.fallingCount, hsound.counted hv hbinate⟩

/-- With diagrams of all outputs, `Graph.switched` has five variables. Its output does not depend on
the first one, and it follows the second input under two of the eight assignments of the others. -/
theorem About.counts_exact_switched : Graph.switched.Built ∧ ∃ q v w,
    About 0 1 .switched q ∧ q.answer = .ok v ∧ v = .binate 0 1 w ∧ q.frame.numVars = 5 ∧
      (q.store.support q.function).length = 4 ∧ w.risingCount = some 2 ∧ w.fallingCount = some 2 ∧
      Graph.switched.followingCount 0 1 true = 2 ∧ Graph.switched.followingCount 0 1 false = 2 ∧
      ∀ b, q.Counted .switched 0 1 b := by
  have heval : (OutputDiagrams.ofGraph .switched 5).toOption.any (fun d =>
      decide ((Operation.ite ⟨16⟩ ⟨17⟩ .one).Admissible d.store ∧
        (Operation.ite ⟨17⟩ ⟨16⟩ .one).Admissible (d.operate (.ite ⟨16⟩ ⟨17⟩ .one)).store ∧
        (d.compare ⟨16⟩ ⟨17⟩).functions[0]?.any fun f => decide (
          let q := (d.compare ⟨16⟩ ⟨17⟩).inquire .switched 0 1 f
          q.frame.numVars = 5 ∧ (q.store.support q.function).length = 4 ∧
            q.answer.toOption.any fun v => decide (v.unateness = .binate ∧
              v.witness.map Witness.risingCount = some (some 2) ∧
              v.witness.map Witness.fallingCount = some (some 2))))) = true := by
    decide +kernel
  obtain ⟨d, hd, hdall⟩ := Except.exists_eq_ok_of_any heval
  obtain ⟨hd₁, hd₂, hdall⟩ := of_decide_eq_true hdall
  obtain ⟨f, hf, hfall⟩ := (Option.any_eq_true _ _).mp hdall
  obtain ⟨hvars, hsupport, hvall⟩ := of_decide_eq_true hfall
  obtain ⟨v, hv, hvall⟩ := Except.exists_eq_ok_of_any hvall
  obtain ⟨hbinate, hrising, hfalling⟩ := of_decide_eq_true hvall
  have hused := ((OutputDiagrams.Used.start hd).operate hd₁).operate hd₂
  have hq : About 0 1 .switched _ := .outputs hused hf
  obtain ⟨-, -, -, hcounts⟩ := About.counts_exact Graph.switched_built hq
  obtain ⟨w, rfl, hrises, hfalls, hcounted⟩ := hcounts v hv hbinate
  have hrising := Option.some.inj hrising
  have hfalling := Option.some.inj hfalling
  exact ⟨Graph.switched_built, _, _, w, hq, hv, rfl, hvars, hsupport, hrising, hfalling,
    Option.some.inj (hrises.symm.trans hrising), Option.some.inj (hfalls.symm.trans hfalling),
    hcounted⟩

end Inquiry

end AndInverter
