import AndInverter.Proofs.Diagram.Reached
import AndInverter.Proofs.Unateness.Diagrams

/-!
# The verdicts of diagrams do not depend on the store

A store of all outputs and a store of the inputs of one cone number their variables differently and
hold different nodes, and both may have been used before. Every verdict that both of them give is
the exact verdict, which the function of the output determines.
-/

namespace AndInverter

variable {g : Graph} {bits bits' output input : Nat} {v w : Verdict}

namespace OutputDiagrams

def operate (d : OutputDiagrams) (op : Operation) : OutputDiagrams :=
  { d with store := (op.run.run d.store).2 }

/-- The diagrams of a graph after queries and after other uses of their store, failed or not. -/
inductive Used (g : Graph) (bits : Nat) : OutputDiagrams → Prop where
  | start {d : OutputDiagrams} : ofGraph g bits = .ok d → Used g bits d
  | classify {d : OutputDiagrams} (h : Used g bits d) (output input : Nat) :
    Used g bits (d.classify g output input).2
  | operate {d : OutputDiagrams} (h : Used g bits d) {op : Operation}
    (hop : op.Admissible d.store) : Used g bits (d.operate op)

theorem Used.shows (hg : g.WellFormed) {d : OutputDiagrams} (h : Used g bits d) :
    d.Shows g bits := by
  induction h with
  | start h => exact (ofGraph_yields hg bits).of_eq_ok h
  | classify _ output input ih => exact (ih.classify output input).1
  | operate _ hop ih =>
    obtain ⟨hext, hs⟩ := (Operation.run_grows ih.wellFormed hop).final_extends
    exact ih.of_extends hs hext

end OutputDiagrams

namespace ConeDiagram

def operate (c : ConeDiagram) (op : Operation) : ConeDiagram :=
  { c with store := (op.run.run c.store).2 }

inductive Used (g : Graph) (output bits : Nat) : ConeDiagram → Prop where
  | start {c : ConeDiagram} : ofOutput g output bits = .ok c → Used g output bits c
  | classify {c : ConeDiagram} (h : Used g output bits c) (input : Nat) :
    Used g output bits (c.classify g input).2
  | operate {c : ConeDiagram} (h : Used g output bits c) {op : Operation}
    (hop : op.Admissible c.store) : Used g output bits (c.operate op)

theorem Used.shows (hg : g.WellFormed) (houtput : output < g.numOutputs) {c : ConeDiagram}
    (h : Used g output bits c) : c.Shows g output bits := by
  induction h with
  | start h => exact (ofOutput_yields hg houtput bits).of_eq_ok h
  | classify _ input ih => exact (ih.classify input).1
  | operate _ hop ih =>
    obtain ⟨hext, hs⟩ := (Operation.run_grows ih.wellFormed hop).final_extends
    exact ih.of_extends hs hext

end ConeDiagram

/-- Whatever both stores were used for, an output and an input in range get one verdict from them,
with the same patterns and the same counts. -/
theorem diagrams_agree (hg : g.Built) (houtput : output < g.numOutputs)
    (hinput : input < g.numInputs) {d : OutputDiagrams} (hd : OutputDiagrams.Used g bits d)
    {c : ConeDiagram} (hc : ConeDiagram.Used g output bits' c)
    (hv : (d.classify g output input).1 = .ok v) (hw : (c.classify g input).1 = .ok w) : v = w := by
  have hwf := hg.wellFormed
  have hvexact := ((hd.shows hwf).classify output input).2 houtput hinput
  have hwexact := ((hc.shows hwf houtput).classify input).2 hinput
  exact (hvexact.of_eq_ok hv).eq (hwexact.of_eq_ok hw)

/-- Five inputs. If the second and the third differ the output is the fourth, else the fifth. -/
def Graph.switched : Graph :=
  let g := ((Build.input (some "a")).run .empty).2
  let g := ((Build.input (some "s")).run g).2
  let g := ((Build.input (some "t")).run g).2
  let g := ((Build.input (some "x")).run g).2
  let g := ((Build.input (some "y")).run g).2
  let g := ((Build.gate ⟨2, false⟩ ⟨3, true⟩).run g).2
  let g := ((Build.gate ⟨2, true⟩ ⟨3, false⟩).run g).2
  let g := ((Build.gate ⟨6, true⟩ ⟨7, true⟩).run g).2
  let g := ((Build.gate ⟨4, false⟩ ⟨8, true⟩).run g).2
  let g := ((Build.gate ⟨5, false⟩ ⟨8, false⟩).run g).2
  let g := ((Build.gate ⟨9, true⟩ ⟨10, true⟩).run g).2
  ((Build.output ⟨11, true⟩ (some "z")).run g).2

theorem Graph.switched_built : switched.Built :=
  .output (.gate (.gate (.gate (.gate (.gate (.gate (.input (.input (.input (.input (.input .empty
    _) _) _) _) _) _ _) _ _) _ _) _ _) _ _) _ _) _ _

/-- The output depends both ways on its second input, which is variable two of all outputs and
variable one of the cone. In both stores the cofactors have been compared before. -/
theorem diagrams_agree_switched : Graph.switched.Built ∧ 0 < Graph.switched.numOutputs ∧
    1 < Graph.switched.numInputs ∧
    ∃ d c v, OutputDiagrams.Used .switched 5 d ∧ ConeDiagram.Used .switched 0 6 c ∧
      (d.classify .switched 0 1).1 = .ok v ∧ (c.classify .switched 1).1 = .ok v ∧
      v.unateness = .binate := by
  have hglobal : (OutputDiagrams.ofGraph .switched 5).toOption.any (fun d =>
      decide ((Operation.ite ⟨16⟩ ⟨17⟩ .one).Admissible d.store ∧
        (Operation.ite ⟨17⟩ ⟨16⟩ .one).Admissible (d.operate (.ite ⟨16⟩ ⟨17⟩ .one)).store ∧
        (((d.operate (.ite ⟨16⟩ ⟨17⟩ .one)).operate (.ite ⟨17⟩ ⟨16⟩ .one)).classify
          .switched 0 1).1.toOption.map Verdict.unateness = some .binate)) = true := by
    decide +kernel
  have hcone : (ConeDiagram.ofOutput .switched 0 6).toOption.any (fun c =>
      decide ((Operation.ite ⟨15⟩ ⟨16⟩ .one).Admissible c.store ∧
        (Operation.ite ⟨16⟩ ⟨15⟩ .one).Admissible (c.operate (.ite ⟨15⟩ ⟨16⟩ .one)).store ∧
        (((c.operate (.ite ⟨15⟩ ⟨16⟩ .one)).operate (.ite ⟨16⟩ ⟨15⟩ .one)).classify
          .switched 1).1.toOption.map Verdict.unateness = some .binate)) = true := by
    decide +kernel
  obtain ⟨d, hd, hdall⟩ := Except.exists_eq_ok_of_any hglobal
  obtain ⟨hd₁, hd₂, hdv⟩ := of_decide_eq_true hdall
  obtain ⟨v, hv, hbinate⟩ := Option.map_eq_some_iff.mp hdv
  obtain ⟨c, hc, hcall⟩ := Except.exists_eq_ok_of_any hcone
  obtain ⟨hc₁, hc₂, hcw⟩ := of_decide_eq_true hcall
  obtain ⟨w, hw, -⟩ := Option.map_eq_some_iff.mp hcw
  have hdused := ((OutputDiagrams.Used.start hd).operate hd₁).operate hd₂
  have hcused := ((ConeDiagram.Used.start hc).operate hc₁).operate hc₂
  have hv := Except.eq_ok_of_toOption hv
  have hw := Except.eq_ok_of_toOption hw
  have houtput : 0 < Graph.switched.numOutputs := by decide
  have hinput : 1 < Graph.switched.numInputs := by decide
  obtain rfl := diagrams_agree Graph.switched_built houtput hinput hdused hcused hv hw
  exact ⟨Graph.switched_built, houtput, hinput, _, _, v, hdused, hcused, hv, hw, hbinate⟩

end AndInverter
