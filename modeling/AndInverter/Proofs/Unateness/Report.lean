import AndInverter.Proofs.Graph.WellFormed
import AndInverter.Proofs.Unateness.Dependence
import AndInverter.Unateness.Report

/-!
# Reports list the inputs by their dependence

From a verdict about each input in turn the report of an output lists the inputs of each kind by
name, in the order of the inputs. The kinds determine the report.
-/

namespace AndInverter

variable {g : Graph} {output : Nat} {kinds : Nat → Unateness} {r r' : UnatenessReport}

def Graph.namesWhere (g : Graph) (p : Nat → Prop) [DecidablePred p] :
    Except Fault (List String) :=
  ((List.range g.numInputs).filter p).mapM g.inputName

namespace UnatenessReport

/-- The report of an output that depends on each input in the given way. -/
structure Lists (r : UnatenessReport) (g : Graph) (output : Nat) (kinds : Nat → Unateness) :
    Prop where
  outputName : g.outputName output = .ok r.outputName
  positive : g.namesWhere (fun i => kinds i = .positive ∨ kinds i = .independent) = .ok r.positive
  negative : g.namesWhere (fun i => kinds i = .negative ∨ kinds i = .independent) = .ok r.negative
  binate : g.namesWhere (fun i => kinds i = .binate) = .ok r.binate

theorem Lists.eq (h : r.Lists g output kinds) (h' : r'.Lists g output kinds) : r = r' := by
  have houtput := Except.ok.inj (h.outputName.symm.trans h'.outputName)
  have hpositive := Except.ok.inj (h.positive.symm.trans h'.positive)
  have hnegative := Except.ok.inj (h.negative.symm.trans h'.negative)
  have hbinate := Except.ok.inj (h.binate.symm.trans h'.binate)
  rcases r with ⟨name, positive, negative, binate⟩
  rcases r' with ⟨name', positive', negative', binate'⟩
  dsimp only at houtput hpositive hnegative hbinate
  rw [houtput, hpositive, hnegative, hbinate]

/-- The report after more inputs, each of which is entered under its name. -/
theorem foldlM_add_eq {names : Nat → String} {is : List Nat} {vs : List Verdict}
    (hnames : ∀ i ∈ is, g.inputName i = .ok (names i))
    (hvs : List.Forall₂ (fun i v => v.input = i ∧ v.unateness = kinds i) is vs)
    (r : UnatenessReport) :
    vs.foldlM (fun r v => do return r.add (← g.inputName v.input) v.unateness) r =
      .ok {
        outputName := r.outputName
        positive := r.positive ++
          (is.filter fun i => kinds i = .positive ∨ kinds i = .independent).map names
        negative := r.negative ++
          (is.filter fun i => kinds i = .negative ∨ kinds i = .independent).map names
        binate := r.binate ++ (is.filter fun i => kinds i = .binate).map names } := by
  induction hvs generalizing r with
  | nil => simp [pure, Except.pure]
  | @cons i v is vs hv _ ih =>
    obtain ⟨hinput, hkind⟩ := hv
    rw [List.foldlM_cons, hinput, hnames i List.mem_cons_self, hkind]
    have hnames' (j : Nat) (hj : j ∈ is) := hnames j (List.mem_cons_of_mem _ hj)
    refine (ih hnames' (r.add (names i) (kinds i))).trans ?_
    cases hk : kinds i with
    | independent => simp [add, hk]
    | positive => simp [add, hk]
    | negative => simp [add, hk]
    | binate => simp [add, hk]

/-- Verdicts about all inputs in turn give the report of an output. -/
theorem ofVerdicts_lists (hg : g.WellFormed) (houtput : output < g.numOutputs) {vs : List Verdict}
    (hvs : List.Forall₂ (fun i v => v.input = i ∧ v.unateness = kinds i)
      (List.range g.numInputs) vs) :
    ∃ r, ofVerdicts g output vs = .ok r ∧ r.Lists g output kinds := by
  have hinput (i : Nat) (hi : i ∈ List.range g.numInputs) :
      g.inputName i = .ok (g.inputNames[i]?.getD "") := by
    have hlt : i < g.inputNames.size := by
      rw [hg.size_inputNames]
      exact List.mem_range.mp hi
    rw [Graph.inputName, Array.getElem?_eq_getElem hlt, Option.getD_some]
  have hname : g.outputName output = .ok (g.outputNames[output]?.getD "") := by
    have hlt : output < g.outputNames.size := by
      rw [hg.size_outputNames]
      exact houtput
    rw [Graph.outputName, Array.getElem?_eq_getElem hlt, Option.getD_some]
  have hwhere (p : Nat → Prop) [DecidablePred p] : g.namesWhere p =
      .ok (((List.range g.numInputs).filter p).map fun i => g.inputNames[i]?.getD "") :=
    Except.listMapM_eq_map fun i hi => hinput i (List.mem_filter.mp hi).1
  refine ⟨⟨_, _, _, _⟩, ?_, hname, hwhere _, hwhere _, hwhere _⟩
  rw [ofVerdicts, hname, Except.ok_bind]
  exact foldlM_add_eq hinput hvs _

end UnatenessReport

end AndInverter
