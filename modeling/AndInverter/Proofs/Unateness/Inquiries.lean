import AndInverter.Proofs.Network
import AndInverter.Proofs.Unateness.Agreement
import AndInverter.Proofs.Unateness.Storage

/-!
# Questions put to diagrams

Diagrams of all outputs, or a diagram of one, are asked how an output depends on an input, by
themselves or as part of a network, whatever their store was used for before. All such questions
leave the same behind: a store that holds the function of the output, an exact answer if there is
one, and the differences of the cofactors if the answer is a dependence both ways.
-/

namespace AndInverter

open DiagramStore

variable {g : Graph} {s : DiagramStore} {f : Ref} {bits output input : Nat}

/-- A question that diagrams were asked: the frame and the reference by which they have the function
of the output, the store that the question left, and the answer. -/
structure Inquiry where
  frame : VariableFrame
  function : Ref
  store : DiagramStore
  answer : Except Failure Verdict

def OutputDiagrams.compare (d : OutputDiagrams) (f h : Ref) : OutputDiagrams :=
  (d.operate (.ite f h .one)).operate (.ite h f .one)

def ConeDiagram.compare (d : ConeDiagram) (f h : Ref) : ConeDiagram :=
  (d.operate (.ite f h .one)).operate (.ite h f .one)

def OutputDiagrams.inquire (d : OutputDiagrams) (g : Graph) (output input : Nat) (f : Ref) :
    Inquiry :=
  ⟨frame d.numInputs, f, (d.classify g output input).2.store, (d.classify g output input).1⟩

def ConeDiagram.inquire (d : ConeDiagram) (g : Graph) (input : Nat) : Inquiry :=
  ⟨d.frame, d.function, (d.classify g input).2.store, (d.classify g input).1⟩

namespace Inquiry

/-- The questions about an output and an input of a graph that diagrams can be asked. The graph of a
network may have been hashed since its diagrams were built. -/
inductive About (output input : Nat) : Graph → Inquiry → Prop where
  | outputs {g : Graph} {bits : Nat} {d : OutputDiagrams} {f : Ref}
    (hd : OutputDiagrams.Used g bits d) (hf : d.functions[output]? = some f) :
    About output input g (d.inquire g output input f)
  | network {g : Graph} {n : Network} {d : OutputDiagrams} {f : Ref} (hg : g.Built)
    (hn : Network.Reached g n) (hd : n.diagrams = some d) (hf : d.functions[output]? = some f) :
    About output input n.graph (d.inquire n.graph output input f)
  | cone {g : Graph} {bits : Nat} {d : ConeDiagram} (hd : ConeDiagram.Used g output bits d) :
    About output input g (d.inquire g input)

structure Sound (q : Inquiry) (g : Graph) (output input : Nat) : Prop where
  reduced : q.store.Reduced
  output_lt : output < g.numOutputs
  numInputs_eq : q.frame.numInputs = g.numInputs
  covers : q.frame.Covers (g.truthFunction output)
  denotes : q.store.Denotes (q.frame.read (g.truthFunction output)) q.function
  yields : Yields q.answer
    (fun v => v.Exact g.numInputs (g.truthFunction output) output input ∧
      (v.unateness = .binate →
        q.store.HoldsComparison (q.frame.read (g.truthFunction output)) (q.frame.varOf input)))
    fun e => ∃ e', e = .error e'

/-- A question that compares the cofactors of the function. -/
theorem sound_of_grows {query : DiagramQuery Verdict} {frame : VariableFrame}
    (hs : s.Reduced) (houtput : output < g.numOutputs) (hframe : frame.numInputs = g.numInputs)
    (hcovers : frame.Covers (g.truthFunction output))
    (hf : s.Denotes (frame.read (g.truthFunction output)) f)
    (h : Grows query s fun v s' =>
      v.Exact g.numInputs (g.truthFunction output) output input ∧
        s'.HoldsComparison (frame.read (g.truthFunction output)) (frame.varOf input)) :
    Sound ⟨frame, f, (query.run s).2, (query.run s).1⟩ g output input where
  reduced := h.final_extends.2.toReduced
  output_lt := houtput
  numInputs_eq := hframe
  covers := hcovers
  denotes := hf.of_extends hs h.final_extends.1
  yields := by
    simp only [Grows, Ensures] at h
    split at h
    · rename_i v s' hrun
      obtain ⟨-, -, hexact, hholds⟩ := h
      rw [hrun]
      exact ⟨hexact, fun _ => hholds⟩
    · rename_i e s' hrun
      obtain ⟨stage, rfl⟩ := h.isFull
      rw [hrun]
      exact ⟨_, rfl⟩

end Inquiry

theorem OutputDiagrams.Shows.sound {d : OutputDiagrams} (hd : d.Shows g bits)
    (hf : d.functions[output]? = some f) :
    (d.inquire g output input f).Sound g output input := by
  have houtput : output < g.numOutputs := hd.size_eq ▸ (Array.getElem?_eq_some_iff.mp hf).1
  obtain ⟨f', hf', hden⟩ := hd.denotes houtput
  obtain rfl : f = f' := Option.some.inj (hf.symm.trans hf')
  have hcovers := covers_frame (g.dependsOn_truthFunction output)
  have hread := denotes_read hden
  rw [← hd.numInputs_eq] at hcovers hread
  unfold inquire
  by_cases hinput : input < g.numInputs
  · have hgrows := hd.comparison_grows hinput output hden
    rw [hd.classify_eq houtput hinput hf]
    rw [← hd.numInputs_eq] at hinput
    refine Inquiry.sound_of_grows hd.wellFormed.toReduced houtput hd.numInputs_eq hcovers hread ?_
    rw [varOf_frame hinput]
    rwa [← hd.numInputs_eq] at hgrows ⊢
  · rw [classify_of_not_input d houtput hinput]
    exact ⟨hd.wellFormed.toReduced, houtput, hd.numInputs_eq, hcovers, hread, _, rfl⟩

theorem ConeDiagram.Shows.sound {d : ConeDiagram} (hd : d.Shows g output bits)
    (houtput : output < g.numOutputs) : (d.inquire g input).Sound g output input := by
  unfold inquire
  by_cases hinput : input < g.numInputs
  · by_cases hv : d.frame.varOf input = 0
    · have hanswer := (hd.classify input).2 hinput
      rw [classify_of_varOf_eq_zero hinput hv] at hanswer ⊢
      refine ⟨hd.wellFormed.toReduced, houtput, hd.numInputs_eq, hd.covers, hd.denotes, hanswer,
        fun hbinate => ?_⟩
      cases hbinate
    · rw [classify_of_varOf_ne_zero hinput hv]
      exact Inquiry.sound_of_grows hd.wellFormed.toReduced houtput hd.numInputs_eq hd.covers
        hd.denotes (hd.comparison_grows hv)
  · rw [classify_of_refused d hinput]
    exact ⟨hd.wellFormed.toReduced, houtput, hd.numInputs_eq, hd.covers, hd.denotes, _, rfl⟩

theorem ConeDiagram.Used.lt_numOutputs {d : ConeDiagram} (h : Used g output bits d) :
    output < g.numOutputs := by
  induction h with
  | start h => exact lt_numOutputs_of_ofOutput h
  | classify _ _ ih => exact ih
  | operate _ _ ih => exact ih

namespace Inquiry

variable {q : Inquiry} {v : Verdict}

theorem About.sound (hg : g.Built) (hq : q.About output input g) : q.Sound g output input := by
  cases hq with
  | outputs hd hf => exact (hd.shows hg.wellFormed).sound hf
  | network hg₀ hn hd hf =>
    obtain ⟨bits, hshows⟩ := (hn.current hg₀).shows hd
    exact hshows.sound hf
  | cone hd => exact (hd.shows hg.wellFormed hd.lt_numOutputs).sound hd.lt_numOutputs

namespace Sound

theorem sensitive (hq : q.Sound g output input) (hv : q.answer = .ok v)
    (hbinate : v.unateness = .binate) : Sensitive (g.truthFunction output) input :=
  (((hq.yields.of_eq_ok hv).1.describes _).mp hbinate).sensitive

/-- An input that an output depends on both ways has a variable. -/
theorem mem_inputs (hq : q.Sound g output input) (hv : q.answer = .ok v)
    (hbinate : v.unateness = .binate) : input ∈ q.frame.inputs :=
  mem_of_sensitive (hq.sensitive hv hbinate) hq.covers.dependsOn

theorem mem_relevant (hq : q.Sound g output input) (hv : q.answer = .ok v)
    (hbinate : v.unateness = .binate) :
    input ∈ relevant q.frame.numInputs (g.truthFunction output) :=
  AndInverter.mem_relevant.mpr
    ⟨hq.covers.lt_numInputs (hq.mem_inputs hv hbinate), hq.sensitive hv hbinate⟩

end Sound

end Inquiry

end AndInverter
