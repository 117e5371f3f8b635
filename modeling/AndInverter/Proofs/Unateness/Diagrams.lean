import AndInverter.Proofs.Graph.Building
import AndInverter.Proofs.Unateness.Drawing

/-!
# Unateness by diagrams is exact

With diagrams of all outputs, or of the one in question, every query about an input in range answers
the dependence of the output on the input, or reports that the store is full, whatever was asked
before.
-/

namespace AndInverter

open DiagramStore DiagramQuery

variable {g : Graph} {s : DiagramStore} {bits output input : Nat}

/-- What a query may answer: the dependence, or that the store of `2 ^ bits` cells is full. -/
def AnswersOrFull (g : Graph) (bits output input : Nat) (s : DiagramStore) :
    Except Failure Verdict → Prop
  | .ok v => Answers g output input v
  | .error e => (∃ stage, e = .error (.nodeLimit stage (1 <<< bits))) ∧ s.size = (1 <<< bits) - 1

/-- Why nothing is built in `2 ^ bits` cells: the number of bits is out of bounds, or the building
gives up where all cells are taken. -/
def Refuses {α : Type} (bits : Nat) (build : DiagramQuery α) (e : Failure) : Prop :=
  if 1 ≤ bits ∧ bits ≤ 31 then
    (∃ stage, e = .error (.nodeLimit stage (1 <<< bits))) ∧
      (build.run (ofBits bits)).1 = .error e ∧ (build.run (ofBits bits)).2.size = (1 <<< bits) - 1
  else e = .error (.storageBits bits)

theorem emptyStore_of_bounds (h : 1 ≤ bits ∧ bits ≤ 31) : emptyStore bits = .ok (ofBits bits) := by
  have hstore : ofBits? bits = .ok (ofBits bits) := if_pos h
  rw [emptyStore, hstore]

theorem emptyStore_of_not_bounds (h : ¬ (1 ≤ bits ∧ bits ≤ 31)) :
    emptyStore bits = .error (.error (.storageBits bits)) := by
  have hstore : ofBits? bits = .error .diagramBits := if_neg h
  rw [emptyStore, hstore]

/-- An operation that fails in a store of `2 ^ bits` cells leaves it full. -/
theorem DiagramStore.Fails.nodeLimit {e : Failure} {s' : DiagramStore} (h : s.Fails e s')
    (hcapacity : s.capacity = 1 <<< bits) :
    (∃ stage, e = .error (.nodeLimit stage (1 <<< bits))) ∧ s'.size = (1 <<< bits) - 1 := by
  have hfull := h.isFull
  have hsize := h.size_eq
  rw [hcapacity] at hfull
  rw [h.grows.capacity_eq, hcapacity] at hsize
  exact ⟨hfull, by omega⟩

/-- What is built in an empty store is built right, or refused. -/
theorem yields_buildIn {α β : Type} {build : DiagramQuery α} {P : α → DiagramStore → Prop}
    {Q : β → Prop} {finish : α → DiagramStore → β}
    (h : ∀ s : DiagramStore, s.WellFormed → Grows build s P)
    (hQ : ∀ a s, s.WellFormed → s.capacity = 1 <<< bits → P a s → Q (finish a s)) :
    Yields (buildIn bits build finish) Q (Refuses bits build) := by
  unfold buildIn
  by_cases hbits : 1 ≤ bits ∧ bits ≤ 31
  · have hbuild := h (ofBits bits) (wellFormed_ofBits hbits.1 hbits.2)
    rw [emptyStore_of_bounds hbits, Except.ok_bind]
    simp only [Grows, Ensures] at hbuild
    split at hbuild
    · rename_i a s' hrun
      obtain ⟨hext, hs', ha⟩ := hbuild
      rw [hrun]
      exact hQ a s' hs' (hext.capacity_eq.trans (capacity_ofBits bits)) ha
    · rename_i e s' hrun
      obtain ⟨hfull, hsize⟩ := hbuild.nodeLimit (capacity_ofBits bits)
      rw [hrun]
      change Refuses bits build e
      rw [Refuses, if_pos hbits, hrun]
      exact ⟨hfull, rfl, hsize⟩
  · rw [emptyStore_of_not_bounds hbits]
    exact (if_neg hbits).mpr rfl

def ExactOrFull (g : Graph) (bits output input : Nat) (s : DiagramStore)
    (r : Except Failure Verdict) : Prop :=
  Yields r (fun v => v.Exact g.numInputs (g.truthFunction output) output input) fun e =>
    (∃ stage, e = .error (.nodeLimit stage (1 <<< bits))) ∧ s.size = (1 <<< bits) - 1

theorem ExactOrFull.answersOrFull {r : Except Failure Verdict}
    (h : ExactOrFull g bits output input s r) : AnswersOrFull g bits output input s r := by
  cases r with
  | ok v => exact ⟨h.output_eq, h.input_eq, h.describes⟩
  | error e => exact h

/-- A query that lets the store grow towards a verdict answers or reports a full store, and leaves
a store for the next query. -/
theorem Grows.exactOrFull {query : DiagramQuery Verdict}
    (h : Grows query s fun v _ => v.Exact g.numInputs (g.truthFunction output) output input)
    (hcapacity : s.capacity = 1 <<< bits) :
    s.Extends (query.run s).2 ∧ (query.run s).2.WellFormed ∧
      ExactOrFull g bits output input (query.run s).2 (query.run s).1 := by
  simp only [Grows, Ensures] at h
  split at h
  · rename_i v s' hrun
    rw [hrun]
    exact h
  · rename_i e s' hrun
    rw [hrun]
    exact ⟨h.grows, h.wellFormed, h.nodeLimit hcapacity⟩

namespace OutputDiagrams

variable {d : OutputDiagrams}

/-- The diagrams of a graph after queries, in range or not, failed or not. -/
inductive Asked (g : Graph) (bits : Nat) : OutputDiagrams → Prop where
  | start {d : OutputDiagrams} : ofGraph g bits = .ok d → Asked g bits d
  | classify {d : OutputDiagrams} (h : Asked g bits d) (output input : Nat) :
    Asked g bits (d.classify g output input).2

structure Shows (d : OutputDiagrams) (g : Graph) (bits : Nat) : Prop where
  wellFormed : d.store.WellFormed
  capacity_eq : d.store.capacity = 1 <<< bits
  numInputs_eq : d.numInputs = g.numInputs
  size_eq : d.functions.size = g.numOutputs
  denotes {output : Nat} : output < g.numOutputs → ∃ f, d.functions[output]? = some f ∧
    d.store.Denotes (fun y => g.truthFunction output fun i => y (i + 1)) f

theorem varOf_frame {n i : Nat} (h : i < n) : (frame n).varOf i = i + 1 := by
  have hmem : i ∈ (frame n).inputs := Array.mem_range.mpr h
  obtain ⟨hlt, hget⟩ := Array.getElem?_eq_some_iff.mp (VariableFrame.getElem?_varOf hmem)
  have hpos := VariableFrame.varOf_pos hmem
  simp only [frame, Array.getElem_range] at hget
  change (frame n).varOf i - 1 = i at hget
  omega

theorem covers_frame {n : Nat} {F : (Nat → Bool) → Bool} (hF : DependsOn F {i | i < n}) :
    (frame n).Covers F where
  ascending := by
    rw [frame, Array.toList_range]
    exact List.pairwise_lt_range
  lt_numInputs h := Array.mem_range.mp h
  dependsOn := hF.mono fun _ hi => Array.mem_range.mpr hi

theorem drawOutputs_grows (hg : g.WellFormed) (hs : s.WellFormed) :
    Grows (drawOutputs g) s
      fun functions s' => functions.size = g.numOutputs ∧
        ∀ output, output < g.numOutputs → ∃ f, functions[output]? = some f ∧
          s'.Denotes (fun y => g.truthFunction output fun i => y (i + 1)) f := by
  refine (Graph.nodeFunctions_grows hg hg.drawable hs).bind fun built s' _ hs' hdraws => ?_
  have hout {id : Nat} (hid : id ∈ g.outputs) : ∃ r, built[id]? = some (some r) ∧
      s'.Denotes (g.nodeFun (· + 1) id) r := by
    obtain ⟨i, hi⟩ := Array.mem_iff_getElem?.mp hid
    exact hdraws id (List.mem_range.mpr (hg.output_lt hi))
  have hall : g.outputs.mapM (Graph.outputFunction built) =
      .ok (g.outputs.map fun id => built[id]?.join.getD default) := by
    refine Except.mapM_eq_map fun id hid => ?_
    obtain ⟨r, hr, -⟩ := hout hid
    rw [Graph.outputFunction, hr]
    rfl
  rw [hall]
  refine Grows.result hs' ⟨Array.size_map, fun output houtput => ?_⟩
  have hid : g.outputs[output]? = some g.outputs[output] := Array.getElem?_eq_getElem houtput
  obtain ⟨r, hr, hden⟩ := hout (Array.mem_of_getElem? hid)
  refine ⟨r, by rw [Array.getElem?_map, hid, Option.map_some, hr]; rfl, hden.holds, fun y => ?_⟩
  rw [hden.eval_eq, Graph.nodeFun, Graph.truthFunction_eq_valueOf hg hid]

theorem ofGraph_yields (hg : g.WellFormed) (bits : Nat) :
    Yields (ofGraph g bits) (fun d => d.Shows g bits) (Refuses bits (drawOutputs g)) := by
  apply yields_buildIn
  · intro s hs
    exact drawOutputs_grows hg hs
  · intro functions s hs hcapacity hfunctions
    exact ⟨hs, hcapacity, rfl, hfunctions.1, fun h => hfunctions.2 _ h⟩

theorem Shows.holds (hd : d.Shows g bits) {f : Ref} (hf : f ∈ d.functions) : d.store.Holds f := by
  obtain ⟨output, hout, rfl⟩ := Array.mem_iff_getElem.mp hf
  obtain ⟨f, hf, hden⟩ := hd.denotes (hd.size_eq ▸ hout)
  rw [Array.getElem?_eq_getElem hout] at hf
  cases hf
  exact hden.holds

theorem Shows.of_extends (hd : d.Shows g bits) (hs : s.WellFormed) (hext : d.store.Extends s) :
    Shows ⟨s, d.functions, d.numInputs⟩ g bits where
  wellFormed := hs
  capacity_eq := hext.capacity_eq.trans hd.capacity_eq
  numInputs_eq := hd.numInputs_eq
  size_eq := hd.size_eq
  denotes houtput := by
    obtain ⟨f, hf, hden⟩ := hd.denotes houtput
    exact ⟨f, hf, hden.of_extends hd.wellFormed.toReduced hext⟩

theorem classify_of_not_output (d : OutputDiagrams) (houtput : ¬ output < g.numOutputs) :
    d.classify g output input = (.error (.error (.outputOutOfRange output g.numOutputs)), d) := by
  have hout : g.requireOutput output = .error (.error (.outputOutOfRange output g.numOutputs)) :=
    if_neg houtput
  rw [OutputDiagrams.classify, hout]
  rfl

theorem classify_of_not_input (d : OutputDiagrams) (houtput : output < g.numOutputs)
    (hinput : ¬ input < g.numInputs) :
    d.classify g output input = (.error (.error (.inputOutOfRange input g.numInputs)), d) := by
  have hout : g.requireOutput output = .ok () := if_pos houtput
  have hin : g.requireInput input = .error (.error (.inputOutOfRange input g.numInputs)) :=
    if_neg hinput
  rw [OutputDiagrams.classify, hout, hin]
  rfl

/-- A query about an input in range compares the cofactors of the function of the output. -/
theorem Shows.classify_eq (hd : d.Shows g bits) (houtput : output < g.numOutputs)
    (hinput : input < g.numInputs) {f : Ref} (hf : d.functions[output]? = some f) :
    d.classify g output input =
      let query := compareCofactors (frame d.numInputs) f (input + 1) output input
      ((query.run d.store).1, ⟨(query.run d.store).2, d.functions, d.numInputs⟩) := by
  have hout : g.requireOutput output = .ok () := if_pos houtput
  have hin : g.requireInput input = .ok () := if_pos hinput
  have hsame : ¬ (d.functions.size, d.numInputs) ≠ (g.numOutputs, g.numInputs) := by
    rw [hd.size_eq, hd.numInputs_eq]
    exact fun h => h rfl
  rw [OutputDiagrams.classify, hout, hin]
  simp only [if_neg hsame, hf]
  rfl

theorem denotes_read {f : Ref}
    (hf : s.Denotes (fun y => g.truthFunction output fun i => y (i + 1)) f) :
    s.Denotes ((frame g.numInputs).read (g.truthFunction output)) f := by
  apply hf.congr
  intro y
  apply g.dependsOn_truthFunction output
  intro i hi
  rw [varOf_frame hi]

theorem Shows.comparison_grows (hd : d.Shows g bits) (hinput : input < g.numInputs)
    (output : Nat) {f : Ref}
    (hf : d.store.Denotes (fun y => g.truthFunction output fun i => y (i + 1)) f) :
    Grows (compareCofactors (frame d.numInputs) f (input + 1) output input) d.store fun v s' =>
      v.Exact g.numInputs (g.truthFunction output) output input ∧
        s'.HoldsComparison ((frame g.numInputs).read (g.truthFunction output)) (input + 1) := by
  rw [hd.numInputs_eq, ← varOf_frame hinput]
  exact compareCofactors_grows hd.wellFormed (covers_frame (g.dependsOn_truthFunction output))
    (denotes_read hf) (Array.mem_range.mpr hinput) output

/-- A query keeps the diagrams, and one about an input in range answers or reports a full store. -/
theorem Shows.classify (hd : d.Shows g bits) (output input : Nat) :
    (d.classify g output input).2.Shows g bits ∧
      (output < g.numOutputs → input < g.numInputs →
        ExactOrFull g bits output input (d.classify g output input).2.store
          (d.classify g output input).1) := by
  by_cases houtput : output < g.numOutputs
  · by_cases hinput : input < g.numInputs
    · obtain ⟨f, hf, hden⟩ := hd.denotes houtput
      obtain ⟨hext, hs, hanswer⟩ :=
        ((hd.comparison_grows hinput output hden).imp fun _ _ _ _ h => h.1).exactOrFull
          hd.capacity_eq
      rw [hd.classify_eq houtput hinput hf]
      exact ⟨hd.of_extends hs hext, fun _ _ => hanswer⟩
    · rw [classify_of_not_input d houtput hinput]
      exact ⟨hd, fun _ h => absurd h hinput⟩
  · rw [classify_of_not_output d houtput]
    exact ⟨hd, fun h => absurd h houtput⟩

theorem Asked.shows (hg : g.WellFormed) {d : OutputDiagrams} (h : Asked g bits d) :
    d.Shows g bits := by
  induction h with
  | start h => exact (ofGraph_yields hg bits).of_eq_ok h
  | classify _ output input ih => exact (ih.classify output input).1

end OutputDiagrams

namespace ConeDiagram

variable {d : ConeDiagram}

inductive Asked (g : Graph) (output bits : Nat) : ConeDiagram → Prop where
  | start {d : ConeDiagram} : ofOutput g output bits = .ok d → Asked g output bits d
  | classify {d : ConeDiagram} (h : Asked g output bits d) (input : Nat) :
    Asked g output bits (d.classify g input).2

structure Shows (d : ConeDiagram) (g : Graph) (output bits : Nat) : Prop where
  wellFormed : d.store.WellFormed
  capacity_eq : d.store.capacity = 1 <<< bits
  output_eq : d.output = output
  numInputs_eq : d.frame.numInputs = g.numInputs
  covers : d.frame.Covers (g.truthFunction output)
  denotes : d.store.Denotes (d.frame.read (g.truthFunction output)) d.function

theorem drawRoot_grows (hg : g.WellFormed) {root : Nat} {c : Cone}
    (hid : g.outputs[output]? = some root) (hc : g.IsCone root c) (hs : s.WellFormed)
    {varOf : Nat → Nat} (hvar : ∀ i, i ∈ g.coneInputs c → varOf i ≠ 0) :
    Grows (drawRoot g varOf c root) s
      fun f s' => s'.Denotes (fun y => g.truthFunction output fun i => y (varOf i)) f := by
  refine (Graph.nodeFunctions_grows hg (hc.drawable hg (hg.output_lt hid) hvar) hs).bind
    fun built s' _ hs' hdraws => ?_
  obtain ⟨f, hf, hden⟩ := hdraws root hc.root_mem
  have hout : Graph.outputFunction built root = .ok f := by
    rw [Graph.outputFunction, hf]
    rfl
  rw [hout]
  refine Grows.result hs' ⟨hden.holds, fun y => ?_⟩
  rw [hden.eval_eq, Graph.nodeFun, Graph.truthFunction_eq_valueOf hg hid]

/-- The inputs of the cone are all that the output depends on. -/
theorem covers_coneInputs (hg : g.WellFormed) {root : Nat} {c : Cone}
    (hid : g.outputs[output]? = some root) (hc : g.IsCone root c) :
    VariableFrame.Covers ⟨g.numInputs, (g.coneInputs c).toArray⟩ (g.truthFunction output) where
  ascending := Graph.pairwise_coneInputs hg hc
  lt_numInputs hi := by
    obtain ⟨id, -, hn⟩ := (Graph.mem_coneInputs hg hc).mp (List.mem_toArray.mp hi)
    exact hg.index_lt_numInputs hn
  dependsOn x y hxy := by
    rw [Graph.truthFunction_eq_valueOf hg hid, Graph.truthFunction_eq_valueOf hg hid]
    refine hc.valueOf_congr hg (fun id hmem i hn => hxy i ?_) hc.root_mem
    exact List.mem_toArray.mpr ((Graph.mem_coneInputs hg hc).mpr
      ⟨id, ((hc.mem_inputs hg).mp hmem).1, hn⟩)

/-- The diagram of an output of the graph is that of the root of a cone. -/
theorem exists_ofOutput_eq (hg : g.WellFormed) (houtput : output < g.numOutputs) :
    ∃ root c, g.outputs[output]? = some root ∧ g.cone root = .ok c ∧ g.IsCone root c ∧ ∀ bits,
      ofOutput g output bits =
        let frame : VariableFrame := ⟨g.numInputs, (g.coneInputs c).toArray⟩
        buildIn bits (drawRoot g frame.varOf c root) fun function store =>
          ⟨store, output, function, frame⟩ := by
  have hid : g.outputs[output]? = some g.outputs[output] := Array.getElem?_eq_getElem houtput
  obtain ⟨c, hc, hcone⟩ := Graph.cone_eq_ok hg (hg.output_lt hid)
  have hrequire : g.requireOutput output = .ok () := if_pos houtput
  have hroot : g.output output = .ok g.outputs[output] := by simp only [Graph.output, hid]
  refine ⟨_, c, hid, hc, hcone, fun bits => ?_⟩
  rw [ofOutput, hrequire, Except.ok_bind, hroot]
  simp only [Except.mapError_ok, Except.ok_bind, hc]

def Refused (g : Graph) (output bits : Nat) (e : Failure) : Prop :=
  ∃ root c, g.outputs[output]? = some root ∧ g.cone root = .ok c ∧
    Refuses bits (drawRoot g (VariableFrame.varOf ⟨g.numInputs, (g.coneInputs c).toArray⟩) c root) e

/-- All inputs of the cone have variables. -/
theorem varOf_coneInputs_ne_zero (g : Graph) (c : Cone) {i : Nat} (hi : i ∈ g.coneInputs c) :
    VariableFrame.varOf ⟨g.numInputs, (g.coneInputs c).toArray⟩ i ≠ 0 := fun h =>
  VariableFrame.varOf_eq_zero_iff.mp h (List.mem_toArray.mpr hi)

theorem ofOutput_yields (hg : g.WellFormed) (houtput : output < g.numOutputs) (bits : Nat) :
    Yields (ofOutput g output bits) (fun d => d.Shows g output bits)
      (Refused g output bits) := by
  obtain ⟨root, c, hid, hc, hcone, heq⟩ := exists_ofOutput_eq hg houtput
  have hgrows (s : DiagramStore) (hs : s.WellFormed) :=
    drawRoot_grows hg hid hcone hs fun i hi => varOf_coneInputs_ne_zero g c hi
  rw [heq bits]
  refine (yields_buildIn hgrows fun f s hs hcapacity hden => ?_).mono (fun _ => id)
    fun e he => ⟨root, c, hid, hc, he⟩
  exact ⟨hs, hcapacity, rfl, rfl, covers_coneInputs hg hid hcone, hden⟩

theorem Shows.of_extends (hd : d.Shows g output bits) (hs : s.WellFormed)
    (hext : d.store.Extends s) : Shows ⟨s, d.output, d.function, d.frame⟩ g output bits where
  wellFormed := hs
  capacity_eq := hext.capacity_eq.trans hd.capacity_eq
  output_eq := hd.output_eq
  numInputs_eq := hd.numInputs_eq
  covers := hd.covers
  denotes := hd.denotes.of_extends hd.wellFormed.toReduced hext

theorem classify_of_refused (d : ConeDiagram) (h : ¬ input < g.numInputs) :
    d.classify g input = (.error (.error (.inputOutOfRange input g.numInputs)), d) := by
  have hin : g.requireInput input = .error (.error (.inputOutOfRange input g.numInputs)) :=
    if_neg h
  rw [ConeDiagram.classify, hin]
  rfl

/-- An input without a variable does not matter. -/
theorem classify_of_varOf_eq_zero (hinput : input < g.numInputs)
    (hv : d.frame.varOf input = 0) :
    d.classify g input = (.ok { output := d.output, input, unateness := .independent }, d) := by
  have hin : g.requireInput input = .ok () := if_pos hinput
  rw [ConeDiagram.classify, hin]
  simp only [if_pos hv]
  rfl

theorem classify_of_varOf_ne_zero (hinput : input < g.numInputs)
    (hv : d.frame.varOf input ≠ 0) :
    d.classify g input =
      let query := compareCofactors d.frame d.function (d.frame.varOf input) d.output input
      ((query.run d.store).1, ⟨(query.run d.store).2, d.output, d.function, d.frame⟩) := by
  have hin : g.requireInput input = .ok () := if_pos hinput
  rw [ConeDiagram.classify, hin]
  simp only [if_neg hv]
  rfl

theorem Shows.comparison_grows (hd : d.Shows g output bits) (hv : d.frame.varOf input ≠ 0) :
    Grows (compareCofactors d.frame d.function (d.frame.varOf input) d.output input) d.store
      fun v s' => v.Exact g.numInputs (g.truthFunction output) output input ∧
        s'.HoldsComparison (d.frame.read (g.truthFunction output)) (d.frame.varOf input) := by
  have hmem : input ∈ d.frame.inputs := by
    by_contra h
    exact hv (VariableFrame.varOf_eq_zero_iff.mpr h)
  rw [hd.output_eq, ← hd.numInputs_eq]
  exact compareCofactors_grows hd.wellFormed hd.covers hd.denotes hmem output

theorem Shows.classify (hd : d.Shows g output bits) (input : Nat) :
    (d.classify g input).2.Shows g output bits ∧
      (input < g.numInputs → ExactOrFull g bits output input (d.classify g input).2.store
        (d.classify g input).1) := by
  by_cases hinput : input < g.numInputs
  · by_cases hv : d.frame.varOf input = 0
    · have houtside := VariableFrame.varOf_eq_zero_iff.mp hv
      have hindependent : ∀ x, g.truthFunction output (Function.update x input false) =
          g.truthFunction output (Function.update x input true) := by
        intro x
        apply hd.covers.dependsOn
        intro i hi
        have hne : i ≠ input := by
          rintro rfl
          exact houtside hi
        rw [Function.update_of_ne hne, Function.update_of_ne hne]
      rw [classify_of_varOf_eq_zero hinput hv]
      refine ⟨hd, fun _ => ?_⟩
      rw [hd.output_eq]
      exact .of_describes (by decide) fun u => independent_eq_iff hindependent
    · obtain ⟨hext, hs, hanswer⟩ :=
        ((hd.comparison_grows hv).imp fun _ _ _ _ h => h.1).exactOrFull hd.capacity_eq
      rw [classify_of_varOf_ne_zero hinput hv]
      exact ⟨hd.of_extends hs hext, fun _ => hanswer⟩
  · rw [classify_of_refused d hinput]
    exact ⟨hd, fun h => absurd h hinput⟩

theorem Asked.shows (hg : g.WellFormed) (houtput : output < g.numOutputs) {d : ConeDiagram}
    (h : Asked g output bits d) : d.Shows g output bits := by
  induction h with
  | start h => exact (ofOutput_yields hg houtput bits).of_eq_ok h
  | classify _ input ih => exact (ih.classify input).1

end ConeDiagram

/-- With any number of bits, diagrams are built or refused, for a reason that the number gives or
because all cells are taken. After any queries, one about an output and an input of the graph
answers how the output depends on the input, or reports that all cells are taken. -/
theorem diagrams_answer (hg : g.Built) (bits : Nat) :
    ((∀ e, OutputDiagrams.ofGraph g bits = .error e →
        Refuses bits (OutputDiagrams.drawOutputs g) e) ∧
      ∀ d, OutputDiagrams.Asked g bits d → ∀ output < g.numOutputs, ∀ input < g.numInputs,
        AnswersOrFull g bits output input (d.classify g output input).2.store
          (d.classify g output input).1) ∧
    ∀ output < g.numOutputs,
      (∀ e, ConeDiagram.ofOutput g output bits = .error e → ConeDiagram.Refused g output bits e) ∧
      ∀ d, ConeDiagram.Asked g output bits d → ∀ input < g.numInputs,
        AnswersOrFull g bits output input (d.classify g input).2.store (d.classify g input).1 := by
  have hwf := hg.wellFormed
  refine ⟨⟨fun e he => (OutputDiagrams.ofGraph_yields hwf bits).of_eq_error he,
    fun d hd output houtput input hinput => ?_⟩, fun output houtput =>
    ⟨fun e he => (ConeDiagram.ofOutput_yields hwf houtput bits).of_eq_error he,
      fun d hd input hinput => ?_⟩⟩
  · exact (((hd.shows hwf).classify output input).2 houtput hinput).answersOrFull
  · exact (((hd.shows hwf houtput).classify input).2 hinput).answersOrFull

def Graph.twoOutputs : Graph := ((Build.output ⟨3, true⟩ (some "z")).run .reconvergent).2

theorem Graph.twoOutputs_built : twoOutputs.Built := .output reconvergent_built _ _

/-- Eight cells hold both functions, and those of one cone. The second output falls with the first
input, which is asked after an output or an input that does not exist. Four cells are too few. -/
theorem diagrams_answer_twoOutputs : Graph.twoOutputs.Built ∧
    (∃ d v, OutputDiagrams.ofGraph .twoOutputs 3 = .ok d ∧
      ((d.classify .twoOutputs 7 0).2.classify .twoOutputs 1 0).1 = .ok v ∧
      v.unateness = .negative ∧
      Unateness.negative.Describes (Graph.twoOutputs.truthFunction 1) 0) ∧
    (∃ d v, ConeDiagram.ofOutput .twoOutputs 1 3 = .ok d ∧
      ((d.classify .twoOutputs 7).2.classify .twoOutputs 0).1 = .ok v ∧
      v.unateness = .negative ∧
      Unateness.negative.Describes (Graph.twoOutputs.truthFunction 1) 0) ∧
    (∃ e, OutputDiagrams.ofGraph .twoOutputs 2 = .error e ∧
      ((OutputDiagrams.drawOutputs .twoOutputs).run (ofBits 2)).2.size = 3) ∧
    ∃ e, ConeDiagram.ofOutput .twoOutputs 1 2 = .error e ∧
      ∃ stage, e = .error (.nodeLimit stage 4) := by
  have hbuilt := Graph.twoOutputs_built
  refine ⟨hbuilt, ?outputs, ?cone, ?fullOutputs, ?fullCone⟩
  case outputs =>
    have heval : (OutputDiagrams.ofGraph .twoOutputs 3).toOption.any (fun d =>
        ((d.classify .twoOutputs 7 0).2.classify .twoOutputs 1 0).1.toOption.any fun v =>
          v.unateness = .negative) = true := by decide +kernel
    obtain ⟨d, hd, hquery⟩ := Except.exists_eq_ok_of_any heval
    obtain ⟨v, hv, hu⟩ := Except.exists_eq_ok_of_any hquery
    have hanswer := (diagrams_answer hbuilt 3).1.2 _ (.classify (.start hd) 7 0) 1
      (by decide) 0 (by decide)
    rw [hv] at hanswer
    exact ⟨d, v, hd, hv, of_decide_eq_true hu, (hanswer.2.2 _).mp (of_decide_eq_true hu)⟩
  case cone =>
    have heval : (ConeDiagram.ofOutput .twoOutputs 1 3).toOption.any (fun d =>
        ((d.classify .twoOutputs 7).2.classify .twoOutputs 0).1.toOption.any fun v =>
          v.unateness = .negative) = true := by decide +kernel
    obtain ⟨d, hd, hquery⟩ := Except.exists_eq_ok_of_any heval
    obtain ⟨v, hv, hu⟩ := Except.exists_eq_ok_of_any hquery
    have hanswer := ((diagrams_answer hbuilt 3).2 1 (by decide)).2 _ (.classify (.start hd) 7) 0
      (by decide)
    rw [hv] at hanswer
    exact ⟨d, v, hd, hv, of_decide_eq_true hu, (hanswer.2.2 _).mp (of_decide_eq_true hu)⟩
  case fullOutputs =>
    have heval : (OutputDiagrams.ofGraph .twoOutputs 2).toOption.isNone = true := by decide +kernel
    obtain ⟨e, he⟩ := Except.exists_eq_error_of_toOption (Option.isNone_iff_eq_none.mp heval)
    have hrefuses := (diagrams_answer hbuilt 2).1.1 e he
    rw [Refuses, if_pos (by decide)] at hrefuses
    exact ⟨e, he, hrefuses.2.2⟩
  case fullCone =>
    have heval : (ConeDiagram.ofOutput .twoOutputs 1 2).toOption.isNone = true := by decide +kernel
    obtain ⟨e, he⟩ := Except.exists_eq_error_of_toOption (Option.isNone_iff_eq_none.mp heval)
    obtain ⟨_, _, -, -, hrefuses⟩ := ((diagrams_answer hbuilt 2).2 1 (by decide)).1 e he
    rw [Refuses, if_pos (by decide)] at hrefuses
    exact ⟨e, he, hrefuses.1⟩

end AndInverter
