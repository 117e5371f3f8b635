import AndInverter.Aiger.Reader
import AndInverter.Proofs.Aiger.Settling
import AndInverter.Proofs.Aiger.Symbols

/-!
# Which texts are accepted

A text is read exactly if its lines say what some valid description says. Everything but the order
of the gates is settled line by line.
-/

namespace AndInverter

namespace Aiger

def inputScope (ns : List Nat) : Scope :=
  ns.foldl (fun s n => s.addInput (variableOf n)) .initial

theorem mem_addInput {s : Scope} {n v : Nat} :
    v ∈ (s.addInput (variableOf n)).edges ↔ v = variableOf n ∨ v ∈ s.edges := by
  simp [Scope.addInput, Graph.withInput, Std.HashMap.mem_insert, eq_comm (a := v)]

theorem Header.MayDefine.not_mem_initial {h : Header} {n : Nat} (hn : h.MayDefine n) :
    variableOf n ∉ Scope.initial.edges := by
  simp [Scope.initial, hn.variableOf_ne_zero.symm]

variable {h : Header} {last n : Nat} {item : String} {ls rest : List Line} {s : Scope}

theorem readInputs_eq_ok_iff :
    readLines last item (readInput h) n ls .initial = .ok (s, rest) ↔ ∃ read ns, ls = read ++ rest ∧
      ns.length = n ∧ List.Forall₂ (fun l n => l.Holds [n]) read ns ∧
      ((∀ n ∈ ns, h.MayDefine n) ∧ (ns.map variableOf).Nodup) ∧ s = inputScope ns := by
  rw [readLines_eq_ok_iff (readInput_eq_ok_iff h)]
  refine exists_congr fun read => exists_congr fun ns => and_congr_right fun _ =>
    and_congr_right fun _ => and_congr_right fun _ => and_congr_left fun _ => ?_
  rw [admitted_fresh_iff variableOf (fun (s : Scope) v => v ∈ s.edges) fun s a b => mem_addInput]
  exact ⟨fun hns => ⟨hns.1, hns.2.1⟩, fun hns => ⟨hns.1, hns.2, fun n hn =>
    (hns.1 n hn).not_mem_initial⟩⟩

theorem readOutputs_eq_ok_iff {os : Array OutputLine} :
    readLines last item (readOutput h) n ls #[] = .ok (os, rest) ↔ ∃ read, ls = read ++ rest ∧
      os.toList.length = n ∧
      List.Forall₂ (fun l o => l.number = o.line ∧ l.Holds [o.literal]) read os.toList ∧
      ∀ o ∈ os.toList, variableOf o.literal ≤ h.maxVar := by
  have hfold (as : List OutputLine) : as.foldl Array.push #[] = as.toArray := by simp
  have hadm (as : List OutputLine) :
      Admitted (fun _ o => variableOf o.literal ≤ h.maxVar) Array.push #[] as ↔
        ∀ o ∈ as, variableOf o.literal ≤ h.maxVar :=
    admitted_iff_forall (f := Array.push) fun _ _ _ => Iff.rfl
  simp only [readLines_eq_ok_iff (readOutput_eq_ok_iff h), hadm, hfold]
  constructor
  · rintro ⟨read, as, hls, hlen, hread, hadm, rfl⟩
    exact ⟨read, hls, hlen, hread, hadm⟩
  · rintro ⟨read, hls, hlen, hread, hadm⟩
    exact ⟨read, os.toList, hls, hlen, hread, hadm, rfl⟩

theorem readGates_eq_ok_iff {inputs : Scope} {qs : Equations} :
    readLines last item (readGate h inputs) n ls {} = .ok (qs, rest) ↔ ∃ read gs,
      ls = read ++ rest ∧ gs.length = n ∧
      List.Forall₂ (fun l q => l.number = q.line ∧ l.Holds [q.head, q.left, q.right]) read gs ∧
      ((∀ q ∈ gs, h.MayDefine q.head ∧
        (variableOf q.left ≤ h.maxVar ∧ variableOf q.right ≤ h.maxVar) ∧
        variableOf q.head ∉ inputs.edges) ∧ (gs.map fun q => variableOf q.head).Nodup) ∧
      qs = gs.foldl Equations.push {} := by
  rw [readLines_eq_ok_iff (readGate_eq_ok_iff h inputs)]
  refine exists_congr fun read => exists_congr fun gs => and_congr_right fun _ =>
    and_congr_right fun _ => and_congr_right fun _ => and_congr_left fun _ => ?_
  rw [admitted_fresh_iff (fun q : Equation => variableOf q.head)
    (fun (qs : Equations) v => v ∈ qs.heads) fun qs q v => by
      simp [Equations.push, eq_comm (a := v)]]
  exact ⟨fun hgs => ⟨hgs.1, hgs.2.1⟩, fun hgs => ⟨hgs.1, hgs.2, by simp⟩⟩

theorem list_foldl_push (gs : List Equation) (qs : Equations) :
    (gs.foldl Equations.push qs).list.toList = qs.list.toList ++ gs := by
  induction gs generalizing qs with
  | nil => simp
  | cons q gs ih => rw [List.foldl_cons, ih, Equations.push, Array.toList_push,
      List.append_assoc, List.singleton_append]

theorem Scope.Covers.addInputs {s : Scope} {old ns : List Nat} (hs : s.Covers old [] [] [])
    (hnodup : (ns.map variableOf).Nodup) (hfresh : ∀ n ∈ ns, variableOf n ∉ s.edges) :
    (ns.foldl (fun s n => s.addInput (variableOf n)) s).Covers (old ++ ns) [] [] [] := by
  induction ns generalizing s old with
  | nil => rwa [List.append_nil]
  | cons n ns ih =>
    rw [List.map_cons, List.nodup_cons] at hnodup
    obtain ⟨hn, hns⟩ := List.forall_mem_cons.mp hfresh
    have hrest := ih (hs.addInput hn) hnodup.2 fun m hm hmem => by
      rcases mem_addInput.mp hmem with heq | hold
      · exact hnodup.1 (heq ▸ List.mem_map_of_mem hm)
      · exact hns m hm hold
    rwa [List.append_assoc] at hrest

theorem covers_inputScope {ns : List Nat} (hns : ∀ n ∈ ns, h.MayDefine n)
    (hnodup : (ns.map variableOf).Nodup) : (inputScope ns).Covers ns [] [] [] :=
  Scope.covers_initial.addInputs hnodup fun n hn => (hns n hn).not_mem_initial

theorem mem_inputScope {ns : List Nat} {v : Nat} (hns : ∀ n ∈ ns, h.MayDefine n)
    (hnodup : (ns.map variableOf).Nodup) :
    v ∈ (inputScope ns).edges ↔ v = 0 ∨ v ∈ ns.map variableOf := by
  simpa using (covers_inputScope hns hnodup).mem_iff (v := v)

namespace Description

variable {d : Description} {text : String} {ls : Sections}

theorem Reads.ofWords_eq (hreads : d.Reads ls) :
    Header.ofWords (words ls.first.text) = .ok d.header :=
  Header.ofWords_eq_ok_iff.mpr hreads.header

theorem LinesInRange.check_eq (hd : d.LinesInRange) : d.header.check = .ok () :=
  Header.check_eq_ok_iff.mpr ⟨hd.numLatches_eq, hd.numVars_le⟩

theorem Reads.readInputs_eq (hreads : d.Reads ls) (hd : d.LinesInRange)
    (hnodup : (d.inputs.map variableOf).Nodup) :
    readLines last item (readInput d.header) d.header.numInputs (ls.inputs ++ rest) .initial =
      .ok (inputScope d.inputs, rest) :=
  readInputs_eq_ok_iff.mpr ⟨_, d.inputs, rfl, hreads.length_inputs, hreads.inputs,
    ⟨hd.inputs, hnodup⟩, rfl⟩

theorem Reads.readOutputs_eq (hreads : d.Reads ls) (hd : d.LinesInRange) :
    readLines last item (readOutput d.header) d.header.numOutputs (ls.outputs ++ rest) #[] =
      .ok (d.outputs.toArray, rest) :=
  readOutputs_eq_ok_iff.mpr ⟨_, rfl, hreads.length_outputs, hreads.outputs, hd.outputs⟩

theorem Reads.readGates_eq (hreads : d.Reads ls) (hd : d.InRange) :
    readLines last item (readGate d.header (inputScope d.inputs)) d.header.numGates
      (ls.gates ++ rest) {} = .ok (d.gates.foldl Equations.push {}, rest) := by
  have hfresh (q : Equation) (hq : q ∈ d.gates) :
      variableOf q.head ∉ (inputScope d.inputs).edges := by
    intro hmem
    rcases (mem_inputScope hd.inputs hd.inputs_nodup).mp hmem with hzero | hinput
    · exact (hd.heads q hq).variableOf_ne_zero hzero
    · exact hd.heads_not_inputs q hq hinput
  exact readGates_eq_ok_iff.mpr ⟨_, d.gates, rfl, hreads.length_gates, hreads.gates,
    ⟨fun q hq => ⟨hd.heads q hq, hd.operands q hq, hfresh q hq⟩, hd.heads_nodup⟩, rfl⟩

/-- When the lines up to the symbols are read, the gates are still to be settled. -/
theorem InRange.ofAiger_eq (hd : d.InRange) (hls : Line.ofText text.toList = ls.lines)
    (hreads : d.Reads { ls with rest := [] }) :
    Graph.ofAiger text = (do
      let s ← (inputScope d.inputs).solve d.gates
      let s ← s.addOutputs d.outputs.toArray
      Symbol.applyLines s.graph ls.rest) := by
  have hlines := hd.toLinesInRange
  simp only [Graph.ofAiger, hls, Sections.lines, hreads.ofWords_eq, hlines.check_eq,
    hreads.readInputs_eq hlines hd.inputs_nodup, hreads.readOutputs_eq hlines,
    hreads.readGates_eq hd, Except.ok_bind, list_foldl_push, List.nil_append]

end Description

/-- A graph is read from a text exactly if the text spells a description in range whose gates can be
settled, with outputs and symbols that then exist. -/
theorem ofAiger_eq_ok_iff {text : String} {g : Graph} : Graph.ofAiger text = .ok g ↔
    ∃ d : Description, d.Spelled text ∧ d.InRange ∧ ∃ s s',
      (inputScope d.inputs).solve d.gates = .ok s ∧ s.addOutputs d.outputs.toArray = .ok s' ∧
      (∀ t ∈ d.symbols, t.position < (Symbol.names s'.graph t.kind).size) ∧
      g = d.symbols.foldl Symbol.rename s'.graph := by
  constructor
  · intro hg
    rw [Graph.ofAiger] at hg
    cases hls : Line.ofText text.toList with
    | nil =>
      rw [hls] at hg
      cases hg
    | cons first ls =>
      simp only [hls, Except.bind_eq_ok_iff, Header.ofWords_eq_ok_iff, Header.check_eq_ok_iff,
        Symbol.applyLines_eq_ok_iff, Prod.exists] at hg
      obtain ⟨h, hwords, -, ⟨hlatches, hvars⟩, _, _, hinputs, os, _, houtputs, _, rest, hgates,
        s, hsolve, s', hout, ss, hss, hpos, rfl⟩ := hg
      obtain ⟨is, ns, rfl, hnlen, hns, ⟨hdef, hnodup⟩, rfl⟩ := readInputs_eq_ok_iff.mp hinputs
      obtain ⟨ls₁, rfl, holen, hos, hrange⟩ := readOutputs_eq_ok_iff.mp houtputs
      obtain ⟨ls₂, qs, rfl, hqlen, hqs, ⟨hadm, hheads⟩, rfl⟩ := readGates_eq_ok_iff.mp hgates
      refine ⟨⟨h, ns, os.toList, qs, ss⟩, ⟨⟨first, is, ls₁, ls₂, rest⟩, hls,
        ⟨hwords, hnlen, holen, hqlen, hns, hos, hqs, hss⟩⟩, ?_, s, s', ?_, hout, hpos, rfl⟩
      · exact {
          numLatches_eq := hlatches
          numVars_le := hvars
          inputs := hdef
          inputs_nodup := hnodup
          outputs := hrange
          heads := fun q hq => (hadm q hq).1
          operands := fun q hq => (hadm q hq).2.1
          heads_nodup := hheads
          heads_not_inputs := fun q hq hmem =>
            (hadm q hq).2.2 ((mem_inputScope hdef hnodup).mpr (.inr hmem)) }
      · rwa [list_foldl_push] at hsolve
  · rintro ⟨d, ⟨ls, hls, hreads⟩, hd, s, s', hsolve, hout, hpos, rfl⟩
    have hbegins : { d with symbols := [] }.Reads { ls with rest := [] } :=
      { hreads with symbols := .nil }
    have hrange : { d with symbols := [] }.InRange := { hd with }
    rw [hrange.ofAiger_eq hls hbegins, hsolve, Except.ok_bind, hout, Except.ok_bind]
    exact Symbol.applyLines_eq_ok_iff.mpr ⟨d.symbols, hreads.symbols, hpos, rfl⟩

namespace Description

variable {d : Description} {text : String} {s' : Scope} {todo : List Equation}

theorem Spelled.length_eq (hd : d.Spelled text) : d.inputs.length = d.header.numInputs ∧
    d.outputs.length = d.header.numOutputs ∧ d.gates.length = d.header.numGates := by
  obtain ⟨_, -, hreads⟩ := hd
  exact ⟨hreads.length_inputs, hreads.length_outputs, hreads.length_gates⟩

theorem Spelled.size_names (hd : d.Spelled text) (hs : s.Covers d.inputs d.gates todo d.outputs)
    (kind : Symbol.Kind) : (Symbol.names s.graph kind).size = d.count kind := by
  cases kind with
  | input => simp [Symbol.names, hs.inputNames_eq, hd.length_eq.1, count]
  | output => simp [Symbol.names, hs.outputNames_eq, hd.length_eq.2.1, count]

theorem InRange.covers (hd : d.InRange) :
    (inputScope d.inputs).Covers d.inputs d.gates d.gates [] :=
  (covers_inputScope hd.inputs hd.inputs_nodup).begin d.gates

/-- Settled gates and outputs that exist cover the description. -/
theorem InRange.covers_result (hd : d.InRange)
    (hsolve : (inputScope d.inputs).solve d.gates = .ok s)
    (hout : s.addOutputs d.outputs.toArray = .ok s') :
    s'.Covers d.inputs d.gates [] d.outputs :=
  (hd.covers.solve hd hsolve).addOutputs hout

theorem InRange.valid (hd : d.InRange) (hspelled : d.Spelled text)
    (hs : s.Covers d.inputs d.gates [] d.outputs)
    (hpos : ∀ t ∈ d.symbols, t.position < (Symbol.names s.graph t.kind).size) : d.Valid where
  toInRange := hd
  operands_defined q hq := by
    obtain ⟨id, a, b, -, hab, -⟩ := hs.settles hq
    obtain ⟨ha, hb⟩ := Scope.operands?_eq_some_iff.mp hab
    rw [← hs.mem_iff_defines, ← hs.mem_iff_defines]
    exact ⟨Scope.exists_edge?_iff.mp ⟨a, ha⟩, Scope.exists_edge?_iff.mp ⟨b, hb⟩⟩
  acyclic := hs.acyclic hd
  outputs_defined o ho := by
    obtain ⟨j, hj⟩ := List.getElem?_of_mem ho
    obtain ⟨_, e, -, -, he⟩ := hs.output hj
    exact hs.mem_iff_defines.mp (Scope.exists_edge?_iff.mp ⟨e, he⟩)
  positions_lt t ht := hspelled.size_names hs t.kind ▸ hpos t ht

theorem Valid.exists_ofAiger (hd : d.Valid) (hspelled : d.Spelled text) :
    ∃ g, Graph.ofAiger text = .ok g := by
  have hrange := hd.toInRange
  obtain ⟨s, hsolve⟩ := hrange.covers.exists_solve hrange hd.operands_defined hd.acyclic
  have hs := hrange.covers.solve hrange hsolve
  obtain ⟨s', hout⟩ := Scope.exists_addOutputs fun o ho =>
    hs.mem_iff_defines.mpr (hd.outputs_defined o ho)
  have hs' := hrange.covers_result hsolve hout
  refine ⟨_, ofAiger_eq_ok_iff.mpr ⟨d, hspelled, hrange, s, s', hsolve, hout, fun t ht => ?_, rfl⟩⟩
  rw [hspelled.size_names hs']
  exact hd.positions_lt t ht

end Description

/-- A text is accepted exactly if it spells a valid description. -/
theorem ofAiger_isOk_iff (text : String) :
    (∃ g, Graph.ofAiger text = .ok g) ↔ ∃ d : Description, d.Spelled text ∧ d.Valid := by
  constructor
  · rintro ⟨g, hg⟩
    obtain ⟨d, hspelled, hd, s, s', hsolve, hout, hpos, -⟩ := ofAiger_eq_ok_iff.mp hg
    exact ⟨d, hspelled, hd.valid hspelled (hd.covers_result hsolve hout) hpos⟩
  · rintro ⟨d, hspelled, hd⟩
    exact hd.exists_ofAiger hspelled

end Aiger

end AndInverter
