import AndInverter.Proofs.Graph.Growth
import AndInverter.Proofs.Graph.Simulation
import AndInverter.Proofs.Graph.Structure

/-!
# The functions of the connectives

Conjunction, disjunction, exclusive disjunction and choice of existing edges are never denied. Each
of them leads to an edge with the function it is to have, by constants, by gates that are there
already or by new gates, and leaves the nodes and their values, the inputs and the outputs as they
are.
-/

namespace AndInverter

namespace Graph

variable {g g' g'' : Graph} {φ ψ : (Nat → Bool) → Bool} {d e : Edge}

theorem SameTerminals.trans (h : g.SameTerminals g') (h' : g'.SameTerminals g'') :
    g.SameTerminals g'' where
  inputs_eq := h'.inputs_eq.trans h.inputs_eq
  outputs_eq := h'.outputs_eq.trans h.outputs_eq
  inputNames_eq := h'.inputNames_eq.trans h.inputNames_eq
  outputNames_eq := h'.outputNames_eq.trans h.outputNames_eq

namespace Makes

/-- What is made from a grown graph is made from the graph before it grew. -/
theorem trans (h : g.Makes φ d g') (h' : g'.Makes ψ e g'') : g.Makes ψ e g'' where
  wellFormed := h'.wellFormed
  extend := h.extend.trans h'.extend
  terminals := h.terminals.trans h'.terminals
  drives := h'.drives
  edgeValueOf_eq := h'.edgeValueOf_eq

theorem complement (h : g.Makes φ e g') : g.Makes (fun x => !φ x) e.complement g' :=
  { h with edgeValueOf_eq := fun x => edgeValueOf_complement.trans (by rw [h.edgeValueOf_eq]) }

theorem congr (h : g.Makes φ e g') (hφ : ∀ x, φ x = ψ x) : g.Makes ψ e g' :=
  { h with edgeValueOf_eq := fun x => (h.edgeValueOf_eq x).trans (hφ x) }

/-- Edges of the graph before it grew can be used as before. -/
theorem drives_of (h : g.Makes φ d g') (he : g.Drives e) : g'.Drives e := h.extend.drives he

theorem edgeValueOf_of (h : g.Makes φ d g') (hg : g.WellFormed) (he : g.Drives e)
    (x : Nat → Bool) : g'.edgeValueOf x e = g.edgeValueOf x e :=
  h.extend.edgeValueOf_eq hg h.wellFormed he

end Makes

end Graph

open AndInverter.Graph

namespace Build

variable {g g' : Graph} {a b c d s t e : Edge} {op : Build Edge}

theorem ensures_or_makes (hg : g.WellFormed) (ha : g.Drives a) (hb : g.Drives b) :
    Ensures (or a b) g (g.Makes fun x => g.edgeValueOf x a || g.edgeValueOf x b)
      fun _ _ => False := by
  refine (ensures_and_makes (a := a.complement) (b := b.complement) hg ha hb).bind ?_
  rintro e g' ⟨-, h⟩
  refine Ensures.result (h.complement.congr fun x => ?_)
  rw [edgeValueOf_complement, edgeValueOf_complement, Bool.not_and, Bool.not_not, Bool.not_not]

/-- Exclusive disjunction and choice are both a disjunction of two conjunctions. -/
theorem ensures_or_of_ands_makes (hg : g.WellFormed) (ha : g.Drives a) (hb : g.Drives b)
    (hc : g.Drives c) (hd : g.Drives d) :
    Ensures (do or (← and a b) (← and c d)) g (g.Makes fun x =>
      g.edgeValueOf x a && g.edgeValueOf x b || g.edgeValueOf x c && g.edgeValueOf x d)
      fun _ _ => False := by
  refine (ensures_and_makes hg ha hb).bind ?_
  rintro y g₁ ⟨-, hy⟩
  refine (ensures_and_makes hy.wellFormed (hy.drives_of hc) (hy.drives_of hd)).bind ?_
  rintro z g₂ ⟨-, hz⟩
  refine (ensures_or_makes hz.wellFormed (hz.drives_of hy.drives) hz.drives).mono
    (fun e g' h => ?_) fun _ _ h => h
  refine ((hy.trans hz).trans h).congr fun x => ?_
  rw [hz.edgeValueOf_of hy.wellFormed hy.drives, hy.edgeValueOf_eq, hz.edgeValueOf_eq,
    hy.edgeValueOf_of hg hc, hy.edgeValueOf_of hg hd]

theorem ensures_xor_makes (hg : g.WellFormed) (ha : g.Drives a) (hb : g.Drives b) :
    Ensures (xor a b) g (g.Makes fun x => g.edgeValueOf x a ^^ g.edgeValueOf x b)
      fun _ _ => False := by
  refine (ensures_or_of_ands_makes (b := b.complement) (c := a.complement) hg ha hb ha hb).mono
    (fun e g' h => h.congr fun x => ?_) fun _ _ h => h
  rw [edgeValueOf_complement, edgeValueOf_complement]
  cases g.edgeValueOf x a
  · simp
  · simp

theorem ensures_mux_makes (hg : g.WellFormed) (hs : g.Drives s) (ht : g.Drives t)
    (he : g.Drives e) :
    Ensures (mux s t e) g
      (g.Makes fun x => if g.edgeValueOf x s then g.edgeValueOf x t else g.edgeValueOf x e)
      fun _ _ => False := by
  refine (ensures_or_of_ands_makes (c := s.complement) hg hs ht hs he).mono
    (fun d g' h => h.congr fun x => ?_) fun _ _ h => h
  rw [edgeValueOf_complement]
  cases g.edgeValueOf x s
  · simp
  · simp

/-- The operation succeeds on a graph with an edge that further nodes can have as a fanin. Under
every assignment the edge has the value that `φ` makes of the values that edges had before; earlier
nodes keep their values. -/
def Computes (op : Build Edge) (g : Graph) (φ : (Edge → Bool) → Bool) : Prop :=
  ∃ e g', op.run g = (.ok e, g') ∧ g'.Drives e ∧ g.Extends g' ∧ g.SameTerminals g' ∧
    ∀ assignment : Array Bool, assignment.size = g.numInputs → ∃ values values',
      g.simulate assignment = .ok values ∧ g'.simulate assignment = .ok values' ∧
      edgeValue values' e = φ (edgeValue values) ∧ ∀ id < g.size, values'[id]? = values[id]?

theorem computes_of_ensures {φ : (Edge → Bool) → Bool} (hg : g.WellFormed)
    (h : Ensures op g (g.Makes fun x => φ (g.edgeValueOf x)) fun _ _ => False) :
    op.Computes g φ := by
  obtain ⟨e, he, hmakes⟩ := h.exists_result
  refine ⟨e, _, Prod.ext he rfl, hmakes.drives, hmakes.extend, hmakes.terminals,
    fun assignment hsize => ?_⟩
  have hsize' : assignment.size = (op.run g).2.numInputs := by
    rw [numInputs, hmakes.terminals.inputs_eq, hsize, numInputs]
  refine ⟨_, _, simulate_eq_ok_iff.mpr ⟨hsize, rfl⟩, simulate_eq_ok_iff.mpr ⟨hsize', rfl⟩,
    hmakes.edgeValueOf_eq _, fun id hid => ?_⟩
  have hnode : g.nodes[id]? = some g.nodes[id] := Array.getElem?_eq_getElem hid
  rw [getElem?_values hid, getElem?_values (lt_size_of_nodes_eq (hmakes.extend id _ hnode)),
    hmakes.extend.valueOf_eq hg hmakes.wellFormed hnode]

end Build

/-- In every graph that can be built, the connectives of edges that exist and come from no output
succeed, and compute conjunction, disjunction, exclusive disjunction and choice. -/
theorem Graph.Built.connectives_compute {g : Graph} {a b s t e : Edge} (hg : g.Built)
    (ha : g.Drives a) (hb : g.Drives b) (hs : g.Drives s) (ht : g.Drives t) (he : g.Drives e) :
    (Build.and a b).Computes g (fun v => v a && v b) ∧
    (Build.or a b).Computes g (fun v => v a || v b) ∧
    (Build.xor a b).Computes g (fun v => v a ^^ v b) ∧
    (Build.mux s t e).Computes g (fun v => if v s then v t else v e) := by
  have hg := hg.wellFormed
  refine ⟨Build.computes_of_ensures hg ?_, Build.computes_of_ensures hg ?_,
    Build.computes_of_ensures hg ?_, Build.computes_of_ensures hg ?_⟩
  · exact (Build.ensures_and_makes hg ha hb).mono (fun _ _ h => h.2) fun _ _ h => h
  · exact Build.ensures_or_makes hg ha hb
  · exact Build.ensures_xor_makes hg ha hb
  · exact Build.ensures_mux_makes hg hs ht he

def Graph.mixed : Graph := ((Build.gate ⟨2, false⟩ ⟨1, false⟩).run conjoined).2

theorem Graph.Built.connectives_compute_mixed : mixed.Built ∧
    mixed.Drives ⟨1, true⟩ ∧ mixed.Drives ⟨3, false⟩ ∧ mixed.Drives ⟨4, true⟩ ∧
    (Build.and ⟨4, true⟩ ⟨3, false⟩).Computes mixed (fun v => v ⟨4, true⟩ && v ⟨3, false⟩) ∧
    (Build.mux ⟨1, true⟩ ⟨4, true⟩ ⟨3, false⟩).Computes mixed
      (fun v => if v ⟨1, true⟩ then v ⟨4, true⟩ else v ⟨3, false⟩) := by
  have hbuilt : mixed.Built := .gate conjoined_built _ _
  have hs : mixed.Drives ⟨1, true⟩ := ⟨.input 0, rfl, rfl⟩
  have hb : mixed.Drives ⟨3, false⟩ := ⟨.gate ⟨1, false⟩ ⟨2, false⟩, rfl, rfl⟩
  have ha : mixed.Drives ⟨4, true⟩ := ⟨.gate ⟨2, false⟩ ⟨1, false⟩, rfl, rfl⟩
  obtain ⟨hand, -, -, hmux⟩ := Built.connectives_compute hbuilt ha hb hs ha hb
  exact ⟨hbuilt, hs, hb, ha, hand, hmux⟩

end AndInverter
