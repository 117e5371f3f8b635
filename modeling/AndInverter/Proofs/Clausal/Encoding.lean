import AndInverter.Clausal.Consequence
import AndInverter.Clausal.Encoding
import AndInverter.Proofs.Contract
import AndInverter.Proofs.Graph.Cone

/-!
# The encoding of a cone is exact

The variables number the nodes of the cone, and an assignment of them satisfies the clauses exactly
if it consists of the values that the nodes take under some assignment of the inputs.
-/

namespace AndInverter.Clausal.Encoding

variable {g : Graph} {vars : Std.HashMap Nat Nat} {ids : List Nat} {m : Nat → Bool} {a b e : Edge}
  {n : Node} {id i u v w : Nat} {root : Nat} {cone : Cone}

theorem getElem?_ofList_zipIdx (h : ids.Nodup) :
    (Std.HashMap.ofList ids.zipIdx)[id]? = some v ↔ ids[v]? = some id := by
  have hdistinct : ids.zipIdx.Pairwise fun p q => (p.1 == q.1) = false := by
    rw [← List.zipIdx_map_fst 0 ids, List.Nodup, List.pairwise_map] at h
    exact h.imp fun hne => beq_eq_false_iff_ne.mpr hne
  constructor
  · intro hv
    by_cases hid : id ∈ ids
    · obtain ⟨w, hw⟩ := List.mem_iff_getElem?.mp hid
      have hw' : (Std.HashMap.ofList ids.zipIdx)[id]? = some w :=
        Std.HashMap.getElem?_ofList_of_mem (beq_self_eq_true id) hdistinct
          (List.mk_mem_zipIdx_iff_getElem?.mpr hw)
      rw [hv] at hw'
      cases hw'
      exact hw
    · rw [Std.HashMap.getElem?_ofList_of_contains_eq_false] at hv
      · cases hv
      · simpa [List.zipIdx_map_fst] using hid
  · intro hv
    exact Std.HashMap.getElem?_ofList_of_mem (beq_self_eq_true id) hdistinct
      (List.mk_mem_zipIdx_iff_getElem?.mpr hv)

theorem edgeLiteral_eq_ok (h : vars[e.node]? = some v) :
    edgeLiteral vars e = .ok ⟨v, !e.complemented⟩ := by
  simp only [edgeLiteral, h]

def nodeValue (vars : Std.HashMap Nat Nat) (m : Nat → Bool) (id : Nat) : Bool :=
  vars[id]?.any m

def Consistent (g : Graph) (val : Nat → Bool) (id : Nat) : Prop :=
  match g.nodes[id]? with
  | some .constant => val id = false
  | some (.gate a b) => val id = ((val a.node ^^ a.complemented) && (val b.node ^^ b.complemented))
  | _ => True

/-- The clauses of a node say that it has the value that its fanins give it. -/
theorem nodeClauses_eq_ok (hv : vars[id]? = some v) (hn : g.nodes[id]? = some n)
    (hout : n.isOutput = false) (hfanins : ∀ e ∈ n.fanins, ∃ u, vars[e.node]? = some u) :
    ∃ cls, nodeClauses g vars id = .ok cls ∧
      (∀ m, Satisfies m cls ↔ Consistent g (nodeValue vars m) id) ∧
      ∀ cl ∈ cls, ∀ l ∈ cl, ∃ id : Nat, vars[id]? = some l.var := by
  have hx : edgeLiteral vars (.plain id) = .ok ⟨v, true⟩ := edgeLiteral_eq_ok hv
  have hnode : g.node id = .ok n := by simp only [Graph.node, hn]
  cases n with
  | constant =>
    refine ⟨[[⟨v, false⟩]], ?_, fun m => ?_, ?_⟩
    · rw [nodeClauses, hx, hnode]
      rfl
    · simp [Satisfies, Consistent, hn, nodeValue, hv, Clause.eval, Literal.eval]
    · simpa using ⟨id, hv⟩
  | input i =>
    refine ⟨[], ?_, fun m => ?_, by simp⟩
    · rw [nodeClauses, hx, hnode]
      rfl
    · simp [Satisfies, Consistent, hn]
  | gate a b =>
    obtain ⟨u, hu⟩ := hfanins a (by simp)
    obtain ⟨w, hw⟩ := hfanins b (by simp)
    refine ⟨[[⟨v, true⟩, ⟨u, !!a.complemented⟩, ⟨w, !!b.complemented⟩],
      [⟨v, false⟩, ⟨u, !a.complemented⟩], [⟨v, false⟩, ⟨w, !b.complemented⟩]], ?_, fun m => ?_, ?_⟩
    · rw [nodeClauses, hx, hnode]
      change (do
        let a ← edgeLiteral vars a
        let b ← edgeLiteral vars b
        pure [[⟨v, true⟩, a.complement, b.complement], [⟨v, false⟩, a], [⟨v, false⟩, b]] :
        Except Fault (List Clause)) = _
      rw [edgeLiteral_eq_ok hu, edgeLiteral_eq_ok hw]
      rfl
    · simp only [Satisfies, Consistent, hn, nodeValue, hv, hu, hw, Option.any_some, Clause.eval,
        Literal.eval, List.forall_mem_cons, List.any_cons, List.any_nil]
      cases m v <;> cases m u <;> cases m w <;> cases a.complemented <;> cases b.complemented <;>
        simp
    · simpa using ⟨⟨⟨id, hv⟩, ⟨a.node, hu⟩, ⟨b.node, hw⟩⟩, ⟨⟨id, hv⟩, ⟨a.node, hu⟩⟩,
        ⟨id, hv⟩, ⟨b.node, hw⟩⟩
  | output j e => cases hout

/-- Values that are consistent throughout a cone are those of the simulation that starts from the
values of its inputs. -/
theorem eq_valueOf_of_consistent (hg : g.WellFormed) (hdrives : g.Drives e)
    (hcone : g.IsCone e.node cone) {val : Nat → Bool}
    (h : ∀ id ∈ cone.nodes, Consistent g val id) (hid : id ∈ cone.nodes) :
    val id = g.valueOf (fun i => val (g.inputs[i]?.getD 0)) id := by
  induction id using Nat.strongRecOn with
  | ind id ih =>
    obtain ⟨n, hn, hout⟩ := hcone.exists_node hg hdrives hid
    have hval := h id hid
    rw [Consistent, hn] at hval
    cases n with
    | constant => rw [Graph.valueOf_constant hn, hval]
    | input i => rw [Graph.valueOf_input hn, hg.input_iff.mpr hn, Option.getD_some]
    | gate a b =>
      have hedge : ∀ e ∈ (Node.gate a b).fanins, val e.node = g.valueOf _ e.node := fun e he =>
        ih e.node (hg.fanin_lt hn he) (hcone.fanin_mem hid hn he)
      rw [Graph.valueOf_gate hg hn, Graph.edgeValueOf, Graph.edgeValueOf, hval,
        hedge a (by simp), hedge b (by simp)]
    | output j e => cases hout

theorem consistent_valueOf (hg : g.WellFormed) (x : Nat → Bool) (id : Nat) :
    Consistent g (g.valueOf x) id := by
  rw [Consistent]
  split
  · rename_i hn
    exact Graph.valueOf_constant hn
  · rename_i hn
    exact Graph.valueOf_gate hg hn
  · trivial

theorem consistent_congr {val val' : Nat → Bool} (h : val id = val' id)
    (hfanins : ∀ n, g.nodes[id]? = some n → ∀ e ∈ n.fanins, val e.node = val' e.node) :
    Consistent g val id ↔ Consistent g val' id := by
  rw [Consistent, Consistent]
  split
  · rw [h]
  · rename_i a b hn
    rw [h, hfanins _ hn a (by simp), hfanins _ hn b (by simp)]
  · rfl

/-- The encoding of the cone of an edge, whose nodes are numbered in the order of a list. -/
structure Represents (c : Encoding) (g : Graph) (e : Edge) (ids : List Nat) : Prop where
  numVars_eq : c.numVars = ids.length
  vars_iff {id v : Nat} : c.vars[id]? = some v ↔ ids[v]? = some id
  lt_numVars {cl : Clause} {l : Literal} : cl ∈ c.clauses → l ∈ cl → l.var < c.numVars
  clauses_iff (m : Nat → Bool) : Satisfies m c.clauses ↔
    ∃ x, ∀ v id, ids[v]? = some id → m v = g.valueOf x id
  driver_eq : ∃ v, ids[v]? = some e.node ∧ c.driver = .literal ⟨v, !e.complemented⟩
  inputs_iff {i v : Nat} : (i, v) ∈ c.inputs ↔
    ∃ id, ids[v]? = some id ∧ g.nodes[id]? = some (.input i)
  inputs_ascending : c.inputs.Pairwise (·.1 < ·.1)
  depends {x y : Nat → Bool} : (∀ i v, (i, v) ∈ c.inputs → x i = y i) →
    ∀ id ∈ ids, g.valueOf x id = g.valueOf y id

namespace Represents

variable {c : Encoding}

theorem varOfInput?_eq_some_iff (h : c.Represents g e ids) :
    c.varOfInput? i = some v ↔ (i, v) ∈ c.inputs := by
  simp [varOfInput?, Ascending.search_eq_some_iff h.inputs_ascending]

theorem var_unique (h : c.Represents g e ids) (hv : (i, v) ∈ c.inputs)
    (hw : (i, w) ∈ c.inputs) : v = w := by
  have hvar := h.varOfInput?_eq_some_iff.mpr hv
  rw [h.varOfInput?_eq_some_iff.mpr hw] at hvar
  exact (Option.some.inj hvar).symm

end Represents

theorem inputEntry_eq_ok (hn : g.nodes[id]? = some (.input i)) (hv : vars[id]? = some v) :
    inputEntry g vars id = .ok (i, v) := by
  have hindex : g.nodes[id]?.bind Node.inputIndex? = some i := by rw [hn]; rfl
  simp only [inputEntry, hindex, edgeLiteral_eq_ok (e := .plain id) hv]
  rfl

theorem clauses_eq_ok (hg : g.WellFormed) (hdrives : g.Drives e) (hcone : g.IsCone e.node cone)
    (hvars : ∀ id v : Nat, vars[id]? = some v ↔ cone.nodes[v]? = some id) :
    ∃ lists, cone.nodes.mapM (nodeClauses g vars) = .ok lists ∧
      (∀ m, Satisfies m lists.flatten ↔
        ∀ id ∈ cone.nodes, Consistent g (nodeValue vars m) id) ∧
      ∀ cl ∈ lists.flatten, ∀ l ∈ cl, l.var < cone.nodes.length := by
  have hnode : ∀ id ∈ cone.nodes, ∃ cls, nodeClauses g vars id = .ok cls ∧
      (∀ m, Satisfies m cls ↔ Consistent g (nodeValue vars m) id) ∧
      ∀ cl ∈ cls, ∀ l ∈ cl, ∃ id : Nat, vars[id]? = some l.var := by
    intro id hid
    obtain ⟨n, hn, hout⟩ := hcone.exists_node hg hdrives hid
    obtain ⟨v, hv⟩ := List.mem_iff_getElem?.mp hid
    refine nodeClauses_eq_ok ((hvars id v).mpr hv) hn hout fun e he => ?_
    obtain ⟨u, hu⟩ := List.mem_iff_getElem?.mp (hcone.fanin_mem hid hn he)
    exact ⟨u, (hvars e.node u).mpr hu⟩
  obtain ⟨lists, hlists, hto, hfrom⟩ := Except.mapM_eq_ok hnode
  refine ⟨lists, hlists, fun m => ⟨fun h id hid => ?_, fun h cl hcl => ?_⟩, fun cl hcl l hl => ?_⟩
  · obtain ⟨cls, hcls, hiff, -⟩ := hto id hid
    exact (hiff m).mp fun cl hcl => h cl (List.mem_flatten.mpr ⟨cls, hcls, hcl⟩)
  · obtain ⟨cls, hcls, hcl⟩ := List.mem_flatten.mp hcl
    obtain ⟨id, hid, hiff, -⟩ := hfrom cls hcls
    exact (hiff m).mpr (h id hid) cl hcl
  · obtain ⟨cls, hcls, hcl⟩ := List.mem_flatten.mp hcl
    obtain ⟨_, -, -, hscope⟩ := hfrom cls hcls
    obtain ⟨id, hid⟩ := hscope cl hcl l hl
    exact (List.getElem?_eq_some_iff.mp ((hvars id l.var).mp hid)).1

theorem inputIndex?_of_inputEntry {p : Nat × Nat} (h : inputEntry g vars id = .ok p) :
    g.nodes[id]?.bind Node.inputIndex? = some p.1 := by
  simp only [inputEntry] at h
  split at h
  · cases h
  · rename_i index hindex
    obtain ⟨l, -, h⟩ := Except.bind_eq_ok_iff.mp h
    cases h
    exact hindex

theorem map_fst_of_mapM_inputEntry {inputs : List (Nat × Nat)}
    (h : cone.inputs.mapM (inputEntry g vars) = .ok inputs) :
    inputs.map Prod.fst = g.coneInputs cone := by
  rw [Except.mapM_eq_ok_iff] at h
  rw [Graph.coneInputs]
  generalize cone.inputs = ids at h
  induction h with
  | nil => rfl
  | cons hp _ ih => rw [List.map_cons, ih, List.filterMap_cons, inputIndex?_of_inputEntry hp]

theorem inputs_eq_ok (hg : g.WellFormed) (hcone : g.IsCone root cone)
    (hvars : ∀ id v : Nat, vars[id]? = some v ↔ cone.nodes[v]? = some id) :
    ∃ inputs, cone.inputs.mapM (inputEntry g vars) = .ok inputs ∧ ∀ i v, (i, v) ∈ inputs ↔
      ∃ id, cone.nodes[v]? = some id ∧ g.nodes[id]? = some (.input i) := by
  have hentry : ∀ id ∈ cone.inputs, ∃ p, inputEntry g vars id = .ok p ∧
      cone.nodes[p.2]? = some id ∧ g.nodes[id]? = some (.input p.1) := by
    intro id hid
    obtain ⟨hmem, i, hn⟩ := (hcone.mem_inputs hg).mp hid
    obtain ⟨v, hv⟩ := List.mem_iff_getElem?.mp hmem
    exact ⟨(i, v), inputEntry_eq_ok hn ((hvars id v).mpr hv), hv, hn⟩
  obtain ⟨inputs, hinputs, hto, hfrom⟩ := Except.mapM_eq_ok hentry
  refine ⟨inputs, hinputs, fun i v => ⟨fun h => ?_, ?_⟩⟩
  · obtain ⟨id, -, hv, hn⟩ := hfrom _ h
    exact ⟨id, hv, hn⟩
  · rintro ⟨id, hv, hn⟩
    have hid := (hcone.mem_inputs hg).mpr ⟨List.mem_of_getElem? hv, i, hn⟩
    obtain ⟨⟨j, w⟩, hp, hw, hj⟩ := hto id hid
    rw [hn] at hj
    cases hj
    have hvw : v = w := by
      have hv := (hvars id v).mpr hv
      rw [(hvars id w).mpr hw] at hv
      cases hv
      rfl
    rwa [hvw]

theorem ofOutput_eq_ok_of_constant (hd : g.driver i = .ok e) (he : e.isConstant = true) :
    ofOutput g i = .ok { driver := .constant e.complemented } := by
  rw [ofOutput, hd]
  change (if e.isConstant = true then _ else _) = _
  rw [if_pos he]
  rfl

theorem ofOutput_eq_ok (hg : g.WellFormed) (hd : g.driver i = .ok e) (hdrives : g.Drives e)
    (he : e.isConstant = false) : ∃ c cone, ofOutput g i = .ok c ∧ g.cone e.node = .ok cone ∧
      g.IsCone e.node cone ∧ c.Represents g e cone.nodes ∧
      c.inputs.map Prod.fst = g.coneInputs cone := by
  obtain ⟨cone, hcone, hspec⟩ := Graph.cone_eq_ok hg hdrives.lt_size
  have hnodup : cone.nodes.Nodup := hspec.ascending.imp Nat.ne_of_lt
  have hvars (id v : Nat) : (Std.HashMap.ofList cone.nodes.zipIdx)[id]? = some v ↔
    cone.nodes[v]? = some id := getElem?_ofList_zipIdx hnodup
  obtain ⟨lists, hlists, hclauses, hscope⟩ := clauses_eq_ok hg hdrives hspec hvars
  obtain ⟨inputs, hinputs, hiff⟩ := inputs_eq_ok hg hspec hvars
  obtain ⟨v, hv⟩ := List.mem_iff_getElem?.mp hspec.root_mem
  have hdriver := edgeLiteral_eq_ok ((hvars e.node v).mpr hv)
  have hindices := map_fst_of_mapM_inputEntry hinputs
  refine ⟨⟨cone.nodes.length, lists.flatten, Std.HashMap.ofList cone.nodes.zipIdx, inputs,
    .literal ⟨v, !e.complemented⟩⟩, cone, ?_, hcone, hspec, ⟨rfl, @hvars, fun hcl => hscope _ hcl _,
    ?_, ⟨v, hv, rfl⟩, @hiff, List.pairwise_map.mp (hindices ▸ Graph.pairwise_coneInputs hg hspec),
    ?_⟩, hindices⟩
  · rw [ofOutput, hd]
    change (if e.isConstant = true then _ else g.cone e.node >>= _) = _
    rw [if_neg (by simp [he]), hcone]
    change (do
      let clauses ← cone.nodes.mapM (nodeClauses g (Std.HashMap.ofList cone.nodes.zipIdx))
      let inputs ← cone.inputs.mapM (inputEntry g (Std.HashMap.ofList cone.nodes.zipIdx))
      let l ← edgeLiteral (Std.HashMap.ofList cone.nodes.zipIdx) e
      pure (⟨cone.nodes.length, clauses.flatten, Std.HashMap.ofList cone.nodes.zipIdx, inputs,
        .literal l⟩ : Encoding)) = _
    rw [hlists, hinputs, hdriver]
    rfl
  · intro m
    rw [hclauses m]
    constructor
    · intro h
      refine ⟨fun i => nodeValue (Std.HashMap.ofList cone.nodes.zipIdx) m (g.inputs[i]?.getD 0),
        fun v id hid => ?_⟩
      have hval := eq_valueOf_of_consistent hg hdrives hspec h (List.mem_of_getElem? hid)
      rwa [nodeValue, (hvars id v).mpr hid] at hval
    · rintro ⟨x, hx⟩ id hid
      have hval : ∀ id ∈ cone.nodes,
          nodeValue (Std.HashMap.ofList cone.nodes.zipIdx) m id = g.valueOf x id := by
        intro id hid
        obtain ⟨v, hv⟩ := List.mem_iff_getElem?.mp hid
        rw [nodeValue, (hvars id v).mpr hv]
        exact hx v id hv
      refine (consistent_congr (hval id hid) fun n hn e he => ?_).mpr (consistent_valueOf hg x id)
      exact hval e.node (hspec.fanin_mem hid hn he)
  · intro x y hxy id hid
    refine hspec.valueOf_congr hg (fun id hid i hn => ?_) hid
    obtain ⟨v, hv⟩ := List.mem_iff_getElem?.mp ((hspec.mem_inputs hg).mp hid).1
    exact hxy i v ((hiff i v).mpr ⟨id, hv, hn⟩)

end AndInverter.Clausal.Encoding
