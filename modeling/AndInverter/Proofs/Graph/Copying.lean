import AndInverter.Proofs.Graph.Rehashing

/-!
# Hashing step by step

A hashed copy comes about in steps: the inputs all at once, then a step for each node of the graph,
then a step for each output. The states that the steps lead to are an inductive family, so what
every step keeps holds of the copy. It keeps the copy well-formed, hashed and in the order of
inputs, gates and outputs.
-/

namespace AndInverter

open AndInverter.Graph

namespace Build

variable {g g' : Graph} {p : Edge × Edge} {e : Edge}

theorem Conjoins.extends (h : Conjoins g p e g') : g.Extends g' := by
  cases h with
  | trivial => exact .refl g
  | found => exact .refl g
  | added => exact extends_of_push (m := .gate p.1 p.2) rfl

theorem Conjoins.sameTerminals (h : Conjoins g p e g') : g.SameTerminals g' := by
  cases h <;> exact ⟨rfl, rfl, rfl, rfl⟩

end Build

namespace Graph

variable {g h h' : Graph} {images : Array (Option Edge)} {names : List String} {name : String}
  {c d e : Edge} {p : Edge × Edge} {k : Nat}

def ofInputs (names : List String) : Graph :=
  names.foldl (fun h name => (h.withInput name).2) empty

def imageOf? (images : Array (Option Edge)) (e : Edge) : Option Edge :=
  images[e.node]?.join.map (·.complementIf e.complemented)

/-- The states of a copy: the images of the nodes that have been worked through, the number of
outputs that have been added, and the copy itself. -/
inductive Copies (g : Graph) : Array (Option Edge) → Nat → Graph → Prop where
  | inputs : Copies g #[] 0 (ofInputs g.inputNames.toList)
  | constant {images : Array (Option Edge)} {h : Graph} (hc : Copies g images 0 h)
    (hn : g.nodes[images.size]? = some .constant) :
    Copies g (images.push (some (.constant false))) 0 h
  | input {images : Array (Option Edge)} {h : Graph} (hc : Copies g images 0 h) {i : Nat}
    (hn : g.nodes[images.size]? = some (.input i)) :
    Copies g (images.push (h.inputs[i]?.map .plain)) 0 h
  | dead {images : Array (Option Edge)} {h : Graph} (hc : Copies g images 0 h) {a b : Edge}
    (hn : g.nodes[images.size]? = some (.gate a b)) (hdead : g.live[images.size]? ≠ some true) :
    Copies g (images.push none) 0 h
  | gate {images : Array (Option Edge)} {h h' : Graph} (hc : Copies g images 0 h)
    {a b c d e : Edge} (hn : g.nodes[images.size]? = some (.gate a b))
    (hlive : g.live[images.size]? = some true) (ha : imageOf? images a = some c)
    (hb : imageOf? images b = some d) (he : Build.Conjoins h (Edge.sorted c d) e h') :
    Copies g (images.push (some e)) 0 h'
  | outputNode {images : Array (Option Edge)} {h : Graph} (hc : Copies g images 0 h) {i : Nat}
    {e : Edge} (hn : g.nodes[images.size]? = some (.output i e)) :
    Copies g (images.push none) 0 h
  | output {images : Array (Option Edge)} {k : Nat} {h : Graph} (hc : Copies g images k h)
    (hsize : images.size = g.size) {id : Nat} (hid : g.outputs[k]? = some id) {e d : Edge}
    (hn : g.nodes[id]? = some (.output k e)) (he : imageOf? images e = some d)
    (hd : h.Drives d) (name : String) : Copies g images (k + 1) (h.withOutput d name).2

structure LaidOut (g : Graph) : Prop where
  terminals_lt : g.numInputs + g.numOutputs < g.size
  input_node {i id : Nat} : g.nodes[id]? = some (.input i) → id = i + 1
  gate_node {id : Nat} {a b : Edge} : g.nodes[id]? = some (.gate a b) →
    g.numInputs < id ∧ id + g.numOutputs < g.size
  output_node {i id : Nat} {e : Edge} : g.nodes[id]? = some (.output i e) →
    id + g.numOutputs = g.size + i

structure CopyState (g h : Graph) (k : Nat) : Prop where
  wellFormed : h.WellFormed
  fullyHashed : h.FullyHashed
  laidOut : h.LaidOut
  inputNames_eq : h.inputNames = g.inputNames
  numOutputs_eq : h.numOutputs = k

structure InputsAlone (h : Graph) : Prop where
  wellFormed : h.WellFormed
  fullyHashed : h.FullyHashed
  outputs_eq : h.outputs = #[]
  size_eq : h.size = h.numInputs + 1
  node_eq {id : Nat} {n : Node} : h.nodes[id]? = some n →
    n = .constant ∨ ∃ i, n = .input i ∧ id = i + 1

theorem inputsAlone_empty : InputsAlone empty where
  wellFormed := empty_wellFormed
  fullyHashed := fullyHashed_empty
  outputs_eq := rfl
  size_eq := rfl
  node_eq {id n} hn := by
    rcases id with _ | id <;> simp [empty] at hn
    exact .inl hn.symm

theorem InputsAlone.withInput (hi : InputsAlone h) (name : String) :
    InputsAlone (h.withInput name).2 where
  wellFormed := hi.wellFormed.withInput name
  fullyHashed := hi.fullyHashed.push (m := .input h.numInputs) rfl rfl rfl
  outputs_eq := hi.outputs_eq
  size_eq := by
    change (h.nodes.push _).size = (h.inputs.push _).size + 1
    rw [Array.size_push, Array.size_push]
    exact congrArg (· + 1) hi.size_eq
  node_eq {id n} hn := by
    rcases getElem?_push_iff.mp hn with ⟨rfl, rfl⟩ | hn
    · exact .inr ⟨h.numInputs, rfl, hi.size_eq⟩
    · exact hi.node_eq hn

theorem InputsAlone.foldl (hi : InputsAlone h) (names : List String) :
    InputsAlone (names.foldl (fun h name => (h.withInput name).2) h) ∧
      (names.foldl (fun h name => (h.withInput name).2) h).inputNames.toList =
        h.inputNames.toList ++ names := by
  induction names generalizing h with
  | nil => exact ⟨hi, (List.append_nil _).symm⟩
  | cons name names ih =>
    obtain ⟨halone, hnames⟩ := ih (hi.withInput name)
    refine ⟨halone, hnames.trans ?_⟩
    change (h.inputNames.push name).toList ++ names = _
    rw [Array.toList_push, List.append_assoc]
    rfl

theorem inputsAlone_ofInputs (names : List String) : InputsAlone (ofInputs names) :=
  (inputsAlone_empty.foldl names).1

theorem inputNames_ofInputs (names : List String) : (ofInputs names).inputNames.toList = names :=
  (inputsAlone_empty.foldl names).2

theorem InputsAlone.laidOut (hi : InputsAlone h) : h.LaidOut where
  terminals_lt := by
    rw [numOutputs, hi.outputs_eq, hi.size_eq]
    exact Nat.lt_succ_self _
  input_node hn := by
    rcases hi.node_eq hn with h | ⟨i, h, hid⟩
    · cases h
    · cases h
      exact hid
  gate_node hn := by
    rcases hi.node_eq hn with h | ⟨i, h, -⟩
    · cases h
    · cases h
  output_node hn := by
    rcases hi.node_eq hn with h | ⟨i, h, -⟩
    · cases h
    · cases h

/-- Before the first output, a gate goes to the end. -/
theorem LaidOut.conjoins (hl : h.LaidOut) (hout : h.numOutputs = 0)
    (hc : Build.Conjoins h p e h') : h'.LaidOut := by
  cases hc with
  | trivial => exact hl
  | found => exact hl
  | added =>
    have hlt := hl.terminals_lt
    have hsize : Graph.size { h.push (.gate p.1 p.2) with hashed := h.hashed.insert p h.size } =
        h.size + 1 := Array.size_push ..
    constructor
    · rw [hsize]
      exact Nat.lt_succ_of_lt hlt
    · intro i id hn
      rcases getElem?_push_iff.mp hn with ⟨-, hm⟩ | hn
      · cases hm
      · exact hl.input_node hn
    · intro id a b hn
      rw [hsize]
      change h.numInputs < id ∧ id + h.numOutputs < h.size + 1
      rcases getElem?_push_iff.mp hn with ⟨rfl, -⟩ | hn
      · change h.numInputs < h.size ∧ h.size + h.numOutputs < h.size + 1
        omega
      · have := hl.gate_node hn
        omega
    · intro i id e hn
      rcases getElem?_push_iff.mp hn with ⟨-, hm⟩ | hn
      · cases hm
      · have := hl.output_node hn
        rw [hsize]
        change id + h.numOutputs = h.size + 1 + i
        have hid : id < h.size := lt_size_of_nodes_eq hn
        omega

theorem LaidOut.withOutput (hl : h.LaidOut) (d : Edge) (name : String) :
    (h.withOutput d name).2.LaidOut := by
  have hlt := hl.terminals_lt
  have hsize : (h.withOutput d name).2.size = h.size + 1 := Array.size_push ..
  have hout : (h.withOutput d name).2.numOutputs = h.numOutputs + 1 := Array.size_push ..
  have hin : (h.withOutput d name).2.numInputs = h.numInputs := rfl
  constructor
  · omega
  · intro i id hn
    rcases getElem?_push_iff.mp hn with ⟨-, hm⟩ | hn
    · cases hm
    · exact hl.input_node hn
  · intro id a b hn
    rcases getElem?_push_iff.mp hn with ⟨-, hm⟩ | hn
    · cases hm
    · have := hl.gate_node hn
      omega
  · intro i id e hn
    rcases getElem?_push_iff.mp hn with ⟨hid, hm⟩ | hn
    · cases hm
      change id = h.size at hid
      omega
    · have := hl.output_node hn
      omega

namespace CopyState

theorem ofInputs (g : Graph) : CopyState g (ofInputs g.inputNames.toList) 0 where
  wellFormed := (inputsAlone_ofInputs _).wellFormed
  fullyHashed := (inputsAlone_ofInputs _).fullyHashed
  laidOut := (inputsAlone_ofInputs _).laidOut
  inputNames_eq := Array.toList_inj.mp (inputNames_ofInputs _)
  numOutputs_eq := by
    rw [numOutputs, (inputsAlone_ofInputs _).outputs_eq]
    rfl

theorem conjoins (hs : CopyState g h 0)
    (hc : Build.Conjoins h (Edge.sorted c d) e h') : CopyState g h' 0 where
  wellFormed := hc.wellFormed (Build.sorted_le c d) hs.wellFormed
  fullyHashed := hs.fullyHashed.conjoins hc
  laidOut := hs.laidOut.conjoins hs.numOutputs_eq hc
  inputNames_eq := hc.sameTerminals.inputNames_eq.trans hs.inputNames_eq
  numOutputs_eq := by
    rw [numOutputs, hc.sameTerminals.outputs_eq]
    exact hs.numOutputs_eq

theorem withOutput (hs : CopyState g h k) (hd : h.Drives d) (name : String) :
    CopyState g (h.withOutput d name).2 (k + 1) where
  wellFormed := hs.wellFormed.withOutput hd name
  fullyHashed := hs.fullyHashed.push (m := .output h.numOutputs d) rfl rfl rfl
  laidOut := hs.laidOut.withOutput d name
  inputNames_eq := hs.inputNames_eq
  numOutputs_eq := by
    change (h.outputs.push h.size).size = k + 1
    rw [Array.size_push]
    exact congrArg (· + 1) hs.numOutputs_eq

theorem numInputs_eq (hs : CopyState g h k) (hg : g.WellFormed) : h.numInputs = g.numInputs := by
  rw [numInputs, numInputs, ← hs.wellFormed.size_inputNames, hs.inputNames_eq, hg.size_inputNames]

end CopyState

theorem Copies.state (hc : g.Copies images k h) : CopyState g h k := by
  induction hc with
  | inputs => exact .ofInputs g
  | constant _ _ ih => exact ih
  | input _ _ ih => exact ih
  | dead _ _ _ ih => exact ih
  | gate _ _ _ _ _ he ih => exact ih.conjoins he
  | outputNode _ _ ih => exact ih
  | output _ _ _ _ _ hd name ih => exact ih.withOutput hd name

theorem ensures_ofInputs (g : Graph) :
    Ensures (g.inputNames.mapM fun name => Build.input (some name)) empty
      (fun _ h => h = ofInputs g.inputNames.toList) fun _ _ => True := by
  rw [Array.mapM_eq_foldlM, ← Array.foldlM_toList]
  refine (Ensures.foldlM (P := fun _ rest h =>
    rest.foldl (fun h name => (h.withInput name).2) h = ofInputs g.inputNames.toList) ?_ rfl).mono
    (fun _ _ h => h) fun _ _ h => h
  rintro inputs name rest h - hrest
  rw [map_eq_pure_bind]
  exact Ensures.bindUpdateGet rfl (Ensures.result hrest)

theorem ensures_imageOf? (images : Array (Option Edge)) (e : Edge) (h : Graph) :
    Ensures (image images e) h (fun d h' => h' = h ∧ imageOf? images e = some d)
      fun _ _ => True := by
  rw [image, imageOf?]
  cases images[e.node]?.join with
  | some d => exact Ensures.result ⟨rfl, rfl⟩
  | none => exact Ensures.failure trivial

theorem Copies.inputs_eq (hc : g.Copies images k h) :
    h.inputs = (ofInputs g.inputNames.toList).inputs := by
  induction hc with
  | inputs => rfl
  | constant _ _ ih => exact ih
  | input _ _ ih => exact ih
  | dead _ _ _ ih => exact ih
  | gate _ _ _ _ _ he ih => exact he.sameTerminals.inputs_eq.trans ih
  | outputNode _ _ ih => exact ih
  | output _ _ _ _ _ _ _ ih => exact ih

theorem Copies.ensures_rehashNode {n : Node} (hc : g.Copies images 0 h)
    (hn : g.nodes[images.size]? = some n) :
    Ensures (g.rehashNode ((ofInputs g.inputNames.toList).inputs.map .plain) images n) h
      (fun image? h' => g.Copies (images.push image?) 0 h') fun _ _ => True := by
  cases n with
  | constant => exact Ensures.result (hc.constant hn)
  | input i =>
    refine Ensures.result ?_
    rw [Array.getElem?_map, ← hc.inputs_eq]
    exact hc.input hn
  | output i e => exact Ensures.result (hc.outputNode hn)
  | gate a b =>
    rw [rehashNode]
    by_cases hlive : g.live[images.size]? = some true
    · rw [if_pos hlive]
      refine (ensures_imageOf? images a h).bind ?_
      rintro c _ ⟨rfl, ha⟩
      refine (ensures_imageOf? images b _).bind ?_
      rintro d _ ⟨rfl, hb⟩
      refine ((Build.ensures_and _ c d).mono (fun _ _ h => h) fun _ _ _ => trivial).bind ?_
      exact fun e h' he => Ensures.result (hc.gate hn hlive ha hb he)
    · rw [if_neg hlive]
      exact Ensures.result (hc.dead hn hlive)

def OutputsLeft (g : Graph) (images : Array (Option Edge)) (rest : List (Nat × String))
    (h : Graph) : Prop :=
  ∃ k, g.Copies images k h ∧ k + rest.length = g.numOutputs ∧
    rest = (g.outputs.zip g.outputNames).toList.drop k

theorem Copies.outputsLeft (hc : g.Copies images 0 h) (hg : g.WellFormed) :
    g.OutputsLeft images (g.outputs.zip g.outputNames).toList h := by
  refine ⟨0, hc, ?_, rfl⟩
  rw [Nat.zero_add, Array.length_toList, Array.size_zip, hg.size_outputNames, Nat.min_self]
  rfl

theorem OutputsLeft.ensures_output {id : Nat} {rest : List (Nat × String)}
    (hl : g.OutputsLeft images ((id, name) :: rest) h) (hg : g.WellFormed)
    (hsize : images.size = g.size) : ∃ i e, g.nodes[id]? = some (.output i e) ∧
      Ensures (do
          discard <| Build.output (← image images e) (some name)
          return ForInStep.yield PUnit.unit) h
        (fun r h' => ∃ b, r = .yield b ∧ g.OutputsLeft images rest h') fun _ _ => True := by
  obtain ⟨k, hc, hlength, hrest⟩ := hl
  have hzip : (g.outputs.zip g.outputNames).toList[k]? = some (id, name) := by
    rw [← List.head?_drop, ← hrest]
    rfl
  rw [Array.toList_zip] at hzip
  have hid := (List.getElem?_zip_eq_some.mp hzip).1
  rw [Array.getElem?_toList] at hid
  obtain ⟨e, hn⟩ := hg.output_iff.mp hid
  refine ⟨k, e, hn, (ensures_imageOf? images e h).bind ?_⟩
  rintro d _ ⟨rfl, he⟩
  simp only [discard, map_const, Function.comp_apply, map_eq_pure_bind, bind_assoc]
  refine Ensures.bind ((Build.ensures_output _ d (some name)).mono (fun _ _ h => h)
    fun _ _ _ => trivial) ?_
  rintro j _ ⟨hd, hj⟩
  cases hj
  refine Ensures.result ⟨_, rfl, k + 1, hc.output hsize hid hn he hd name, ?_, ?_⟩
  · rw [List.length_cons] at hlength
    omega
  · rw [← List.tail_drop, ← hrest]
    rfl

theorem ensures_copies (hg : g.WellFormed) :
    Ensures g.rehashInto empty (fun _ h => ∃ images, images.size = g.size ∧
      g.Copies images g.numOutputs h) fun _ _ => True := by
  rw [rehashInto_eq]
  refine ((ensures_inputs g).and (ensures_ofInputs g)).mono (fun _ _ h => h)
    (fun _ _ _ => trivial) |>.bind ?_
  rintro inputs h₀ ⟨hi, rfl⟩
  rw [hi.inputs_eq]
  refine (ensures_scanM (P := fun images h => g.Copies images 0 h)
    (fun images n h hn hc => hc.ensures_rehashNode hn) .inputs).bind ?_
  rintro images h ⟨hsize, hc⟩
  rw [← Array.forIn_toList]
  refine Ensures.bind (Ensures.forIn (P := fun _ rest h => g.OutputsLeft images rest h) ?_
    (hc.outputsLeft hg)) ?_
  · rintro - ⟨id, name⟩ rest h - hl
    obtain ⟨i, e, hn, hstep⟩ := hl.ensures_output hg hsize
    simp only [hn]
    exact hstep
  · rintro - h ⟨k, hc, hk, -⟩
    rw [List.length_nil, Nat.add_zero] at hk
    exact Ensures.result ⟨images, hsize, hk ▸ hc⟩

/-- What hashing finds is the last state of a copy. -/
theorem WellFormed.copies_of_rehash (hg : g.WellFormed) (hr : g.rehash = .ok h) :
    ∃ images, images.size = g.size ∧ g.Copies images g.numOutputs h := by
  have hrun := ensures_copies hg
  simp only [rehash] at hr
  split at hr
  · rename_i heq
    cases hr
    rw [Ensures, heq] at hrun
    exact hrun
  · cases hr

end Graph

end AndInverter
