import AndInverter.Proofs.Graph.Renumbering

/-!
# Hashing again

A copy is laid out as hashing lays out its own result. If it has no dead gates, hashing it again
gives the same nodes in the same order. So a second hashing removes the dead gates that the first
one has left, and a third one changes nothing.
-/

namespace AndInverter.Graph

variable {g h h' k l : Graph} {images : Array (Option Edge)} {a b c d e : Edge} {id i n : Nat}

def OwnImages (g : Graph) (images : Array (Option Edge)) : Prop :=
  ∀ (id : Nat) (m : Node), id < images.size → g.nodes[id]? = some m → m.isOutput = false →
    images[id]? = some (some (.plain id))

theorem OwnImages.push {m : Node} {last : Option Edge} (hi : g.OwnImages images)
    (hm : g.nodes[images.size]? = some m)
    (hlast : m.isOutput = false → last = some (.plain images.size)) :
    g.OwnImages (images.push last) := by
  intro id m' hlt hm' hout
  rw [getElem?_push_iff]
  rcases Nat.lt_succ_iff_lt_or_eq.mp (Array.size_push last ▸ hlt) with hlt | rfl
  · exact .inr (hi id m' hlt hm' hout)
  · rw [hm] at hm'
    cases hm'
    exact .inl ⟨rfl, hlast hout⟩

theorem OwnImages.imageOf?_eq (hi : g.OwnImages images) (hlt : e.node < images.size)
    (he : g.Drives e) : imageOf? images e = some e := by
  obtain ⟨m, hm, hout⟩ := he
  refine imageOf?_eq_some_iff.mpr ⟨_, hi e.node m hlt hm hout, ?_⟩
  rw [Edge.complementIf, Edge.plain, Bool.false_xor]

/-- The copy repeats the nodes of the graph, up to those that have been worked through and with the
outputs that have been added. -/
structure Repeats (g : Graph) (images : Array (Option Edge)) (n : Nat) (h : Graph) : Prop where
  extends_graph : h.Extends g
  size_eq : h.size = max (g.numInputs + 1) (min images.size (g.size - g.numOutputs)) + n
  ownImages : g.OwnImages images

namespace Repeats

theorem ofInputs (hg : g.WellFormed) (hl : g.LaidOut) :
    Repeats g #[] 0 (ofInputs g.inputNames.toList) := by
  have halone := inputsAlone_ofInputs g.inputNames.toList
  have hnum := (CopyState.ofInputs g).numInputs_eq hg
  refine ⟨fun id m hm => ?_, ?_, fun id m hlt => absurd hlt (Nat.not_lt_zero _)⟩
  · rcases halone.node_eq hm with rfl | ⟨i, rfl, rfl⟩
    · exact hg.constant_iff.mpr (halone.wellFormed.constant_iff.mp hm)
    · have hlt : i < g.inputs.size :=
        Nat.lt_of_lt_of_eq (halone.wellFormed.index_lt_numInputs hm) hnum
      have hnode := hg.input_iff.mp (Array.getElem?_eq_getElem hlt)
      rwa [hl.input_node hnode] at hnode
  · rw [halone.size_eq, hnum, Array.size_empty, Nat.zero_min, Nat.max_zero, Nat.add_zero]

/-- A node that adds none to the copy. -/
theorem push {m : Node} {last : Option Edge} (hr : Repeats g images 0 h)
    (hm : g.nodes[images.size]? = some m)
    (hsize : images.size < g.numInputs + 1 ∨ g.size - g.numOutputs ≤ images.size)
    (hlast : m.isOutput = false → last = some (.plain images.size)) :
    Repeats g (images.push last) 0 h where
  extends_graph := hr.extends_graph
  size_eq := by
    have := hr.size_eq
    rw [Array.size_push]
    omega
  ownImages := hr.ownImages.push hm hlast

/-- The inputs of the copy are where those of the graph are. -/
theorem input_eq (hr : Repeats g images 0 h) (hg : g.WellFormed) (hh : h.WellFormed)
    (hl : g.LaidOut) (hn : g.nodes[images.size]? = some (.input i)) :
    h.inputs[i]? = some images.size := by
  have hi := hg.index_lt_numInputs hn
  have hid := hl.input_node hn
  have hsize := hr.size_eq
  have hlt : images.size < h.size := by omega
  have hnode := Array.getElem?_eq_getElem hlt
  have hsame := hr.extends_graph _ _ hnode
  rw [hn] at hsame
  rw [hh.input_iff, hnode, hsame]

/-- A gate finds no gate on its fanins, so it is added where it has been. -/
theorem conjoins (hr : Repeats g images 0 h) (hg : g.WellFormed) (hh : h.WellFormed)
    (hl : g.LaidOut) (hf : g.FullyHashed) (hn : g.nodes[images.size]? = some (.gate a b))
    (ha : imageOf? images a = some c) (hb : imageOf? images b = some d)
    (hc : Build.Conjoins h (Edge.sorted c d) e h') : Repeats g (images.push (some e)) 0 h' := by
  have hfanin {f : Edge} (hf : f ∈ (Node.gate a b).fanins) : imageOf? images f = some f :=
    hr.ownImages.imageOf?_eq (hg.fanin_lt hn hf) (hg.drives_fanin hn hf)
  rw [hfanin (by simp)] at ha hb
  cases ha
  cases hb
  have hsize : h.size = images.size := by
    have := hr.size_eq
    have := hl.gate_node hn
    omega
  obtain ⟨-, hlt, hproper⟩ := hg.hashed_gate (hf _ _ _ hn)
  rw [sorted_eq_of_le (Nat.le_of_lt hlt)] at hc
  obtain ⟨ha, -, hab⟩ := properPair_eq_true.mp hproper
  cases hc with
  | trivial ht =>
    rw [Build.trivial?_eq_none ha hab] at ht
    cases ht
  | @found id _ hhashed =>
    have hnode := (hh.hashed_gate hhashed).1
    have hid := hf _ _ _ (hr.extends_graph _ _ hnode)
    rw [hf _ _ _ hn] at hid
    cases hid
    exact absurd (lt_size_of_nodes_eq hnode) (hsize ▸ Nat.lt_irrefl _)
  | added =>
    refine ⟨fun id m hm => ?_, ?_, hr.ownImages.push hn fun _ => by rw [hsize]⟩
    · rcases getElem?_push_iff.mp hm with ⟨rfl, rfl⟩ | hm
      · change g.nodes[h.size]? = _
        rw [hsize]
        exact hn
      · exact hr.extends_graph id m hm
    · have := hl.gate_node hn
      change (h.nodes.push _).size = _
      rw [Array.size_push, Array.size_push]
      change h.size + 1 = _
      omega

/-- An output is added where it has been, since all nodes before it are there. -/
theorem withOutput (hr : Repeats g images n h) (hg : g.WellFormed) (hl : g.LaidOut)
    (hsize : images.size = g.size) (hcount : h.numOutputs = n)
    (hn : g.nodes[id]? = some (.output n e)) (he : imageOf? images e = some d) (name : String) :
    Repeats g images (n + 1) (h.withOutput d name).2 := by
  have hlt : e.node < images.size :=
    hsize ▸ Nat.lt_trans (hg.fanin_lt hn (by simp)) (lt_size_of_nodes_eq hn)
  rw [hr.ownImages.imageOf?_eq hlt (hg.drives_fanin hn (by simp))] at he
  cases he
  have hhsize := hr.size_eq
  have hid := hl.output_node hn
  have hterminals := hl.terminals_lt
  have hend : h.size = id := by omega
  refine ⟨fun j m hm => ?_, ?_, hr.ownImages⟩
  · rcases getElem?_push_iff.mp hm with ⟨rfl, rfl⟩ | hm
    · change g.nodes[h.size]? = _
      rw [hend, hn, hcount]
    · exact hr.extends_graph j m hm
  · change (h.nodes.push _).size = _
    rw [Array.size_push, ← Nat.add_assoc, ← hhsize]
    rfl

end Repeats

theorem Copies.repeats (hg : g.WellFormed) (hl : g.LaidOut) (hf : g.FullyHashed)
    (hd : g.NoDeadGates) (hc : g.Copies images n h) : Repeats g images n h := by
  induction hc with
  | inputs => exact .ofInputs hg hl
  | @constant images h hc hn ih =>
    have hzero := hg.constant_iff.mp hn
    exact ih.push hn (.inl (by omega)) fun _ => by rw [hzero]; rfl
  | @input images h hc i hn ih =>
    have hid := hl.input_node hn
    have hi := hg.index_lt_numInputs hn
    refine ih.push hn (.inl (by omega)) fun _ => ?_
    rw [ih.input_eq hg hc.state.wellFormed hl hn]
    rfl
  | dead _ hn hdead => exact absurd (hg.live_iff.mpr (hd _ _ _ hn)) hdead
  | gate hc hn _ ha hb he ih => exact ih.conjoins hg hc.state.wellFormed hl hf hn ha hb he
  | outputNode _ hn ih =>
    have hid := hl.output_node hn
    exact ih.push hn (.inr (by omega)) fun hout => by cases hout
  | output hc hsize _ hn he _ name ih =>
    exact ih.withOutput hg hl hsize hc.state.numOutputs_eq hn he name

/-- Hashing repeats a graph that is laid out, fully hashed and without dead gates. -/
theorem nodes_eq_of_rehash (hg : g.WellFormed) (hl : g.LaidOut) (hf : g.FullyHashed)
    (hd : g.NoDeadGates) (hr : g.rehash = .ok h) : h.nodes = g.nodes := by
  obtain ⟨images, hsize, hc⟩ := hg.copies_of_rehash hr
  have hrepeats := hc.repeats hg hl hf hd
  have hterminals := hl.terminals_lt
  have hsizes : h.nodes.size = g.nodes.size := by
    have := hrepeats.size_eq
    change h.size = g.size
    omega
  refine Array.ext hsizes fun i hi hi' => ?_
  have hnode := hrepeats.extends_graph i _ (Array.getElem?_eq_getElem hi)
  rw [Array.getElem?_eq_getElem hi'] at hnode
  exact (Option.some.inj hnode).symm

theorem OutputReaches.of_nodes_eq (hr : g.OutputReaches id) (hg : g.WellFormed) (hh : h.WellFormed)
    (heq : h.nodes = g.nodes) : h.OutputReaches id := by
  obtain ⟨i, o, ho, hreaches⟩ := hr
  refine ⟨i, o, ?_, ?_⟩
  · rw [hh.output_iff, heq]
    exact hg.output_iff.mp ho
  · induction hreaches with
    | root => exact .root
    | fanin _ hi ih => exact ih.fanin (by rwa [faninNodes, heq])

theorem NoDeadGates.of_nodes_eq (hd : g.NoDeadGates) (hg : g.WellFormed) (hh : h.WellFormed)
    (heq : h.nodes = g.nodes) : h.NoDeadGates :=
  fun id a b hn => (hd id a b (heq ▸ hn)).of_nodes_eq hg hh heq

/-- A second hashing leaves no dead gates. -/
theorem CopyState.noDeadGates_rehash (hs : CopyState g h n) (hr : h.rehash = .ok k) :
    k.NoDeadGates := by
  obtain ⟨images, hsize, hc⟩ := hs.wellFormed.copies_of_rehash hr
  exact hc.noDeadGates_of_isHashed hs.wellFormed hsize (hs.fullyHashed.isHashed hs.wellFormed)

/-- A second hashing repeats the nodes of the first exactly if that has left no dead gates. -/
theorem CopyState.rehash_nodes_eq_iff (hs : CopyState g h n) (hr : h.rehash = .ok k) :
    k.nodes = h.nodes ↔ h.NoDeadGates := by
  constructor
  · intro heq
    obtain ⟨images, -, hc⟩ := hs.wellFormed.copies_of_rehash hr
    exact (hs.noDeadGates_rehash hr).of_nodes_eq hc.state.wellFormed hs.wellFormed heq.symm
  · exact fun hd => nodes_eq_of_rehash hs.wellFormed hs.laidOut hs.fullyHashed hd hr

/-- Hashing drops the gates that are dead in the source. What it leaves are the images of gates that
were live, and such a gate is dead in the copy unless it stands for a gate that some output reaches
along gates of which none folds to a constant. A second hashing drops those as well, so it repeats
the nodes exactly if there are none, as after hashing a hashed graph; a third one always does. -/
theorem Built.rehash_dead_gates (hg : g.Built) : ∃ h k l images, g.rehash = .ok h ∧
    h.rehash = .ok k ∧ k.rehash = .ok l ∧ images.size = g.size ∧ g.Traced images h ∧
    (∀ (m : Nat) (c d : Edge), h.nodes[m]? = some (.gate c d) →
      (∃ id, g.OutputReaches id ∧ images[id]? = some (some (.plain m))) ∧
      (h.OutputReaches m ↔ ∃ id, g.Retains images id ∧ images[id]? = some (some (.plain m)))) ∧
    (k.nodes = h.nodes ↔ h.NoDeadGates) ∧ (g.isHashed = true → h.NoDeadGates) ∧
    k.NoDeadGates ∧ l.nodes = k.nodes := by
  have hg := hg.wellFormed
  obtain ⟨h, -, hr, -⟩ := rehash_eq_ok hg
  obtain ⟨images, hsize, hc⟩ := hg.copies_of_rehash hr
  obtain ⟨k, -, hr', -⟩ := rehash_eq_ok hc.state.wellFormed
  obtain ⟨_, -, hc'⟩ := hc.state.wellFormed.copies_of_rehash hr'
  obtain ⟨l, -, hr'', -⟩ := rehash_eq_ok hc'.state.wellFormed
  have ht := hc.traced hg
  have hclean := hc.state.noDeadGates_rehash hr'
  refine ⟨h, k, l, images, hr, hr', hr'', hsize, ht, fun m c d hm => ⟨?_, ?_⟩,
    hc.state.rehash_nodes_eq_iff hr', hc.noDeadGates_of_isHashed hg hsize, hclean,
    (hc'.state.rehash_nodes_eq_iff hr'').mpr hclean⟩
  · obtain ⟨id, a, b, hn, he⟩ := ht.origin hm
    exact ⟨id, hg.live_iff.mp (ht.live hn he), he⟩
  · exact hc.outputReaches_iff hg hm

def observed : Graph := ((Build.output ⟨3, false⟩ (some "y")).run conjoined).2

theorem Built.rehash_dead_gates_observed : observed.Built ∧ observed.isHashed = true ∧
    observed.numGates = 1 ∧ ∃ h k, observed.rehash = .ok h ∧ h.rehash = .ok k ∧ h.NoDeadGates ∧
      k.nodes = h.nodes := by
  have hbuilt : observed.BuiltByHashing := .output conjoined_builtByHashing _ _
  have hhashed : observed.isHashed = true := hbuilt.fullyHashed.isHashed hbuilt.built.wellFormed
  obtain ⟨h, k, -, -, hr, hr', -, -, -, -, hsame, hclean, -⟩ :=
    Built.rehash_dead_gates hbuilt.built
  exact ⟨hbuilt.built, hhashed, rfl, h, k, hr, hr', hclean hhashed, hsame.mpr (hclean hhashed)⟩

def severed : Graph :=
  ((Build.output ⟨4, false⟩ (some "y")).run
    ((Build.gate ⟨0, false⟩ ⟨3, false⟩).run
      ((Build.gate ⟨1, false⟩ ⟨2, false⟩).run twoInputs).2).2).2

theorem severed_built : severed.Built :=
  .output (.gate (.gate (.input (.input .empty _) _) _ _) _ _) _ _

/-- If the only output has been folded to a constant, no other node is retained. -/
theorem retains_severed (hfold : images[4]? = some (some (.constant false)))
    (hr : severed.Retains images id) : id = 4 := by
  induction hr with
  | @driver i o e ho hn =>
    have houtputs : severed.outputs = #[5] := rfl
    rw [houtputs, List.getElem?_toArray, List.getElem?_singleton] at ho
    split at ho
    · cases ho
      have hnode : severed.nodes[5]? = some (.output 0 ⟨4, false⟩) := rfl
      cases hnode.symm.trans hn
      rfl
    · cases ho
  | fanin _ _ hd hnot _ ih =>
    rw [ih, hfold] at hd
    cases hd
    exact absurd rfl hnot

/-- Hashing folds the output to false, and leaves the conjunction of the inputs dead. A second
hashing drops it. -/
theorem not_noDeadGates_rehash_severed : severed.Built ∧ ∃ h k, severed.rehash = .ok h ∧
    h.rehash = .ok k ∧ ¬ h.NoDeadGates ∧ k.nodes ≠ h.nodes := by
  have hg := severed_built.wellFormed
  obtain ⟨h, -, hr, -⟩ := rehash_eq_ok hg
  obtain ⟨images, hsize, hc⟩ := hg.copies_of_rehash hr
  have hs := hc.state
  have hh := hs.wellFormed
  have ht := hc.traced hg
  obtain ⟨k, -, hr', -⟩ := rehash_eq_ok hh
  have hlt {id : Nat} (h : id < 6) : id < images.size := hsize ▸ h
  have hinput {id i : Nat} (h : id < 6) (hn : severed.nodes[id]? = some (.input i)) :
      imageOf? images ⟨id, false⟩ = some ⟨i + 1, false⟩ :=
    imageOf?_of_image (ht.image_input hh hs.laidOut (hlt h) hn)
  obtain ⟨e, he, hfold | ⟨-, -, hm⟩⟩ := ht.image_gate (hlt (by decide : 3 < 6)) rfl
    (by decide) (hinput (by decide : 1 < 6) rfl) (hinput (by decide : 2 < 6) rfl)
  · cases hfold
  have hconstant : imageOf? images ⟨0, false⟩ = some (.constant false) :=
    imageOf?_of_image (ht.image_constant (hlt (by decide)) rfl)
  have hfalse : images[4]? = some (some (.constant false)) :=
    ht.image_of_false (hlt (by decide)) rfl (by decide) hconstant (imageOf?_of_image he)
  have hdead : ¬ h.NoDeadGates := by
    intro hd
    obtain ⟨id, hretains, himage⟩ := (hc.outputReaches_iff hg hm).mp (hd _ _ _ hm)
    rw [retains_severed hfalse hretains, hfalse] at himage
    exact hh.gate_ne_zero hm (congrArg Edge.node (Option.some.inj (Option.some.inj himage))).symm
  refine ⟨severed_built, h, k, hr, hr', hdead, fun heq => ?_⟩
  exact hdead ((hs.rehash_nodes_eq_iff hr').mp heq)

end AndInverter.Graph
