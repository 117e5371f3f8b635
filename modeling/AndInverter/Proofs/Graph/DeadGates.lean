import AndInverter.Proofs.Graph.Tracing

/-!
# Dead gates of hashed copies

A gate is dead if no output reaches it along fanins. Only live gates are rebuilt, but a gate that
folds to a constant cuts off what has been rebuilt for its fanins. A gate of the copy is live
exactly if it stands for a gate that some output reaches along gates of which none folds to a
constant.
-/

namespace AndInverter

namespace Graph

variable {g h : Graph} {images : Array (Option Edge)} {a b c d e f : Edge} {id i k m : Nat}
  {n : Node}

def OutputReaches (g : Graph) (id : Nat) : Prop :=
  ∃ i o : Nat, g.outputs[i]? = some o ∧ g.Reaches o id

def NoDeadGates (g : Graph) : Prop :=
  ∀ (id : Nat) (a b : Edge), g.nodes[id]? = some (.gate a b) → g.OutputReaches id

theorem Reaches.fanin_node {o : Nat} (hr : g.Reaches o id) (hn : g.nodes[id]? = some n)
    (he : e ∈ n.fanins) : g.Reaches o e.node :=
  hr.fanin (mem_faninNodes.mpr ⟨n, hn, e, he, rfl⟩)

theorem OutputReaches.fanin (hr : g.OutputReaches id) (hn : g.nodes[id]? = some n)
    (he : e ∈ n.fanins) : g.OutputReaches e.node := by
  obtain ⟨i, o, ho, hreaches⟩ := hr
  exact ⟨i, o, ho, hreaches.fanin_node hn he⟩

theorem WellFormed.live_iff (hg : g.WellFormed) :
    g.live[id]? = some true ↔ g.OutputReaches id := by
  constructor
  · refine of_reachable (P := g.OutputReaches) (fun i hi j hj => ?_) fun r hr => ?_
    · obtain ⟨n, hn, e, he, rfl⟩ := mem_faninNodes.mp hj
      exact hi.fanin hn he
    · obtain ⟨i, hi⟩ := List.getElem?_of_mem hr
      exact ⟨i, r, by rwa [← Array.getElem?_toList], .root⟩
  · rintro ⟨i, o, ho, hreaches⟩
    induction hreaches with
    | root => exact hg.live_output ho
    | fanin _ hi ih => exact reachable_closed (fun _ _ h => hg.faninNodes_lt h) ih _ hi

/-- What holds of the driver of an output, and of the fanins of a gate of which it holds, holds of
every node below the output. -/
theorem WellFormed.reaches_induction (hg : g.WellFormed) {o : Nat} {P : Nat → Prop}
    (ho : g.nodes[o]? = some (.output i d)) (hdriver : P d.node)
    (hfanin : ∀ id a b e, P id → g.nodes[id]? = some (.gate a b) → e ∈ (Node.gate a b).fanins →
      P e.node) (hr : g.Reaches o id) : id = o ∨ P id := by
  -- Below the output there are no other outputs.
  have hstrong : id = o ∨ g.Drives (.plain id) ∧ P id := by
    induction hr with
    | root => exact .inl rfl
    | fanin hr hi ih =>
      obtain ⟨n, hn, e, he, rfl⟩ := mem_faninNodes.mp hi
      have hdrives : g.Drives e := hg.drives_fanin hn he
      refine .inr ⟨hdrives, ?_⟩
      rcases ih with rfl | ⟨⟨n', hn', hout⟩, hP⟩
      · rw [ho] at hn
        cases hn
        rw [List.mem_singleton.mp he]
        exact hdriver
      · rw [Edge.plain, hn] at hn'
        cases hn'
        cases n with
        | constant => cases he
        | input j => cases he
        | output j f => cases hout
        | gate a b => exact hfanin _ a b e hP hn he
  exact hstrong.imp_right And.right

/-- The nodes that some output reaches along gates that do not fold to a constant. -/
inductive Retains (g : Graph) (images : Array (Option Edge)) : Nat → Prop where
  | driver {i o : Nat} {e : Edge} (ho : g.outputs[i]? = some o)
    (hn : g.nodes[o]? = some (.output i e)) : Retains g images e.node
  | fanin {id : Nat} {a b d e : Edge} (hr : Retains g images id)
    (hn : g.nodes[id]? = some (.gate a b)) (hd : images[id]? = some (some d))
    (hnot : d.node ≠ 0) (he : e ∈ (Node.gate a b).fanins) : Retains g images e.node

/-- A conjunction that folds, but not to a constant, is one of its edges. The other edge is the same
or a constant. -/
theorem folded_cases
    (h : Build.trivial? (Edge.sorted c d).1 (Edge.sorted c d).2 = some e) (hnot : e.node ≠ 0) :
    (e = c ∨ e = d) ∧ ∀ f, f = c ∨ f = d → f.node = 0 ∨ f.node = e.node := by
  rcases Build.trivial?_cases h with rfl | ⟨htrue, rfl⟩ | ⟨hsame, rfl⟩
  · exact absurd rfl hnot
  · refine ⟨Edge.mem_sorted.mp (.inr rfl), fun f hf => ?_⟩
    rcases Edge.mem_sorted.mpr hf with rfl | rfl
    · exact .inl (congrArg Edge.node htrue)
    · exact .inr rfl
  · refine ⟨Edge.mem_sorted.mp (.inl rfl), fun f hf => .inr ?_⟩
    rcases Edge.mem_sorted.mpr hf with rfl | rfl
    · rfl
    · rw [← hsame]

theorem WellFormed.gate_ne_zero (hg : g.WellFormed) (hn : g.nodes[id]? = some (.gate a b)) :
    id ≠ 0 := by
  rintro rfl
  rw [hg.constant_iff.mpr rfl] at hn
  cases hn

theorem imageOf?_of_image (he : images[a.node]? = some (some e)) :
    imageOf? images a = some (e.complementIf a.complemented) :=
  imageOf?_eq_some_iff.mpr ⟨e, he, rfl⟩

theorem exists_image_of_imageOf? (hc : imageOf? images a = some c) :
    ∃ e, images[a.node]? = some (some e) ∧ e.node = c.node := by
  obtain ⟨e, he, rfl⟩ := imageOf?_eq_some_iff.mp hc
  exact ⟨e, he, rfl⟩

/-- A gate that folds, but not to a constant, has its image in common with a fanin. -/
theorem exists_fanin_of_folded (ha : imageOf? images a = some c) (hb : imageOf? images b = some d)
    (hfold : Build.trivial? (Edge.sorted c d).1 (Edge.sorted c d).2 = some e)
    (hnot : e.node ≠ 0) : ∃ f e', f ∈ (Node.gate a b).fanins ∧
      images[f.node]? = some (some e') ∧ e'.node = e.node := by
  rcases (folded_cases hfold hnot).1 with rfl | rfl
  · obtain ⟨e', he', hnode⟩ := exists_image_of_imageOf? ha
    exact ⟨a, e', by simp, he', hnode⟩
  · obtain ⟨e', he', hnode⟩ := exists_image_of_imageOf? hb
    exact ⟨b, e', by simp, he', hnode⟩

/-- The image of a retained node is a constant or is reached by an output of the copy. -/
theorem Copies.outputReaches_of_retains (hg : g.WellFormed)
    (hc : g.Copies images g.numOutputs h) (hr : g.Retains images id)
    (he : images[id]? = some (some e)) : e.node = 0 ∨ h.OutputReaches e.node := by
  have ht := hc.traced hg
  induction hr generalizing e with
  | @driver i o e' ho hn =>
    have hlt : i < h.outputs.size :=
      Nat.lt_of_lt_of_eq (Array.getElem?_eq_some_iff.mp ho).1 hc.state.numOutputs_eq.symm
    have ho' := Array.getElem?_eq_getElem hlt
    obtain ⟨p, e'', d, hp, hn', hd, hnode⟩ := hc.driver_image ho'
    rw [ho] at hp
    cases hp
    rw [hn] at hn'
    cases hn'
    rw [imageOf?_of_image he] at hd
    cases hd
    have hdriver : h.Reaches h.outputs[i] (e.complementIf e'.complemented).node :=
      Reaches.root.fanin_node hnode (by simp)
    exact .inr ⟨i, _, ho', hdriver⟩
  | @fanin id a b d e' hr hn hd hnot he' ih =>
    have hreach := (ih hd).resolve_left hnot
    have hs := ht.stands_of_node hn hd
    -- The image of the fanin is an edge of the conjunction that the image of the gate comes from.
    have himage {c c' : Edge} (ha : imageOf? images a = some c) (hb : imageOf? images b = some c') :
        ∃ f, (f = c ∨ f = c') ∧ f.node = e.node := by
      have hf := imageOf?_of_image he
      rcases Node.mem_fanins_gate.mp he' with rfl | rfl
      · exact ⟨c, .inl rfl, by rw [ha] at hf; cases hf; rfl⟩
      · exact ⟨c', .inr rfl, by rw [hb] at hf; cases hf; rfl⟩
    cases hs with
    | folded hlive ha hb hfold =>
      obtain ⟨f, hf, hnode⟩ := himage ha hb
      rw [← hnode]
      rcases (folded_cases hfold hnot).2 f hf with hzero | heq
      · exact .inl hzero
      · exact .inr (heq ▸ hreach)
    | gate hlive ha hb hnone hm =>
      obtain ⟨f, hf, hnode⟩ := himage ha hb
      rw [← hnode]
      exact .inr (hreach.fanin hm (Node.mem_fanins_gate.mpr (Edge.mem_sorted.mpr hf)))

/-- Where a gate of the copy stands for a retained node, it also stands for a retained gate whose
fanins have its fanins as their images. -/
theorem Traced.exists_retained_gate (ht : g.Traced images h) (hg : g.WellFormed)
    (hh : h.WellFormed) (hr : g.Retains images id) (he : images[id]? = some (some e))
    (hm : h.nodes[e.node]? = some (.gate c d)) :
    ∃ (j : Nat) (a b c' d' : Edge), g.Retains images j ∧ g.nodes[j]? = some (.gate a b) ∧
      images[j]? = some (some (.plain e.node)) ∧ imageOf? images a = some c' ∧
      imageOf? images b = some d' ∧ Edge.sorted c' d' = (c, d) := by
  induction id using Nat.strongRecOn generalizing e with
  | ind id ih =>
    obtain ⟨n, hn, hs⟩ := ht.stands he
    cases hs with
    | constant => exact absurd rfl (hh.gate_ne_zero hm)
    | input hj =>
      rw [Edge.plain, hh.input_iff.mp hj] at hm
      cases hm
    | @gate a b c' d' m hlive ha hb hnone hm' =>
      rw [Edge.plain, hm'] at hm
      cases hm
      exact ⟨id, a, b, c', d', hr, hn, he, ha, hb, rfl⟩
    | @folded a b c' d' e hlive ha hb hfold =>
      have hnot := hh.gate_ne_zero hm
      -- The image is that of a fanin, which is retained too.
      obtain ⟨f, e', hf, he', hnode⟩ := exists_fanin_of_folded ha hb hfold hnot
      rw [← hnode] at hm ⊢
      exact ih f.node (hg.fanin_lt hn hf) (hr.fanin hn he hnot hf) he' hm

/-- What an output of the copy reaches stands for retained nodes. -/
theorem Copies.exists_retained (hg : g.WellFormed) (hc : g.Copies images g.numOutputs h)
    {o : Nat} (ho : h.outputs[i]? = some o) (hr : h.Reaches o m) :
    m = o ∨ ∃ id e, g.Retains images id ∧ images[id]? = some (some e) ∧ e.node = m := by
  have hh := hc.state.wellFormed
  obtain ⟨p, e, d, hp, hdriver, hd, hnode⟩ := hc.driver_image ho
  refine hh.reaches_induction (P := fun m => ∃ id e, g.Retains images id ∧
    images[id]? = some (some e) ∧ e.node = m) hnode ?_ ?_ hr
  · obtain ⟨e', he', heq⟩ := exists_image_of_imageOf? hd
    exact ⟨e.node, e', .driver hp hdriver, he', heq⟩
  · rintro - c d f ⟨id, e, hretains, he, rfl⟩ hn hf
    obtain ⟨j, a, b, c', d', hj, hgate, himage, ha, hb, hsorted⟩ :=
      (hc.traced hg).exists_retained_gate hg hh hretains he hn
    have hnot : (Edge.plain e.node).node ≠ 0 := hh.gate_ne_zero hn
    have hmem : f = c' ∨ f = d' := by
      rw [← Edge.mem_sorted, hsorted]
      exact Node.mem_fanins_gate.mp hf
    have hfanin : ∃ f', f' ∈ (Node.gate a b).fanins ∧ imageOf? images f' = some f := by
      rcases hmem with rfl | rfl
      · exact ⟨a, by simp, ha⟩
      · exact ⟨b, by simp, hb⟩
    obtain ⟨f', hf', hf⟩ := hfanin
    obtain ⟨e', he', heq⟩ := exists_image_of_imageOf? hf
    exact ⟨f'.node, e', hj.fanin hgate himage hnot hf', he', heq⟩

/-- A gate of the copy is live exactly if it stands for a retained gate. -/
theorem Copies.outputReaches_iff (hg : g.WellFormed) (hc : g.Copies images g.numOutputs h)
    (hm : h.nodes[m]? = some (.gate c d)) : h.OutputReaches m ↔
      ∃ id, g.Retains images id ∧ images[id]? = some (some (.plain m)) := by
  have hh := hc.state.wellFormed
  constructor
  · rintro ⟨i, o, ho, hr⟩
    rcases hc.exists_retained hg ho hr with rfl | ⟨id, e, hretains, he, rfl⟩
    · obtain ⟨e, hn⟩ := hh.output_iff.mp ho
      rw [hn] at hm
      cases hm
    · obtain ⟨j, -, -, -, -, hj, -, himage, -⟩ :=
        (hc.traced hg).exists_retained_gate hg hh hretains he hm
      exact ⟨j, hj, himage⟩
  · rintro ⟨id, hr, he⟩
    exact (hc.outputReaches_of_retains hg hr he).resolve_left (hh.gate_ne_zero hm)

/-- The live gates among the nodes that have been worked through have images. -/
theorem Traced.exists_image (ht : g.Traced images h) (hn : g.nodes[id]? = some (.gate a b))
    (hlt : id < images.size) (hlive : g.live[id]? = some true) :
    ∃ e, images[id]? = some (some e) := by
  have himage := Array.getElem?_eq_getElem hlt
  have hs := ht.stands_of_node hn himage
  cases hi : images[id] with
  | some e => exact ⟨e, hi ▸ himage⟩
  | none =>
    rw [hi] at hs
    cases hs with
    | dead hdead => exact absurd hlive hdead

/-- A live gate has the image that its fanins fold to, or its image is a gate on their images. -/
theorem Traced.image_gate (ht : g.Traced images h) (hlt : id < images.size)
    (hn : g.nodes[id]? = some (.gate a b)) (hlive : g.live[id]? = some true)
    (ha : imageOf? images a = some c) (hb : imageOf? images b = some d) :
    ∃ e, images[id]? = some (some e) ∧
      (Build.trivial? (Edge.sorted c d).1 (Edge.sorted c d).2 = some e ∨
        Build.trivial? (Edge.sorted c d).1 (Edge.sorted c d).2 = none ∧ e = .plain e.node ∧
        h.nodes[e.node]? = some (.gate (Edge.sorted c d).1 (Edge.sorted c d).2)) := by
  obtain ⟨e, he⟩ := ht.exists_image hn hlt hlive
  have hs := ht.stands_of_node hn he
  refine ⟨e, he, ?_⟩
  cases hs with
  | folded _ ha' hb' he =>
    cases ha.symm.trans ha'
    cases hb.symm.trans hb'
    exact .inl he
  | gate _ ha' hb' hnone hm =>
    cases ha.symm.trans ha'
    cases hb.symm.trans hb'
    exact .inr ⟨hnone, rfl, hm⟩

theorem Traced.image_of_false (ht : g.Traced images h) (hlt : id < images.size)
    (hn : g.nodes[id]? = some (.gate a b)) (hlive : g.live[id]? = some true)
    (ha : imageOf? images a = some (.constant false)) (hb : imageOf? images b = some d) :
    images[id]? = some (some (.constant false)) := by
  have hfold : Build.trivial? (.constant false) d = some (.constant false) := if_pos (.inl rfl)
  obtain ⟨e, he, h⟩ := ht.image_gate hlt hn hlive ha hb
  rw [sorted_eq_of_le (Nat.zero_le _), hfold] at h
  rcases h with h | ⟨h, -⟩
  · cases h
    exact he
  · cases h

theorem Traced.live (ht : g.Traced images h) (hn : g.nodes[id]? = some (.gate a b))
    (he : images[id]? = some (some e)) : g.live[id]? = some true := by
  have hs := ht.stands_of_node hn he
  cases hs with
  | folded hlive => exact hlive
  | gate hlive => exact hlive

/-- If no gate folds to a constant, all live gates are retained. -/
theorem Traced.retains (ht : g.Traced images h) (hg : g.WellFormed) (hsize : images.size = g.size)
    (hnot : ∀ (id : Nat) (a b e : Edge), g.nodes[id]? = some (.gate a b) →
      images[id]? = some (some e) → e.node ≠ 0)
    (hn : g.nodes[id]? = some (.gate a b)) (hr : g.OutputReaches id) :
    g.Retains images id := by
  obtain ⟨i, o, ho, hr⟩ := hr
  obtain ⟨f, hf⟩ := hg.output_iff.mp ho
  have hdriver : g.OutputReaches f.node := ⟨i, o, ho, Reaches.root.fanin_node hf (by simp)⟩
  have hcases := hg.reaches_induction (P := fun id => g.OutputReaches id ∧ g.Retains images id)
    hf ⟨hdriver, .driver ho hf⟩ (fun id a b e hP hn he => by
      have hlt : id < images.size := hsize ▸ lt_size_of_nodes_eq hn
      obtain ⟨d, hd⟩ := ht.exists_image hn hlt (hg.live_iff.mpr hP.1)
      exact ⟨hP.1.fanin hn he, hP.2.fanin hn hd (hnot id a b d hn hd) he⟩) hr
  rcases hcases with rfl | ⟨-, hretains⟩
  · rw [hn] at hf
    cases hf
  · exact hretains

theorem Copies.noDeadGates (hg : g.WellFormed) (hc : g.Copies images g.numOutputs h)
    (hsize : images.size = g.size) (hnot : ∀ (id : Nat) (a b e : Edge),
      g.nodes[id]? = some (.gate a b) → images[id]? = some (some e) → e.node ≠ 0) :
    h.NoDeadGates := by
  intro m c d hm
  have ht := hc.traced hg
  obtain ⟨id, a, b, hn, he⟩ := ht.origin hm
  have hretains := ht.retains hg hsize hnot hn (hg.live_iff.mp (ht.live hn he))
  exact (hc.outputReaches_iff hg hm).mpr ⟨id, hretains, he⟩

end Graph

end AndInverter
