import AndInverter.Proofs.Graph.Copying

/-!
# What stands for a node in a hashed copy

Each node of a graph that has to be rebuilt has an image in the copy. The image of a gate is settled
by the images of its fanins: they fold to a constant or to one of them, or they are the fanins of a
gate of the copy. Every gate of the copy is the image of a live gate, and the outputs of the copy
are driven by the images of the drivers.
-/

namespace AndInverter

open AndInverter.Graph

/-- A conjunction that needs no gate is false, or it is one of its edges and the other edge is true
or the same. -/
theorem Build.trivial?_cases {a b e : Edge} (h : trivial? a b = some e) :
    e = .constant false ∨ a = .constant true ∧ e = b ∨ a = b ∧ e = a := by
  simp only [trivial?] at h
  split at h
  · exact .inl (Option.some.inj h).symm
  · split at h
    · rename_i ha
      exact .inr (.inl ⟨ha, (Option.some.inj h).symm⟩)
    · split at h
      · rename_i hab
        exact .inr (.inr ⟨hab, (Option.some.inj h).symm⟩)
      · cases h

theorem Build.trivial?_eq_none {a b : Edge} (ha : a.node ≠ 0) (hab : a.node ≠ b.node) :
    trivial? a b = none := by
  have hconstant (v : Bool) : a ≠ .constant v := fun h => ha (congrArg Edge.node h)
  have hcomplement : a ≠ b.complement := fun h => hab (congrArg Edge.node h :)
  have hne : a ≠ b := fun h => hab (congrArg Edge.node h)
  simp only [trivial?, hconstant, hcomplement, hne, or_self, if_false]

namespace Graph

variable {g h h' : Graph} {images : Array (Option Edge)} {a b c d e : Edge} {id i j k m : Nat}
  {n : Node} {image? last : Option Edge}

theorem imageOf?_eq_some_iff : imageOf? images e = some d ↔
    ∃ e', images[e.node]? = some (some e') ∧ e'.complementIf e.complemented = d := by
  rw [imageOf?, Option.map_eq_some_iff]
  simp only [Option.join_eq_some_iff]

theorem imageOf?_push (last : Option Edge) (he : imageOf? images e = some d) :
    imageOf? (images.push last) e = some d := by
  obtain ⟨e', he', hd⟩ := imageOf?_eq_some_iff.mp he
  exact imageOf?_eq_some_iff.mpr ⟨e', getElem?_push_iff.mpr (.inr he'), hd⟩

inductive Stands (g : Graph) (images : Array (Option Edge)) (h : Graph) (id : Nat) :
    Node → Option Edge → Prop where
  | constant : Stands g images h id .constant (some (.constant false))
  | input {i j : Nat} (hj : h.inputs[i]? = some j) :
    Stands g images h id (.input i) (some (.plain j))
  | dead {a b : Edge} (hdead : g.live[id]? ≠ some true) : Stands g images h id (.gate a b) none
  | folded {a b c d e : Edge} (hlive : g.live[id]? = some true)
    (ha : imageOf? images a = some c) (hb : imageOf? images b = some d)
    (he : Build.trivial? (Edge.sorted c d).1 (Edge.sorted c d).2 = some e) :
    Stands g images h id (.gate a b) (some e)
  | gate {a b c d : Edge} {m : Nat} (hlive : g.live[id]? = some true)
    (ha : imageOf? images a = some c) (hb : imageOf? images b = some d)
    (hnone : Build.trivial? (Edge.sorted c d).1 (Edge.sorted c d).2 = none)
    (hm : h.nodes[m]? = some (.gate (Edge.sorted c d).1 (Edge.sorted c d).2)) :
    Stands g images h id (.gate a b) (some (.plain m))
  | output {i : Nat} {e : Edge} : Stands g images h id (.output i e) none

theorem Stands.mono {images' : Array (Option Edge)} (hs : Stands g images h id n image?)
    (himages : ∀ e d, imageOf? images e = some d → imageOf? images' e = some d)
    (hext : h.Extends h') (hinputs : h'.inputs = h.inputs) :
    Stands g images' h' id n image? := by
  cases hs with
  | constant => exact .constant
  | input hj => exact .input (hinputs ▸ hj)
  | dead hdead => exact .dead hdead
  | folded hlive ha hb he => exact .folded hlive (himages _ _ ha) (himages _ _ hb) he
  | gate hlive ha hb hnone hm =>
    exact .gate hlive (himages _ _ ha) (himages _ _ hb) hnone (hext _ _ hm)
  | output => exact .output

/-- The image of a live gate is what the conjunction of the images of its fanins leads to. -/
theorem Stands.of_conjoins (hlive : g.live[id]? = some true) (ha : imageOf? images a = some c)
    (hb : imageOf? images b = some d) (hh : h.WellFormed)
    (hc : Build.Conjoins h (Edge.sorted c d) e h') :
    Stands g images h' id (.gate a b) (some e) := by
  cases hc with
  | trivial ht => exact .folded hlive ha hb ht
  | found hnone hhashed => exact .gate hlive ha hb hnone (hh.hashed_gate hhashed).1
  | added hnone =>
    refine .gate hlive ha hb hnone ?_
    simp [push, Graph.size]

/-- Every node that has been worked through has come by its image, and every gate of the copy is the
image of a gate. -/
structure Traced (g : Graph) (images : Array (Option Edge)) (h : Graph) : Prop where
  stands {id : Nat} {image? : Option Edge} : images[id]? = some image? →
    ∃ n, g.nodes[id]? = some n ∧ Stands g images h id n image?
  origin {m : Nat} {c d : Edge} : h.nodes[m]? = some (.gate c d) →
    ∃ (id : Nat) (a b : Edge), g.nodes[id]? = some (.gate a b) ∧
      images[id]? = some (some (.plain m))

namespace Traced

theorem stands_of_node (ht : g.Traced images h) (hn : g.nodes[id]? = some n)
    (hi : images[id]? = some image?) : Stands g images h id n image? := by
  obtain ⟨n', hn', hs⟩ := ht.stands hi
  rw [hn] at hn'
  cases hn'
  exact hs

theorem image_constant (ht : g.Traced images h) (hlt : id < images.size)
    (hn : g.nodes[id]? = some .constant) : images[id]? = some (some (.constant false)) := by
  have himage := Array.getElem?_eq_getElem hlt
  have hs := ht.stands_of_node hn himage
  generalize images[id] = image? at hs himage
  cases hs with
  | constant => exact himage

theorem image_input (ht : g.Traced images h) (hh : h.WellFormed) (hl : h.LaidOut)
    (hlt : id < images.size) (hn : g.nodes[id]? = some (.input i)) :
    images[id]? = some (some (.plain (i + 1))) := by
  have himage := Array.getElem?_eq_getElem hlt
  have hs := ht.stands_of_node hn himage
  generalize images[id] = image? at hs himage
  cases hs with
  | input hj =>
    rw [hl.input_node (hh.input_iff.mp hj)] at himage
    exact himage

theorem push (ht : g.Traced images h) (hn : g.nodes[images.size]? = some n)
    (hext : h.Extends h') (hinputs : h'.inputs = h.inputs)
    (hs : Stands g images h' images.size n last)
    (hnew : ∀ m c d, h'.nodes[m]? = some (.gate c d) → h.nodes[m]? = some (.gate c d) ∨
      n.isGate = true ∧ last = some (.plain m)) : g.Traced (images.push last) h' where
  stands {id image?} hid := by
    rcases getElem?_push_iff.mp hid with ⟨rfl, rfl⟩ | hid
    · exact ⟨n, hn, hs.mono (fun _ _ => imageOf?_push _) (.refl h') rfl⟩
    · obtain ⟨n', hn', hs'⟩ := ht.stands hid
      exact ⟨n', hn', hs'.mono (fun _ _ => imageOf?_push _) hext hinputs⟩
  origin {m c d} hm := by
    rcases hnew m c d hm with hm | ⟨hgate, rfl⟩
    · obtain ⟨id, a, b, hid, himage⟩ := ht.origin hm
      exact ⟨id, a, b, hid, getElem?_push_iff.mpr (.inr himage)⟩
    · cases n with
      | gate a b => exact ⟨_, a, b, hn, Array.getElem?_push_size⟩
      | constant => cases hgate
      | input i => cases hgate
      | output i e => cases hgate

/-- A node that needs no new gate only adds its image. -/
theorem push_same (ht : g.Traced images h) (hn : g.nodes[images.size]? = some n)
    (hs : Stands g images h images.size n last) : g.Traced (images.push last) h :=
  ht.push hn (.refl h) rfl hs fun _ _ _ => .inl

theorem conjoins (ht : g.Traced images h) (hh : h.WellFormed)
    (hn : g.nodes[images.size]? = some (.gate a b)) (hlive : g.live[images.size]? = some true)
    (ha : imageOf? images a = some c) (hb : imageOf? images b = some d)
    (hc : Build.Conjoins h (Edge.sorted c d) e h') : g.Traced (images.push (some e)) h' := by
  refine ht.push hn hc.extends hc.sameTerminals.inputs_eq (.of_conjoins hlive ha hb hh hc) ?_
  intro m c' d' hm
  cases hc with
  | trivial => exact .inl hm
  | found => exact .inl hm
  | added =>
    rcases getElem?_push_iff.mp hm with ⟨rfl, -⟩ | hm
    · exact .inr ⟨rfl, rfl⟩
    · exact .inl hm

theorem withOutput (ht : g.Traced images h) (d : Edge) (name : String) :
    g.Traced images (h.withOutput d name).2 where
  stands {id image?} hid := by
    obtain ⟨n, hn, hs⟩ := ht.stands hid
    exact ⟨n, hn, hs.mono (fun _ _ he => he)
      (extends_of_push (m := .output h.numOutputs d) rfl) rfl⟩
  origin {m c e} hm := by
    rcases getElem?_push_iff.mp hm with ⟨-, hm⟩ | hm
    · cases hm
    · exact ht.origin hm

end Traced

theorem traced_ofInputs (g : Graph) (names : List String) : g.Traced #[] (ofInputs names) where
  stands hid := by simp at hid
  origin {m c d} hm := by
    rcases (inputsAlone_ofInputs names).node_eq hm with h | ⟨i, h, -⟩
    · cases h
    · cases h

theorem Copies.traced (hg : g.WellFormed) (hc : g.Copies images k h) : g.Traced images h := by
  induction hc with
  | inputs => exact traced_ofInputs g _
  | constant _ hn ih => exact ih.push_same hn .constant
  | @input images h hc i hn ih =>
    have hlt : i < h.inputs.size :=
      Nat.lt_of_lt_of_eq (hg.index_lt_numInputs hn) (hc.state.numInputs_eq hg).symm
    refine ih.push_same hn ?_
    rw [Array.getElem?_eq_getElem hlt]
    exact .input (Array.getElem?_eq_getElem hlt)
  | dead _ hn hdead ih => exact ih.push_same hn (.dead hdead)
  | gate hc hn hlive ha hb he ih => exact ih.conjoins hc.state.wellFormed hn hlive ha hb he
  | outputNode _ hn ih => exact ih.push_same hn .output
  | output _ _ _ _ _ _ name ih => exact ih.withOutput _ name

/-- The outputs of a copy are driven by the images of the drivers. -/
theorem Copies.driver_image (hc : g.Copies images k h) {o : Nat} (ho : h.outputs[i]? = some o) :
    ∃ (p : Nat) (e d : Edge), g.outputs[i]? = some p ∧ g.nodes[p]? = some (.output i e) ∧
      imageOf? images e = some d ∧ h.nodes[o]? = some (.output i d) := by
  have hnone {images : Array (Option Edge)} {h : Graph} (hc : g.Copies images 0 h)
      (ho : h.outputs[i]? = some o) : False := by
    have hlt := (Array.getElem?_eq_some_iff.mp ho).1
    have hzero := hc.state.numOutputs_eq
    exact absurd (hzero ▸ hlt : i < 0) (Nat.not_lt_zero i)
  induction hc with
  | inputs => exact (hnone .inputs ho).elim
  | constant hc hn => exact (hnone (hc.constant hn) ho).elim
  | input hc hn => exact (hnone (hc.input hn) ho).elim
  | dead hc hn hdead => exact (hnone (hc.dead hn hdead) ho).elim
  | gate hc hn hlive ha hb he => exact (hnone (hc.gate hn hlive ha hb he) ho).elim
  | outputNode hc hn => exact (hnone (hc.outputNode hn) ho).elim
  | @output images k h hc hsize p hp e d hn he hd name ih =>
    have hk : h.outputs.size = k := hc.state.numOutputs_eq
    rcases getElem?_push_iff.mp ho with ⟨rfl, rfl⟩ | ho
    · refine ⟨p, e, d, hk ▸ hp, hk ▸ hn, he, ?_⟩
      exact Array.getElem?_push_size
    · obtain ⟨p, e, d', hp, hn, he, hd'⟩ := ih ho
      exact ⟨p, e, d', hp, hn, he, nodes_push_of_eq hd' _⟩

end Graph

end AndInverter
