import AndInverter.Proofs.Graph.Cone
import AndInverter.Proofs.Graph.Hashing
import AndInverter.Proofs.Graph.Simulation

/-!
# Hashing preserves the function

A graph is rebuilt from its inputs up. Every node that the outputs need gets an image of the same
value, so no fanin is missed, and the outputs of the copy have the values of the original ones. The
invariants follow the parts of the copy: `HasInputs`, `HasGates` after each node, `HasOutputs` after
each output.
-/

namespace AndInverter.Graph

variable {g h h' : Graph} {images : Array (Option Edge)} {inputs : Array Edge} {e : Edge}
  {id i : Nat} {n : Node} {image? : Option Edge}

/-- The nodes that have to be rebuilt: the constant, the inputs, and the live gates. -/
def Needed (g : Graph) (id : Nat) : Prop :=
  ∃ n, g.nodes[id]? = some n ∧ n.isOutput = false ∧ (n.isGate = true → g.live[id]? = some true)

theorem WellFormed.live_output (hg : g.WellFormed) (h : g.outputs[i]? = some id) :
    g.live[id]? = some true :=
  reachable_root (List.mem_of_getElem? (by rwa [Array.getElem?_toList])) (hg.output_lt h)

theorem WellFormed.needed_fanin (hg : g.WellFormed) (hlive : g.live[id]? = some true)
    (hn : g.nodes[id]? = some n) (he : e ∈ n.fanins) : g.Needed e.node := by
  obtain ⟨m, hm, hout⟩ := hg.drives_fanin hn he
  have hfanin : e.node ∈ g.faninNodes id := mem_faninNodes.mpr ⟨n, hn, e, he, rfl⟩
  exact ⟨m, hm, hout, fun _ => reachable_closed (fun _ _ h => hg.faninNodes_lt h) hlive _ hfanin⟩

structure IsImage (g h : Graph) (id : Nat) (e : Edge) : Prop where
  drives : h.Drives e
  edgeValueOf_eq (x : Nat → Bool) : h.edgeValueOf x e = g.valueOf x id

theorem IsImage.extend (he : g.IsImage h id e) (hext : h.Extends h') (hh : h.WellFormed)
    (hh' : h'.WellFormed) : g.IsImage h' id e where
  drives := hext.drives he.drives
  edgeValueOf_eq x := (hext.edgeValueOf_eq hh hh' he.drives).trans (he.edgeValueOf_eq x)

structure Images (g h : Graph) (images : Array (Option Edge)) : Prop where
  isImage {id : Nat} {e : Edge} : images[id]? = some (some e) → g.IsImage h id e
  exists_image {id : Nat} : id < images.size → g.Needed id → ∃ e, images[id]? = some (some e)

namespace Images

theorem empty (g h : Graph) : g.Images h #[] where
  isImage h := by simp at h
  exists_image h := absurd h (Nat.not_lt_zero _)

theorem extend (hi : g.Images h images) (hext : h.Extends h') (hh : h.WellFormed)
    (hh' : h'.WellFormed) : g.Images h' images where
  isImage he := (hi.isImage he).extend hext hh hh'
  exists_image := hi.exists_image

theorem push (hi : g.Images h images) (himage : ∀ e, image? = some e → g.IsImage h images.size e)
    (hneed : g.Needed images.size → image?.isSome = true) : g.Images h (images.push image?) where
  isImage {id e} he := by
    rcases getElem?_push_iff.mp he with ⟨rfl, rfl⟩ | he
    · exact himage e rfl
    · exact hi.isImage he
  exists_image {id} hlt hid := by
    rw [Array.size_push] at hlt
    by_cases hlast : id = images.size
    · subst hlast
      obtain ⟨e, rfl⟩ := Option.isSome_iff_exists.mp (hneed hid)
      exact ⟨e, Array.getElem?_push_size⟩
    · obtain ⟨e, he⟩ := hi.exists_image (by omega) hid
      exact ⟨e, getElem?_push_iff.mpr (.inr he)⟩

theorem ensures_image (hi : g.Images h images) (hlt : e.node < images.size)
    (hneed : g.Needed e.node) :
    Ensures (image images e) h (fun d h' => h' = h ∧ h.Drives d ∧
      ∀ x, h.edgeValueOf x d = g.edgeValueOf x e) fun _ _ => False := by
  obtain ⟨d, hd⟩ := hi.exists_image hlt hneed
  obtain ⟨hdrives, hvalue⟩ := hi.isImage hd
  rw [image, hd]
  refine Ensures.result ⟨rfl, hdrives, fun x => ?_⟩
  rw [edgeValueOf_complementIf, hvalue, edgeValueOf]

end Images

structure Begun (g h : Graph) : Prop where
  wellFormed : h.WellFormed
  fullyHashed : h.FullyHashed
  inputNames_eq : h.inputNames = g.inputNames
  outputs_eq : h.outputs = #[]
  outputNames_eq : h.outputNames = #[]

structure HasInputs (g h : Graph) (inputs : Array Edge) : Prop extends g.Begun h where
  inputs_eq : inputs = h.inputs.map .plain

theorem ensures_inputs (g : Graph) :
    Ensures (g.inputNames.mapM fun name => Build.input (some name)) empty
      (fun inputs h => g.HasInputs h inputs) fun _ _ => False := by
  let Q (inputs : Array Edge) (rest : List String) (h : Graph) : Prop :=
    h.WellFormed ∧ h.FullyHashed ∧ h.inputNames.toList ++ rest = g.inputNames.toList ∧
      h.outputs = #[] ∧ h.outputNames = #[] ∧ inputs = h.inputs.map .plain
  have hstart : Q #[] g.inputNames.toList empty :=
    ⟨empty_wellFormed, fullyHashed_empty, rfl, rfl, rfl, Array.map_empty.symm⟩
  rw [Array.mapM_eq_foldlM, ← Array.foldlM_toList]
  refine (Ensures.foldlM (P := Q) ?_ hstart).mono ?_ fun _ _ h => h
  · rintro inputs name rest h - ⟨hh, hhashed, hnames, houts, houtNames, rfl⟩
    rw [map_eq_pure_bind]
    refine Ensures.bindUpdateGet rfl (Ensures.result ⟨hh.withInput _, ?_, ?_, houts, houtNames, ?_⟩)
    · exact hhashed.push (m := .input h.numInputs) rfl rfl rfl
    · change (h.inputNames.push name).toList ++ rest = _
      rw [Array.toList_push, List.append_assoc]
      exact hnames
    · exact Array.map_push.symm
  · rintro inputs h ⟨hh, hhashed, hnames, houts, houtNames, hinputs⟩
    rw [List.append_nil] at hnames
    exact ⟨⟨hh, hhashed, Array.toList_inj.mp hnames, houts, houtNames⟩, hinputs⟩

theorem HasInputs.isImage (hi : g.HasInputs h inputs) (hn : g.nodes[id]? = some (.input i))
    (he : inputs[i]? = some e) : g.IsImage h id e := by
  rw [hi.inputs_eq, Array.getElem?_map, Option.map_eq_some_iff] at he
  obtain ⟨j, hj, rfl⟩ := he
  have hnode := hi.wellFormed.input_iff.mp hj
  refine ⟨⟨_, hnode, rfl⟩, fun x => ?_⟩
  rw [edgeValueOf_plain, valueOf_input hnode, valueOf_input hn]

theorem HasInputs.isSome (hi : g.HasInputs h inputs) (hg : g.WellFormed)
    (hn : g.nodes[id]? = some (.input i)) : inputs[i]?.isSome = true := by
  have hlt : i < g.inputs.size := (Array.getElem?_eq_some_iff.mp (hg.input_iff.mpr hn)).1
  have hsize : inputs.size = g.inputs.size := by
    rw [hi.inputs_eq, Array.size_map, ← hi.wellFormed.size_inputNames, hi.inputNames_eq,
      hg.size_inputNames]
  rw [Array.getElem?_eq_getElem (by omega)]
  rfl

def rehashNode (g : Graph) (inputs : Array Edge) (earlier : Array (Option Edge)) :
    Node → Build (Option Edge)
  | .constant => return some (.constant false)
  | .input i => return inputs[i]?
  | .gate a b =>
    if g.live[earlier.size]? = some true then
      return some (← Build.and (← image earlier a) (← image earlier b))
    else return none
  | .output .. => return none

theorem rehashInto_eq (g : Graph) : g.rehashInto = (do
    let inputs ← g.inputNames.mapM fun name => Build.input (some name)
    let images ← g.scanM (g.rehashNode inputs)
    for (id, name) in g.outputs.zip g.outputNames do
      if let some (.output _ e) := g.nodes[id]? then
        discard <| Build.output (← image images e) (some name)) :=
  rfl

structure HasGates (g h : Graph) (images : Array (Option Edge)) : Prop extends g.Begun h where
  images : g.Images h images

theorem HasGates.ensures_and {a b : Edge} (hh : g.HasGates h images) (hg : g.WellFormed)
    (hn : g.nodes[images.size]? = some (.gate a b)) (hlive : g.live[images.size]? = some true) :
    Ensures (do return some (← Build.and (← image images a) (← image images b))) h
      (fun image? h' => ∃ e, image? = some e ∧ h.Extends h' ∧ g.IsImage h' images.size e ∧
        g.HasGates h' images) fun _ _ => False := by
  have ha := hg.fanin_lt hn (e := a) (by simp)
  have hb := hg.fanin_lt hn (e := b) (by simp)
  have hneeda := hg.needed_fanin hlive hn (e := a) (by simp)
  have hneedb := hg.needed_fanin hlive hn (e := b) (by simp)
  refine (hh.images.ensures_image ha hneeda).bind ?_
  rintro c _ ⟨rfl, hc, hcvalue⟩
  refine (hh.images.ensures_image hb hneedb).bind ?_
  rintro d _ ⟨rfl, hd, hdvalue⟩
  refine (Build.ensures_and_makes hh.wellFormed hc hd).bind ?_
  rintro e h' ⟨hconj, hmakes⟩
  refine Ensures.result ⟨e, rfl, hmakes.extend, ⟨hmakes.drives, fun x => ?_⟩, ?_⟩
  · rw [hmakes.edgeValueOf_eq, hcvalue, hdvalue, valueOf_gate hg hn]
  · exact {
      wellFormed := hmakes.wellFormed
      fullyHashed := hh.fullyHashed.conjoins hconj
      inputNames_eq := hmakes.terminals.inputNames_eq.trans hh.inputNames_eq
      outputs_eq := hmakes.terminals.outputs_eq.trans hh.outputs_eq
      outputNames_eq := hmakes.terminals.outputNames_eq.trans hh.outputNames_eq
      images := hh.images.extend hmakes.extend hh.wellFormed hmakes.wellFormed }

theorem ensures_rehashNode (hg : g.WellFormed) {h₀ : Graph} (hi : g.HasInputs h₀ inputs)
    (hext : h₀.Extends h) (hn : g.nodes[images.size]? = some n) (hh : g.HasGates h images) :
    Ensures (g.rehashNode inputs images n) h
      (fun image? h' => h₀.Extends h' ∧ g.HasGates h' (images.push image?)) fun _ _ => False := by
  have hskip {image? : Option Edge} (himage : ∀ e, image? = some e → g.IsImage h images.size e)
      (hneed : g.Needed images.size → image?.isSome = true) :
      h₀.Extends h ∧ g.HasGates h (images.push image?) :=
    ⟨hext, { hh with images := hh.images.push himage hneed }⟩
  have hnone (hnot : ¬ g.Needed images.size) :
      h₀.Extends h ∧ g.HasGates h (images.push none) :=
    hskip (fun e he => by cases he) fun hneed => absurd hneed hnot
  cases n with
  | constant =>
    refine Ensures.result (hskip (fun e he => ?_) fun _ => rfl)
    cases he
    refine ⟨drives_constant hh.wellFormed false, fun x => ?_⟩
    rw [edgeValueOf_constant hh.wellFormed, valueOf_constant hn]
  | input i =>
    refine Ensures.result (hskip (fun e he => ?_) fun _ => hi.isSome hg hn)
    exact (hi.isImage hn he).extend hext hi.wellFormed hh.wellFormed
  | output i e =>
    refine Ensures.result (hnone ?_)
    rintro ⟨m, hm, hout, -⟩
    rw [hn] at hm
    cases hm
    cases hout
  | gate a b =>
    rw [rehashNode]
    by_cases hlive : g.live[images.size]? = some true
    · rw [if_pos hlive]
      refine (hh.ensures_and hg hn hlive).mono ?_ fun _ _ h => h
      rintro _ h' ⟨e, rfl, hext', himage, hh'⟩
      refine ⟨hext.trans hext', { hh' with images := hh'.images.push ?_ fun _ => rfl }⟩
      intro d hd
      cases hd
      exact himage
    · rw [if_neg hlive]
      refine Ensures.result (hnone ?_)
      rintro ⟨m, hm, -, hlive'⟩
      rw [hn] at hm
      cases hm
      exact hlive (hlive' rfl)

structure HasOutputs (g h : Graph) (images : Array (Option Edge)) (rest : List (Nat × String)) :
    Prop where
  wellFormed : h.WellFormed
  fullyHashed : h.FullyHashed
  inputNames_eq : h.inputNames = g.inputNames
  images : g.Images h images
  values_eq (x : Nat → Bool) : h.outputs.toList.map (h.valueOf x) ++
    rest.map (fun p => g.valueOf x p.1) = g.outputs.toList.map (g.valueOf x)
  outputNames_eq : h.outputNames.toList ++ rest.map Prod.snd = g.outputNames.toList

theorem HasGates.hasOutputs (hh : g.HasGates h images) (hg : g.WellFormed) :
    g.HasOutputs h images (g.outputs.zip g.outputNames).toList where
  wellFormed := hh.wellFormed
  fullyHashed := hh.fullyHashed
  inputNames_eq := hh.inputNames_eq
  images := hh.images
  values_eq x := by
    have hfst : (g.outputs.zip g.outputNames).toList.map Prod.fst = g.outputs.toList := by
      rw [Array.toList_zip]
      exact List.map_fst_zip (by simp [hg.size_outputNames])
    rw [hh.outputs_eq, ← hfst, List.map_map]
    rfl
  outputNames_eq := by
    rw [hh.outputNames_eq, Array.toList_zip]
    exact List.map_snd_zip (by simp [hg.size_outputNames])

theorem HasOutputs.withOutput {name : String} {rest : List (Nat × String)} {d : Edge}
    (hh : g.HasOutputs h images ((id, name) :: rest)) (hd : h.Drives d)
    (hvalue : ∀ x, h.edgeValueOf x d = g.valueOf x id) :
    g.HasOutputs (h.withOutput d name).2 images rest := by
  have hwf := hh.wellFormed.withOutput hd name
  have hext : h.Extends (h.withOutput d name).2 :=
    extends_of_push (m := .output h.numOutputs d) rfl
  have hnew : (h.withOutput d name).2.nodes[h.size]? = some (.output h.numOutputs d) := by
    simp [Graph.withOutput, Graph.size]
  exact {
    wellFormed := hwf
    fullyHashed := hh.fullyHashed.push (m := .output h.numOutputs d) rfl rfl rfl
    inputNames_eq := hh.inputNames_eq
    images := hh.images.extend hext hh.wellFormed hwf
    values_eq := fun x => by
      have hold : h.outputs.toList.map ((h.withOutput d name).2.valueOf x) =
          h.outputs.toList.map (h.valueOf x) := by
        refine List.map_congr_left fun j hj => ?_
        obtain ⟨i, hi⟩ := List.getElem?_of_mem hj
        rw [Array.getElem?_toList] at hi
        obtain ⟨e, hn⟩ := hh.wellFormed.output_iff.mp hi
        exact hext.valueOf_eq hh.wellFormed hwf hn
      have hlast : (h.withOutput d name).2.valueOf x h.size = g.valueOf x id := by
        rw [valueOf_output hwf hnew, hext.edgeValueOf_eq hh.wellFormed hwf hd, hvalue]
      change (h.outputs.push h.size).toList.map _ ++ _ = _
      rw [Array.toList_push, List.map_append, hold, List.map_singleton, hlast, List.append_assoc]
      exact hh.values_eq x
    outputNames_eq := by
      change (h.outputNames.push name).toList ++ _ = _
      rw [Array.toList_push, List.append_assoc]
      exact hh.outputNames_eq }

/-- Rebuilding is never denied, since the fanins of what has to be rebuilt have their images. -/
theorem ensures_rehashInto (hg : g.WellFormed) :
    Ensures g.rehashInto empty (fun _ h => ∃ images, g.HasOutputs h images [])
      fun _ _ => False := by
  rw [rehashInto_eq]
  refine (ensures_inputs g).bind fun inputs h₀ hi => ?_
  have hstart : h₀.Extends h₀ ∧ g.HasGates h₀ #[] := ⟨.refl h₀, hi.toBegun, .empty g h₀⟩
  refine (ensures_scanM (P := fun images h => h₀.Extends h ∧ g.HasGates h images)
    (fun images n h hn hh => ensures_rehashNode hg hi hh.1 hn hh.2) hstart).bind ?_
  rintro images h ⟨hsize, -, hh⟩
  rw [← Array.forIn_toList]
  refine Ensures.bind (Ensures.forIn (P := fun _ rest h => g.HasOutputs h images rest) ?_
    (hh.hasOutputs hg)) fun _ h hh => Ensures.result ⟨images, hh⟩
  rintro - ⟨id, name⟩ rest h hmem hh
  rw [Array.toList_zip] at hmem
  obtain ⟨i, hi⟩ := List.getElem?_of_mem (List.of_mem_zip hmem).1
  rw [Array.getElem?_toList] at hi
  obtain ⟨e, hn⟩ := hg.output_iff.mp hi
  have hlt : e.node < images.size := by
    rw [hsize]
    exact Nat.lt_trans (hg.fanin_lt hn (by simp)) (hg.output_lt hi)
  have hneed := hg.needed_fanin (hg.live_output hi) hn (e := e) (by simp)
  simp only [hn]
  refine (hh.images.ensures_image hlt hneed).bind ?_
  rintro d h' ⟨rfl, hd, hvalue⟩
  have hvalue' (x : Nat → Bool) : h'.edgeValueOf x d = g.valueOf x id := by
    rw [hvalue, valueOf_output hg hn]
  simp only [discard, map_const, Function.comp_apply, map_eq_pure_bind, bind_assoc]
  refine Ensures.bind ((Build.ensures_output _ d (some name)).mono (fun _ _ h => h)
    fun _ _ h => h.2 hd) ?_
  rintro j _ ⟨-, hj⟩
  cases hj
  exact Ensures.result ⟨_, rfl, hh.withOutput hd hvalue'⟩

theorem rehash_eq_ok (hg : g.WellFormed) :
    ∃ h images, g.rehash = .ok h ∧ g.HasOutputs h images [] := by
  obtain ⟨u, hu, images, hh⟩ := (ensures_rehashInto hg).exists_result
  refine ⟨_, images, ?_, hh⟩
  rw [rehash]
  split
  · rename_i hrun
    rw [hrun]
  · rename_i hrun
    rw [hrun] at hu
    cases hu

/-- The same inputs and outputs by name, and the same values of the outputs under every assignment
of the inputs. -/
structure Agrees (g h : Graph) : Prop where
  numInputs_eq : h.numInputs = g.numInputs
  inputNames_eq : h.inputNames = g.inputNames
  numOutputs_eq : h.numOutputs = g.numOutputs
  outputNames_eq : h.outputNames = g.outputNames
  eval_eq (assignment : Array Bool) : h.eval assignment = g.eval assignment

theorem Agrees.refl (g : Graph) : g.Agrees g := ⟨rfl, rfl, rfl, rfl, fun _ => rfl⟩

theorem Agrees.trans (hgh : g.Agrees h) (hh : h.Agrees h') : g.Agrees h' where
  numInputs_eq := hh.numInputs_eq.trans hgh.numInputs_eq
  inputNames_eq := hh.inputNames_eq.trans hgh.inputNames_eq
  numOutputs_eq := hh.numOutputs_eq.trans hgh.numOutputs_eq
  outputNames_eq := hh.outputNames_eq.trans hgh.outputNames_eq
  eval_eq assignment := (hh.eval_eq assignment).trans (hgh.eval_eq assignment)

theorem HasOutputs.agrees (hh : g.HasOutputs h images []) (hg : g.WellFormed) : g.Agrees h := by
  have hinputs : h.numInputs = g.numInputs := by
    rw [numInputs, numInputs, ← hh.wellFormed.size_inputNames, hh.inputNames_eq,
      hg.size_inputNames]
  have hnames : h.outputNames = g.outputNames := by
    have hnames := hh.outputNames_eq
    rw [List.map_nil, List.append_nil] at hnames
    exact Array.toList_inj.mp hnames
  have houtputs : h.numOutputs = g.numOutputs := by
    rw [numOutputs, numOutputs, ← hh.wellFormed.size_outputNames, hnames, hg.size_outputNames]
  have hvalues (x : Nat → Bool) : h.outputs.map (h.valueOf x) = g.outputs.map (g.valueOf x) := by
    have hvalues := hh.values_eq x
    rw [List.map_nil, List.append_nil, ← Array.toList_map, ← Array.toList_map] at hvalues
    exact Array.toList_inj.mp hvalues
  exact ⟨hinputs, hh.inputNames_eq, houtputs, hnames,
    fun assignment => by rw [eval_eq, eval_eq, hinputs, hvalues]⟩

/-- Hashing finds a hashed graph with the same inputs, outputs and names, and the same values of the
outputs under every assignment of the inputs. -/
theorem rehash_refines (hg : g.Built) : ∃ h, g.rehash = .ok h ∧
    h.numInputs = g.numInputs ∧ h.inputNames = g.inputNames ∧
    h.numOutputs = g.numOutputs ∧ h.outputNames = g.outputNames ∧ h.isHashed = true ∧
    (∀ assignment, h.eval assignment = g.eval assignment) ∧
    ∀ assignment, assignment.size = g.numInputs → ∃ outputs, h.eval assignment = .ok outputs := by
  obtain ⟨h, images, hok, hh⟩ := rehash_eq_ok hg.wellFormed
  have hagrees := hh.agrees hg.wellFormed
  have hhashed := hh.fullyHashed.isHashed hh.wellFormed
  refine ⟨h, hok, hagrees.numInputs_eq, hagrees.inputNames_eq, hagrees.numOutputs_eq,
    hagrees.outputNames_eq, hhashed, hagrees.eval_eq, fun assignment hsize => ?_⟩
  rw [eval_eq, hagrees.numInputs_eq, if_pos hsize]
  exact ⟨_, rfl⟩

def duplicated : Graph :=
  let g := ((Build.input (some "a")).run .empty).2
  let g := ((Build.input (some "b")).run g).2
  let g := ((Build.gate ⟨1, false⟩ ⟨2, false⟩).run g).2
  let g := ((Build.gate ⟨2, false⟩ ⟨1, false⟩).run g).2
  let g := ((Build.gate ⟨3, false⟩ ⟨4, false⟩).run g).2
  ((Build.output ⟨5, true⟩ (some "y")).run g).2

theorem duplicated_built : duplicated.Built :=
  .output (.gate (.gate (.gate (.input (.input .empty _) _) _ _) _ _) _ _) _ _

theorem isHashed_duplicated : duplicated.isHashed = false := by
  have h3 : duplicated.nodes[3]? = some (.gate ⟨1, false⟩ ⟨2, false⟩) := rfl
  have h4 : duplicated.nodes[4]? = some (.gate ⟨2, false⟩ ⟨1, false⟩) := rfl
  rw [← Bool.not_eq_true, isHashed_iff]
  rintro ⟨-, hunique⟩
  exact absurd (hunique h3 h4 rfl) (by decide)

theorem rehash_refines_duplicated : duplicated.Built ∧ duplicated.isHashed = false ∧
    ∃ h, duplicated.rehash = .ok h ∧ h.isHashed = true ∧
      (h.eval #[true, true]).toOption = some #[false] ∧
      (h.eval #[true, false]).toOption = some #[true] := by
  obtain ⟨h, hok, -, -, -, -, hhashed, heval, -⟩ := rehash_refines duplicated_built
  refine ⟨duplicated_built, isHashed_duplicated, h, hok, hhashed, ?_, ?_⟩
  · rw [heval]
    decide +kernel
  · rw [heval]
    decide +kernel

end AndInverter.Graph
