import AndInverter.Proofs.Graph.RepeatedHashing
import Mathlib.Data.List.Nodup

/-!
# Gate counts of hashed copies

Every gate of a hashed copy is the image of a live gate, so the copy has at most as many gates as
the graph has live ones. If it has as many, then every live gate has a gate of its own: none has
folded, and no two have been merged. The live gates are then hashed themselves.
-/

namespace AndInverter.Graph

variable {g h : Graph} {images : Array (Option Edge)} {a a' b b' e f : Edge} {id id' k : Nat}

def liveGates (g : Graph) : List Nat := g.gates.filter fun id => g.live[id]? = some true

def imageNode (images : Array (Option Edge)) (id : Nat) : Nat :=
  (images[id]?.join.map Edge.node).getD 0

/-- Every live gate has a gate of its own in the copy, and the copy has no others. -/
def KeepsLiveGates (g : Graph) (images : Array (Option Edge)) (h : Graph) : Prop :=
  (g.liveGates.map (imageNode images)).Perm h.gates

theorem pairwise_gates (g : Graph) : g.gates.Pairwise (· < ·) := List.pairwise_lt_range.filter _

theorem nodup_gates (g : Graph) : g.gates.Nodup := g.pairwise_gates.imp Nat.ne_of_lt

theorem length_gates (g : Graph) : g.gates.length = g.numGates := by
  have hnodes : (List.range g.size).map (g.nodes[·]?) = g.nodes.toList.map some := by
    refine List.ext_getElem (by simp [size]) fun i hi _ => ?_
    have hlt : i < g.nodes.size := by simpa [size] using hi
    simp [hlt]
  have hcount : g.nodes.toList.countP Node.isGate =
      (g.nodes.toList.map some).countP (Option.any Node.isGate) := by
    rw [List.countP_map]
    rfl
  rw [gates, ← List.countP_eq_length_filter, numGates, ← Array.countP_toList, hcount, ← hnodes,
    List.countP_map]
  rfl

theorem pairwise_liveGates (g : Graph) : g.liveGates.Pairwise (· < ·) :=
  g.pairwise_gates.filter _

theorem WellFormed.mem_liveGates (hg : g.WellFormed) : id ∈ g.liveGates ↔
    (∃ a b, g.nodes[id]? = some (.gate a b)) ∧ g.OutputReaches id := by
  rw [liveGates, List.mem_filter, mem_gates, decide_eq_true_iff, hg.live_iff]

theorem length_liveGates_le (g : Graph) : g.liveGates.length ≤ g.numGates := by
  rw [← length_gates]
  exact List.length_filter_le _ _

theorem WellFormed.length_liveGates_eq_iff (hg : g.WellFormed) :
    g.liveGates.length = g.numGates ↔ g.NoDeadGates := by
  rw [← length_gates, liveGates, List.length_filter_eq_length_iff]
  simp only [decide_eq_true_iff, hg.live_iff, mem_gates]
  constructor
  · intro h id a b hn
    exact h id ⟨a, b, hn⟩
  · rintro h id ⟨a, b, hn⟩
    exact h id a b hn

theorem imageNode_eq (he : images[id]? = some (some e)) : imageNode images id = e.node := by
  rw [imageNode, he]
  rfl

namespace Traced

theorem gates_subset (ht : g.Traced images h) (hg : g.WellFormed) :
    h.gates ⊆ g.liveGates.map (imageNode images) := by
  intro m hm
  obtain ⟨c, d, hm⟩ := mem_gates.mp hm
  obtain ⟨id, a, b, hn, he⟩ := ht.origin hm
  have hlive := hg.live_iff.mp (ht.live hn he)
  exact List.mem_map.mpr ⟨id, hg.mem_liveGates.mpr ⟨⟨a, b, hn⟩, hlive⟩, imageNode_eq he⟩

theorem subperm (ht : g.Traced images h) (hg : g.WellFormed) :
    h.gates.Subperm (g.liveGates.map (imageNode images)) :=
  List.subperm_of_subset h.nodup_gates (ht.gates_subset hg)

/-- The copy has no more gates than the graph has live ones. -/
theorem numGates_le (ht : g.Traced images h) (hg : g.WellFormed) :
    h.numGates ≤ g.liveGates.length := by
  have hle := (ht.subperm hg).length_le
  rwa [List.length_map, length_gates] at hle

theorem keepsLiveGates_iff (ht : g.Traced images h) (hg : g.WellFormed) :
    g.KeepsLiveGates images h ↔ h.numGates = g.liveGates.length := by
  rw [← length_gates]
  constructor
  · intro hk
    rw [← hk.length_eq, List.length_map]
  · intro heq
    refine ((ht.subperm hg).perm_of_length_le ?_).symm
    rw [List.length_map, heq]

theorem exists_image_of_mem (ht : g.Traced images h) (hg : g.WellFormed)
    (hsize : images.size = g.size) (hid : id ∈ g.liveGates) :
    ∃ e, images[id]? = some (some e) := by
  obtain ⟨⟨a, b, hn⟩, hreach⟩ := hg.mem_liveGates.mp hid
  exact ht.exists_image hn (hsize ▸ lt_size_of_nodes_eq hn) (hg.live_iff.mpr hreach)

/-- Nothing but dead gates is lost when a hashed graph is hashed. -/
theorem keepsLiveGates_of_isHashed (ht : g.Traced images h) (hg : g.WellFormed)
    (hh : h.WellFormed) (hsize : images.size = g.size) (hhashed : g.isHashed = true) :
    g.KeepsLiveGates images h := by
  have hr := ht.renumbered hg hh hhashed g.size
  have hlt {id : Nat} (hid : id ∈ g.liveGates) : id < g.size := by
    obtain ⟨⟨a, b, hn⟩, -⟩ := hg.mem_liveGates.mp hid
    exact lt_size_of_nodes_eq hn
  have hnodup : (g.liveGates.map (imageNode images)).Nodup := by
    refine List.Nodup.map_on (fun i hi j hj hnode => ?_) (g.pairwise_liveGates.imp Nat.ne_of_lt)
    obtain ⟨e, he⟩ := ht.exists_image_of_mem hg hsize hi
    obtain ⟨f, hf⟩ := ht.exists_image_of_mem hg hsize hj
    rw [imageNode_eq he, imageNode_eq hf] at hnode
    exact hr.inj (hlt hi) (hlt hj) he hf hnode
  have hsubset : g.liveGates.map (imageNode images) ⊆ h.gates := by
    intro m hm
    obtain ⟨id, hid, rfl⟩ := List.mem_map.mp hm
    obtain ⟨e, he⟩ := ht.exists_image_of_mem hg hsize hid
    obtain ⟨⟨a, b, hn⟩, -⟩ := hg.mem_liveGates.mp hid
    obtain ⟨-, n, m, hn', hm, hrebuilt⟩ := hr.unfolded (hlt hid) he
    cases hn.symm.trans hn'
    cases hrebuilt with
    | gate ha hb =>
      rw [imageNode_eq he]
      exact mem_gates.mpr ⟨_, _, hm⟩
  exact (List.subperm_of_subset hnodup hsubset).antisymm (ht.subperm hg)

end Traced

namespace KeepsLiveGates

theorem inj (hk : g.KeepsLiveGates images h) (hid : id ∈ g.liveGates) (hid' : id' ∈ g.liveGates)
    (he : images[id]? = some (some e)) (hf : images[id']? = some (some f))
    (hnode : e.node = f.node) : id = id' := by
  have hnodup : (g.liveGates.map (imageNode images)).Nodup := hk.nodup_iff.mpr h.nodup_gates
  refine List.inj_on_of_nodup_map hnodup hid hid' ?_
  rw [imageNode_eq he, imageNode_eq hf, hnode]

/-- If no live gate is lost, the image of a live gate is a gate on the images of its fanins. -/
theorem gate_image (hk : g.KeepsLiveGates images h) (hc : g.Copies images k h) (hg : g.WellFormed)
    (hsize : images.size = g.size) (hn : g.nodes[id]? = some (.gate a b))
    (hid : id ∈ g.liveGates) : ∃ c d m, images[id]? = some (some (.plain m)) ∧
      imageOf? images a = some c ∧ imageOf? images b = some d ∧
      Build.trivial? (Edge.sorted c d).1 (Edge.sorted c d).2 = none ∧
      h.nodes[m]? = some (.gate (Edge.sorted c d).1 (Edge.sorted c d).2) := by
  have ht := hc.traced hg
  have hh := hc.state.wellFormed
  obtain ⟨e, he⟩ := ht.exists_image_of_mem hg hsize hid
  have hs := ht.stands_of_node hn he
  cases hs with
  | gate hlive ha hb hnone hm => exact ⟨_, _, _, he, ha, hb, hnone, hm⟩
  | folded hlive ha hb hfold =>
    obtain ⟨c, d, hm⟩ : ∃ c d, h.nodes[e.node]? = some (.gate c d) := by
      rw [← mem_gates, ← hk.mem_iff, ← imageNode_eq he]
      exact List.mem_map_of_mem hid
    -- A fanin with the same image would be a live gate that is merged with this one.
    obtain ⟨f, e', hf, he', hnode⟩ := exists_fanin_of_folded ha hb hfold (hh.gate_ne_zero hm)
    obtain ⟨n, hn', hs'⟩ := ht.stands he'
    rw [← hnode] at hm
    cases hs' with
    | constant => exact absurd rfl (hh.gate_ne_zero hm)
    | input hj =>
      rw [Edge.plain, hh.input_iff.mp hj] at hm
      cases hm
    | folded | gate =>
      have hreach := (hg.mem_liveGates.mp hid).2.fanin hn hf
      have hid' : f.node ∈ g.liveGates := hg.mem_liveGates.mpr ⟨⟨_, _, hn'⟩, hreach⟩
      exact absurd (hk.inj hid' hid he' he hnode) (Nat.ne_of_lt (hg.fanin_lt hn hf))

theorem proper (hk : g.KeepsLiveGates images h) (hc : g.Copies images k h) (hg : g.WellFormed)
    (hsize : images.size = g.size) (hn : g.nodes[id]? = some (.gate a b))
    (hid : id ∈ g.liveGates) : a.node ≠ 0 ∧ b.node ≠ 0 ∧ a.node ≠ b.node := by
  obtain ⟨c, d, m, -, ha, hb, hnone, -⟩ := hk.gate_image hc hg hsize hn hid
  obtain ⟨hc0, hd0, hne⟩ := properPair_sorted.mp
    (Build.proper_of_trivial?_eq_none hnone (Build.sorted_le c d)).2
  have hconstant : images[0]? = some (some (.constant false)) := by
    have hn := hg.constant_iff.mpr rfl
    exact (hc.traced hg).image_constant (hsize ▸ lt_size_of_nodes_eq hn) hn
  have hnonzero {a c : Edge} (ha : imageOf? images a = some c) (hc : c.node ≠ 0) :
      a.node ≠ 0 := by
    intro hzero
    obtain ⟨e, he, hnode⟩ := exists_image_of_imageOf? ha
    rw [hzero, hconstant] at he
    cases he
    exact hc hnode.symm
  refine ⟨hnonzero ha hc0, hnonzero hb hd0, fun heq => ?_⟩
  obtain ⟨e, he, hec⟩ := exists_image_of_imageOf? ha
  obtain ⟨f, hf, hfd⟩ := exists_image_of_imageOf? hb
  rw [heq, hf] at he
  cases he
  exact hne (hec.symm.trans hfd)

/-- Gates on the same pair have their images on the same pair, and the copy is hashed. -/
theorem eq_of_sorted_eq (hk : g.KeepsLiveGates images h) (hc : g.Copies images k h)
    (hg : g.WellFormed) (hsize : images.size = g.size) (hn : g.nodes[id]? = some (.gate a b))
    (hn' : g.nodes[id']? = some (.gate a' b')) (hid : id ∈ g.liveGates) (hid' : id' ∈ g.liveGates)
    (hpair : Edge.sorted a b = Edge.sorted a' b') : id = id' := by
  obtain ⟨c, d, m, he, ha, hb, -, hm⟩ := hk.gate_image hc hg hsize hn hid
  obtain ⟨c', d', m', he', ha', hb', -, hm'⟩ := hk.gate_image hc hg hsize hn' hid'
  have hsorted : Edge.sorted c d = Edge.sorted c' d' := by
    rcases Edge.sorted_inj hpair with ⟨rfl, rfl⟩ | ⟨rfl, rfl⟩
    · cases ha.symm.trans ha'
      cases hb.symm.trans hb'
      rfl
    · cases ha.symm.trans hb'
      cases hb.symm.trans ha'
      exact Edge.sorted_comm c d
  have hhashed := hc.state.fullyHashed.isHashed hc.state.wellFormed
  have hnode : m = m' := (isHashed_iff.mp hhashed).2 hm hm' (by rw [hsorted])
  exact hk.inj hid hid' he he' hnode

theorem isHashed (hk : g.KeepsLiveGates images h) (hc : g.Copies images k h) (hg : g.WellFormed)
    (hsize : images.size = g.size) (hd : g.NoDeadGates) : g.isHashed = true := by
  have hlive {id : Nat} {a b : Edge} (hn : g.nodes[id]? = some (.gate a b)) : id ∈ g.liveGates :=
    hg.mem_liveGates.mpr ⟨⟨a, b, hn⟩, hd id a b hn⟩
  refine isHashed_iff.mpr ⟨fun hn => ?_, fun hn hn' hpair => ?_⟩
  · exact properPair_sorted.mpr (hk.proper hc hg hsize hn (hlive hn))
  · exact hk.eq_of_sorted_eq hc hg hsize hn hn' (hlive hn) (hlive hn') hpair

end KeepsLiveGates

/-- Hashing finds a copy with at most as many gates as are live. It has as many if the graph is
hashed, for then each live gate has a gate of its own in the copy, and only if the graph is hashed
where all gates are live. So hashing leaves the number of gates as it is exactly if all gates are
live and the graph is hashed. -/
theorem Built.rehash_gate_counts (hg : g.Built) : ∃ h, g.rehash = .ok h ∧
    (g.liveGates.Pairwise (· < ·) ∧ ∀ id, id ∈ g.liveGates ↔
      (∃ a b, g.nodes[id]? = some (.gate a b)) ∧ g.OutputReaches id) ∧
    h.numGates ≤ g.liveGates.length ∧
    (g.isHashed = true → h.numGates = g.liveGates.length ∧
      ∃ images, g.Traced images h ∧ g.KeepsLiveGates images h) ∧
    (g.NoDeadGates → h.numGates = g.liveGates.length → g.isHashed = true) ∧
    (h.numGates = g.numGates ↔ g.NoDeadGates ∧ g.isHashed = true) := by
  have hg := hg.wellFormed
  obtain ⟨h, -, hr, -⟩ := rehash_eq_ok hg
  obtain ⟨images, hsize, hc⟩ := hg.copies_of_rehash hr
  have ht := hc.traced hg
  have hle := ht.numGates_le hg
  have hkeeps (hhashed : g.isHashed = true) : g.KeepsLiveGates images h :=
    ht.keepsLiveGates_of_isHashed hg hc.state.wellFormed hsize hhashed
  have hcount := ht.keepsLiveGates_iff hg
  have hconverse (hd : g.NoDeadGates) (heq : h.numGates = g.liveGates.length) :
      g.isHashed = true := (hcount.mpr heq).isHashed hc hg hsize hd
  refine ⟨h, hr, ⟨g.pairwise_liveGates, fun id => hg.mem_liveGates⟩, hle, fun hhashed =>
    ⟨hcount.mp (hkeeps hhashed), images, ht, hkeeps hhashed⟩, hconverse, ?_⟩
  constructor
  · intro heq
    have hlive := hg.length_liveGates_eq_iff.mp (Nat.le_antisymm g.length_liveGates_le (heq ▸ hle))
    exact ⟨hlive, hconverse hlive (heq.trans (hg.length_liveGates_eq_iff.mpr hlive).symm)⟩
  · rintro ⟨hd, hhashed⟩
    exact (hcount.mp (hkeeps hhashed)).trans (hg.length_liveGates_eq_iff.mpr hd)

/-- All three gates of the duplicated conjunction are live, but the two on the same inputs are
merged. The conjunction that no output needs is dropped, though it is hashed. -/
theorem Built.rehash_gate_counts_duplicated :
    (duplicated.Built ∧ duplicated.liveGates = [3, 4, 5] ∧ duplicated.NoDeadGates ∧
      ∃ h, duplicated.rehash = .ok h ∧ h.numGates < 3) ∧
    conjoined.Built ∧ conjoined.isHashed = true ∧ conjoined.numGates = 1 ∧
      conjoined.liveGates = [] ∧ ∃ h, conjoined.rehash = .ok h ∧ h.numGates = 0 := by
  have hlive : duplicated.liveGates = [3, 4, 5] := by decide +kernel
  have hdead : conjoined.liveGates = [] := by decide +kernel
  have hd : duplicated.NoDeadGates :=
    duplicated_built.wellFormed.length_liveGates_eq_iff.mp (by rw [hlive]; rfl)
  obtain ⟨h, hr, -, hle, -, hconverse, -⟩ := Built.rehash_gate_counts duplicated_built
  obtain ⟨h', hr', -, -, hhashed', -⟩ := Built.rehash_gate_counts conjoined_built
  rw [hlive] at hle hconverse
  have hne : h.numGates ≠ 3 := fun heq =>
    Bool.false_ne_true (isHashed_duplicated.symm.trans (hconverse hd heq))
  have hhashed := conjoined_builtByHashing.fullyHashed.isHashed conjoined_built.wellFormed
  have hzero := (hhashed' hhashed).1
  rw [hdead] at hzero
  exact ⟨⟨duplicated_built, hlive, hd, h, hr, Nat.lt_of_le_of_ne hle hne⟩,
    conjoined_built, hhashed, rfl, hdead, h', hr', hzero⟩

end AndInverter.Graph
