import AndInverter.Proofs.Graph.DeadGates
import AndInverter.Proofs.Graph.HashedBuilding

/-!
# Hashing a hashed graph

In a hashed graph no gate folds and no two gates are merged, so every node that is rebuilt has a
node of its own in the copy: hashing renumbers the live part and drops the rest.
-/

namespace AndInverter.Graph

variable {g h : Graph} {images : Array (Option Edge)} {a b c d e f : Edge} {id i j k : Nat}
  {m m' n : Node}

inductive Rebuilt (images : Array (Option Edge)) : Node → Node → Prop where
  | constant : Rebuilt images .constant .constant
  | input {i : Nat} : Rebuilt images (.input i) (.input i)
  | gate {a b c d : Edge} (ha : imageOf? images a = some c) (hb : imageOf? images b = some d) :
    Rebuilt images (.gate a b) (.gate (Edge.sorted c d).1 (Edge.sorted c d).2)

def Unfolded (g : Graph) (images : Array (Option Edge)) (h : Graph) (id : Nat) (e : Edge) : Prop :=
  e.complemented = false ∧
    ∃ m m', g.nodes[id]? = some m ∧ h.nodes[e.node]? = some m' ∧ Rebuilt images m m'

/-- No node below `k` folds, and those with images each have a node of their own in the copy. -/
structure Renumbered (g : Graph) (images : Array (Option Edge)) (h : Graph) (k : Nat) : Prop where
  unfolded {id : Nat} {e : Edge} : id < k → images[id]? = some (some e) → Unfolded g images h id e
  inj {i j : Nat} {e f : Edge} : i < k → j < k → images[i]? = some (some e) →
    images[j]? = some (some f) → e.node = f.node → i = j

theorem properPair_sorted : properPair (Edge.sorted a b) = true ↔
    a.node ≠ 0 ∧ b.node ≠ 0 ∧ a.node ≠ b.node := by
  simp only [Edge.sorted]
  split
  · exact properPair_eq_true
  · rw [properPair_eq_true, @ne_comm _ b.node a.node]
    exact and_left_comm

theorem proper_of_isHashed (hhashed : g.isHashed = true) (hn : g.nodes[id]? = some (.gate a b)) :
    a.node ≠ 0 ∧ b.node ≠ 0 ∧ a.node ≠ b.node :=
  properPair_sorted.mp ((isHashed_iff.mp hhashed).1 hn)

namespace Renumbered

theorem imageOf?_inj (hr : Renumbered g images h k) (ha : a.node < k) (hb : b.node < k)
    (hca : imageOf? images a = some c) (hcb : imageOf? images b = some c) : a = b := by
  obtain ⟨e, he, rfl⟩ := imageOf?_eq_some_iff.mp hca
  obtain ⟨f, hf, hef⟩ := imageOf?_eq_some_iff.mp hcb
  have hnode : f.node = e.node := (congrArg Edge.node hef :)
  have hab := hr.inj ha hb he hf hnode.symm
  have hcomp : (f.complemented ^^ b.complemented) = (e.complemented ^^ a.complemented) :=
    congrArg Edge.complemented hef
  rw [(hr.unfolded ha he).1, (hr.unfolded hb hf).1, Bool.false_xor, Bool.false_xor] at hcomp
  rcases a with ⟨i, s⟩
  rcases b with ⟨j, t⟩
  simp only [Edge.mk.injEq]
  exact ⟨hab, hcomp.symm⟩

/-- The images of the fanins of a proper gate do not fold. -/
theorem trivial?_eq_none (hr : Renumbered g images h k) (hg : g.WellFormed) (hh : h.WellFormed)
    (hproper : a.node ≠ 0 ∧ b.node ≠ 0 ∧ a.node ≠ b.node) (hka : a.node < k) (hkb : b.node < k)
    (ha : imageOf? images a = some c) (hb : imageOf? images b = some d) :
    Build.trivial? (Edge.sorted c d).1 (Edge.sorted c d).2 = none := by
  have hnonzero {f c : Edge} (hf : f.node ≠ 0) (hlt : f.node < k)
      (hc : imageOf? images f = some c) : c.node ≠ 0 := by
    intro hzero
    obtain ⟨e, he, hnode⟩ := exists_image_of_imageOf? hc
    obtain ⟨-, m, m', hm, hm', hrebuilt⟩ := hr.unfolded hlt he
    rw [hnode, hzero, hh.constant_iff.mpr rfl] at hm'
    cases hm'
    cases hrebuilt
    exact hf (hg.constant_iff.mp hm)
  have hne : c.node ≠ d.node := by
    intro heq
    obtain ⟨e, he, hec⟩ := exists_image_of_imageOf? ha
    obtain ⟨f, hf, hfd⟩ := exists_image_of_imageOf? hb
    exact hproper.2.2 (hr.inj hka hkb he hf (hec.trans (heq.trans hfd.symm)))
  have hc := hnonzero hproper.1 hka ha
  have hd := hnonzero hproper.2.1 hkb hb
  simp only [Edge.sorted]
  split
  · exact Build.trivial?_eq_none hc hne
  · exact Build.trivial?_eq_none hd hne.symm

theorem unfolded_next (hr : Renumbered g images h k) (hg : g.WellFormed) (hh : h.WellFormed)
    (hhashed : g.isHashed = true) (ht : g.Traced images h) (he : images[k]? = some (some e)) :
    Unfolded g images h k e := by
  obtain ⟨n, hn, hs⟩ := ht.stands he
  cases hs with
  | constant => exact ⟨rfl, _, _, hn, hh.constant_iff.mpr rfl, .constant⟩
  | input hj => exact ⟨rfl, _, _, hn, hh.input_iff.mp hj, .input⟩
  | gate hlive ha hb hnone hm => exact ⟨rfl, _, _, hn, hm, .gate ha hb⟩
  | folded hlive ha hb he =>
    have hnone := hr.trivial?_eq_none hg hh (proper_of_isHashed hhashed hn)
      (hg.fanin_lt hn (by simp)) (hg.fanin_lt hn (by simp)) ha hb
    rw [hnone] at he
    cases he

/-- A node has no image in common with an earlier one. -/
theorem ne_next (hr : Renumbered g images h k) (hg : g.WellFormed) (hhashed : g.isHashed = true)
    (hk : Unfolded g images h k e) (hi : i < k) (hf : images[i]? = some (some f)) :
    e.node ≠ f.node := by
  intro hnode
  obtain ⟨-, m, n, hm, hn, hrebuilt⟩ := hk
  obtain ⟨-, m', n', hm', hn', hrebuilt'⟩ := hr.unfolded hi hf
  rw [← hnode, hn] at hn'
  cases hn'
  suffices heq : i = k from Nat.ne_of_lt hi heq
  -- Both nodes are rebuilt as the same node of the copy, so they are of one kind.
  cases hrebuilt with
  | constant =>
    cases hrebuilt'
    exact (hg.constant_iff.mp hm').trans (hg.constant_iff.mp hm).symm
  | input =>
    cases hrebuilt'
    exact Option.some.inj ((hg.input_iff.mpr hm').symm.trans (hg.input_iff.mpr hm))
  | @gate a b c d ha hb =>
    generalize hgate : Node.gate (Edge.sorted c d).1 (Edge.sorted c d).2 = n' at hrebuilt'
    cases hrebuilt' with
    | constant => cases hgate
    | input => cases hgate
    | @gate a' b' c' d' ha' hb' =>
      have hsorted : Edge.sorted c d = Edge.sorted c' d' := Prod.ext_iff.mpr (Node.gate.inj hgate)
      have hlt {e : Edge} (he : e ∈ (Node.gate a b).fanins) : e.node < k := hg.fanin_lt hm he
      have hlt' {e : Edge} (he : e ∈ (Node.gate a' b').fanins) : e.node < k :=
        Nat.lt_trans (hg.fanin_lt hm' he) hi
      refine (isHashed_iff.mp hhashed).2 hm' hm ?_
      rcases Edge.sorted_inj hsorted with ⟨rfl, rfl⟩ | ⟨rfl, rfl⟩
      · rw [hr.imageOf?_inj (hlt (by simp)) (hlt' (by simp)) ha ha',
          hr.imageOf?_inj (hlt (by simp)) (hlt' (by simp)) hb hb']
      · rw [hr.imageOf?_inj (hlt (by simp)) (hlt' (by simp)) ha hb',
          hr.imageOf?_inj (hlt (by simp)) (hlt' (by simp)) hb ha', Edge.sorted_comm]

end Renumbered

theorem Traced.renumbered (ht : g.Traced images h) (hg : g.WellFormed) (hh : h.WellFormed)
    (hhashed : g.isHashed = true) (k : Nat) : Renumbered g images h k := by
  induction k with
  | zero => exact ⟨fun h => absurd h (Nat.not_lt_zero _), fun h => absurd h (Nat.not_lt_zero _)⟩
  | succ k hr =>
    have hnext {e : Edge} (he : images[k]? = some (some e)) : Unfolded g images h k e :=
      hr.unfolded_next hg hh hhashed ht he
    constructor
    · intro id e hid he
      rcases Nat.lt_succ_iff_lt_or_eq.mp hid with hid | rfl
      · exact hr.unfolded hid he
      · exact hnext he
    · intro i j e f hi hj he hf hnode
      rcases Nat.lt_succ_iff_lt_or_eq.mp hi with hi | rfl
      · rcases Nat.lt_succ_iff_lt_or_eq.mp hj with hj | rfl
        · exact hr.inj hi hj he hf hnode
        · exact absurd hnode.symm (hr.ne_next hg hhashed (hnext hf) hi he)
      · rcases Nat.lt_succ_iff_lt_or_eq.mp hj with hj | rfl
        · exact absurd hnode (hr.ne_next hg hhashed (hnext he) hj hf)
        · rfl

/-- The copy of a hashed graph has no dead gates. -/
theorem Copies.noDeadGates_of_isHashed (hg : g.WellFormed)
    (hc : g.Copies images g.numOutputs h) (hsize : images.size = g.size)
    (hhashed : g.isHashed = true) : h.NoDeadGates := by
  have hh := hc.state.wellFormed
  refine hc.noDeadGates hg hsize fun id a b e hn he => ?_
  obtain ⟨-, m, m', hm, hm', hrebuilt⟩ :=
    ((hc.traced hg).renumbered hg hh hhashed (id + 1)).unfolded (Nat.lt_succ_self id) he
  rw [hn] at hm
  cases hm
  cases hrebuilt with
  | gate ha hb => exact hh.gate_ne_zero hm'

end AndInverter.Graph
