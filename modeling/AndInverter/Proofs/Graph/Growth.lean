import AndInverter.Proofs.Graph.Building
import AndInverter.Proofs.Graph.Scan

/-!
# Growing graphs

The value of a node stays as it is when later nodes are added. The conjunction of two edges has the
value that it is to have, whether it needs a new gate or not.
-/

namespace AndInverter

namespace Graph

variable {g g' g'' : Graph} {x : Nat → Bool} {id : Nat} {a b e : Edge} {m n : Node}

def Extends (g g' : Graph) : Prop :=
  ∀ (id : Nat) (n : Node), g.nodes[id]? = some n → g'.nodes[id]? = some n

theorem Extends.refl (g : Graph) : g.Extends g := fun _ _ h => h

theorem Extends.trans (h : g.Extends g') (h' : g'.Extends g'') : g.Extends g'' :=
  fun id n hn => h' id n (h id n hn)

theorem extends_of_push (h : g'.nodes = g.nodes.push m) : g.Extends g' := by
  intro id n hn
  rw [h]
  exact nodes_push_of_eq hn m

theorem Extends.drives (h : g.Extends g') (he : g.Drives e) : g'.Drives e := by
  obtain ⟨n, hn, hout⟩ := he
  exact ⟨n, h _ n hn, hout⟩

theorem Extends.valueOf_eq (h : g.Extends g') (hg : g.WellFormed) (hg' : g'.WellFormed)
    (hn : g.nodes[id]? = some n) : g'.valueOf x id = g.valueOf x id := by
  induction id using Nat.strongRecOn generalizing n with
  | ind id ih =>
    have hn' := h id n hn
    have hedge : ∀ e ∈ n.fanins, g'.edgeValueOf x e = g.edgeValueOf x e := by
      intro e he
      obtain ⟨m, hm, -⟩ := hg.drives_fanin hn he
      rw [edgeValueOf, edgeValueOf, ih e.node (hg.fanin_lt hn he) hm]
    cases n with
    | constant => rw [valueOf_constant hn, valueOf_constant hn']
    | input i => rw [valueOf_input hn, valueOf_input hn']
    | gate a b =>
      rw [valueOf_gate hg hn, valueOf_gate hg' hn', hedge a (by simp),
        hedge b (by simp)]
    | output i e =>
      rw [valueOf_output hg hn, valueOf_output hg' hn', hedge e (by simp)]

theorem Extends.edgeValueOf_eq (h : g.Extends g') (hg : g.WellFormed) (hg' : g'.WellFormed)
    (he : g.Drives e) : g'.edgeValueOf x e = g.edgeValueOf x e := by
  obtain ⟨n, hn, -⟩ := he
  rw [edgeValueOf, edgeValueOf, h.valueOf_eq hg hg' hn]

theorem edgeValueOf_constant (hg : g.WellFormed) (c : Bool) :
    g.edgeValueOf x (.constant c) = c := by
  rw [edgeValueOf, Edge.constant, valueOf_constant (hg.constant_iff.mpr rfl), Bool.false_xor]

theorem edgeValueOf_plain : g.edgeValueOf x (.plain id) = g.valueOf x id := Bool.xor_false _

theorem edgeValueOf_complement : g.edgeValueOf x e.complement = !g.edgeValueOf x e :=
  Bool.xor_not _ _

theorem edgeValueOf_complementIf (c : Bool) :
    g.edgeValueOf x (e.complementIf c) = (g.edgeValueOf x e ^^ c) :=
  (Bool.xor_assoc _ _ _).symm

structure SameTerminals (g g' : Graph) : Prop where
  inputs_eq : g'.inputs = g.inputs
  outputs_eq : g'.outputs = g.outputs
  inputNames_eq : g'.inputNames = g.inputNames
  outputNames_eq : g'.outputNames = g.outputNames

theorem SameTerminals.refl (g : Graph) : g.SameTerminals g := ⟨rfl, rfl, rfl, rfl⟩

/-- Gates have been added, and an edge now has the function `φ`. -/
structure Makes (g : Graph) (φ : (Nat → Bool) → Bool) (e : Edge) (g' : Graph) : Prop where
  wellFormed : g'.WellFormed
  extend : g.Extends g'
  terminals : g.SameTerminals g'
  drives : g'.Drives e
  edgeValueOf_eq (x : Nat → Bool) : g'.edgeValueOf x e = φ x

end Graph

open AndInverter.Graph

namespace Build

variable {g g' : Graph} {x : Nat → Bool} {a b e : Edge} {p : Edge × Edge}

theorem drives_of_trivial? (hg : g.WellFormed) (ha : g.Drives a) (hb : g.Drives b)
    (h : trivial? a b = some e) : g.Drives e := by
  simp only [trivial?] at h
  split at h
  · cases h
    exact drives_constant hg false
  · split at h
    · cases h
      exact hb
    · split at h
      · cases h
        exact ha
      · cases h

theorem edgeValueOf_of_trivial? (hg : g.WellFormed) (h : trivial? a b = some e) :
    g.edgeValueOf x e = (g.edgeValueOf x a && g.edgeValueOf x b) := by
  simp only [trivial?] at h
  split at h
  · rename_i hfalse
    cases h
    rw [edgeValueOf_constant hg]
    rcases hfalse with rfl | rfl
    · rw [edgeValueOf_constant hg, Bool.false_and]
    · rw [edgeValueOf_complement, Bool.not_and_self]
  · split at h
    · rename_i htrue
      cases h
      rw [htrue, edgeValueOf_constant hg, Bool.true_and]
    · split at h
      · rename_i hab
        cases h
        rw [hab, Bool.and_self]
      · cases h

theorem Conjoins.makes (h : Conjoins g p e g') (hg : g.WellFormed)
    (hle : p.1.literal ≤ p.2.literal) (ha : g.Drives p.1) (hb : g.Drives p.2) :
    g.Makes (fun x => g.edgeValueOf x p.1 && g.edgeValueOf x p.2) e g' := by
  have hg' := h.wellFormed hle hg
  cases h with
  | trivial ht =>
    exact ⟨hg, .refl g, .refl g, drives_of_trivial? hg ha hb ht,
      fun x => edgeValueOf_of_trivial? hg ht⟩
  | found _ hh =>
    have hn := (hg.hashed_gate hh).1
    refine ⟨hg, .refl g, .refl g, ⟨_, hn, rfl⟩, fun x => ?_⟩
    rw [edgeValueOf_plain, valueOf_gate hg hn]
  | added =>
    have hext : g.Extends { g.push (.gate p.1 p.2) with hashed := g.hashed.insert p g.size } :=
      extends_of_push (m := .gate p.1 p.2) rfl
    have hn : (g.push (.gate p.1 p.2)).nodes[g.size]? = some (.gate p.1 p.2) := by
      simp [push, Graph.size]
    refine ⟨hg', hext, ⟨rfl, rfl, rfl, rfl⟩, ⟨_, hn, rfl⟩, fun x => ?_⟩
    rw [edgeValueOf_plain, valueOf_gate hg' hn, hext.edgeValueOf_eq hg hg' ha,
      hext.edgeValueOf_eq hg hg' hb]

theorem drives_sorted (ha : g.Drives a) (hb : g.Drives b) :
    g.Drives (Edge.sorted a b).1 ∧ g.Drives (Edge.sorted a b).2 := by
  simp only [Edge.sorted]
  split
  · exact ⟨ha, hb⟩
  · exact ⟨hb, ha⟩

/-- The conjunction of two edges is never denied. -/
theorem ensures_and_makes (hg : g.WellFormed) (ha : g.Drives a) (hb : g.Drives b) :
    Ensures (and a b) g (fun e g' => Conjoins g (Edge.sorted a b) e g' ∧
      g.Makes (fun x => g.edgeValueOf x a && g.edgeValueOf x b) e g') fun _ _ => False := by
  obtain ⟨hfst, hsnd⟩ := drives_sorted ha hb
  refine (ensures_and g a b).mono (fun e g' h => ⟨h, ?_⟩) fun _ _ h => h.2 ⟨hfst, hsnd⟩
  have hmakes := h.makes hg (sorted_le a b) hfst hsnd
  refine { hmakes with edgeValueOf_eq := fun x => (hmakes.edgeValueOf_eq x).trans ?_ }
  simp only [Edge.sorted]
  split
  · rfl
  · exact Bool.and_comm _ _

end Build

end AndInverter
