import AndInverter.Proofs.Graph.Rehashing
import AndInverter.Proofs.Graph.Structure

/-!
# Graphs that are built with hashing only

Where every gate comes about as a conjunction, the hash table knows all gates, whatever else is
added and whether operations are denied or not. Such a graph is structurally hashed. A graph of any
origin can be the start of one, once it has been hashed as a whole.
-/

namespace AndInverter

open AndInverter.Graph

namespace Build

variable {a b c d : Edge}

theorem keeps_and_fullyHashed (a b : Edge) : Keeps FullyHashed (and a b) := fun g hg =>
  (ensures_and g a b).mono (fun _ _ h => hg.conjoins h) fun _ _ h => h.1 ▸ hg

theorem keeps_or_fullyHashed (a b : Edge) : Keeps FullyHashed (or a b) :=
  (keeps_and_fullyHashed _ _).bind fun _ => Keeps.result _

theorem keeps_or_of_ands_fullyHashed (a b c d : Edge) :
    Keeps FullyHashed (do or (← and a b) (← and c d)) :=
  (keeps_and_fullyHashed a b).bind fun _ => (keeps_and_fullyHashed c d).bind fun _ =>
    keeps_or_fullyHashed _ _

theorem keeps_input_fullyHashed (name : Option String) : Keeps FullyHashed (input name) :=
  fun g hg => Ensures.updateGet (hg.push (m := .input g.numInputs) rfl rfl rfl)

theorem keeps_output_fullyHashed (e : Edge) (name : Option String) :
    Keeps FullyHashed (output e name) := by
  intro g hg
  refine (ensures_output g e name).mono ?_ fun _ _ h => h.1 ▸ hg
  rintro i g' ⟨-, hi⟩
  cases hi
  exact hg.push (m := .output g.numOutputs e) rfl rfl rfl

end Build

namespace Graph

variable {g g' : Graph} {i : Nat} {name : String}

theorem FullyHashed.renameInput (h : g.FullyHashed) (hr : g.renameInput i name = .ok g') :
    g'.FullyHashed := by
  simp only [Graph.renameInput] at hr
  split at hr
  · cases hr
    exact h
  · cases hr

theorem FullyHashed.renameOutput (h : g.FullyHashed) (hr : g.renameOutput i name = .ok g') :
    g'.FullyHashed := by
  simp only [Graph.renameOutput] at hr
  split at hr
  · cases hr
    exact h
  · cases hr

theorem WellFormed.rehash_fullyHashed (hg : g.WellFormed) (hr : g.rehash = .ok g') :
    g'.FullyHashed := by
  obtain ⟨h, images, hok, hh⟩ := rehash_eq_ok hg
  rw [hok] at hr
  cases hr
  exact hh.fullyHashed

/-- The graphs that can be built from the empty one, or from one that has been hashed as a whole,
without a gate that is left as it stands. The state that a denied operation leaves counts too. -/
inductive BuiltByHashing : Graph → Prop where
  | empty : BuiltByHashing .empty
  | rehash {g g' : Graph} (h : g.Built) (hr : g.rehash = .ok g') : BuiltByHashing g'
  | input {g : Graph} (h : BuiltByHashing g) (name : Option String) :
    BuiltByHashing ((Build.input name).run g).2
  | output {g : Graph} (h : BuiltByHashing g) (e : Edge) (name : Option String) :
    BuiltByHashing ((Build.output e name).run g).2
  | and {g : Graph} (h : BuiltByHashing g) (a b : Edge) : BuiltByHashing ((Build.and a b).run g).2
  | or {g : Graph} (h : BuiltByHashing g) (a b : Edge) : BuiltByHashing ((Build.or a b).run g).2
  | xor {g : Graph} (h : BuiltByHashing g) (a b : Edge) : BuiltByHashing ((Build.xor a b).run g).2
  | mux {g : Graph} (h : BuiltByHashing g) (s t e : Edge) :
    BuiltByHashing ((Build.mux s t e).run g).2
  | renameInput {g g' : Graph} (h : BuiltByHashing g) {i : Nat} {name : String}
    (hr : g.renameInput i name = .ok g') : BuiltByHashing g'
  | renameOutput {g g' : Graph} (h : BuiltByHashing g) {i : Nat} {name : String}
    (hr : g.renameOutput i name = .ok g') : BuiltByHashing g'

namespace BuiltByHashing

theorem built (h : g.BuiltByHashing) : g.Built := by
  induction h with
  | empty => exact .empty
  | rehash h hr => exact .rehash h hr
  | input _ name ih => exact .input ih name
  | output _ e name ih => exact .output ih e name
  | and _ a b ih => exact .and ih a b
  | or _ a b ih => exact .or ih a b
  | xor _ a b ih => exact .xor ih a b
  | mux _ s t e ih => exact .mux ih s t e
  | renameInput _ hr ih => exact .renameInput ih hr
  | renameOutput _ hr ih => exact .renameOutput ih hr

theorem fullyHashed (h : g.BuiltByHashing) : g.FullyHashed := by
  induction h with
  | empty => exact fullyHashed_empty
  | rehash h hr => exact h.wellFormed.rehash_fullyHashed hr
  | input _ name ih => exact (Build.keeps_input_fullyHashed name).final ih
  | output _ e name ih => exact (Build.keeps_output_fullyHashed e name).final ih
  | and _ a b ih => exact (Build.keeps_and_fullyHashed a b).final ih
  | or _ a b ih => exact (Build.keeps_or_fullyHashed a b).final ih
  | xor _ a b ih => exact (Build.keeps_or_of_ands_fullyHashed a _ _ b).final ih
  | mux _ s t e ih => exact (Build.keeps_or_of_ands_fullyHashed s t _ e).final ih
  | renameInput _ hr ih => exact ih.renameInput hr
  | renameOutput _ hr ih => exact ih.renameOutput hr

end BuiltByHashing

theorem conjoined_builtByHashing : conjoined.BuiltByHashing := by
  have h : ((Build.mux ⟨1, false⟩ ⟨2, false⟩ ⟨9, false⟩).run twoInputs).2.BuiltByHashing :=
    .mux (.input (.input .empty _) _) _ _ _
  rwa [run_mux_twoInputs] at h

namespace BuiltByHashing

/-- A graph that is built with hashing only is structurally hashed: no gate has a constant fanin or
two fanins on one node, and no two gates have the same pair of fanins, in either order. -/
theorem stays_hashed (h : g.BuiltByHashing) : g.isHashed = true ∧
    (∀ (id : Nat) (a b : Edge), g.nodes[id]? = some (.gate a b) →
      a.node ≠ 0 ∧ b.node ≠ 0 ∧ a.node ≠ b.node) ∧
    ∀ (id id' : Nat) (a b a' b' : Edge), g.nodes[id]? = some (.gate a b) →
      g.nodes[id']? = some (.gate a' b') → (a' = a ∧ b' = b ∨ a' = b ∧ b' = a) → id' = id := by
  have hg := h.built.wellFormed
  have hhashed := h.fullyHashed.isHashed hg
  refine ⟨hhashed, fun id a b hn => ?_, fun id id' a b a' b' hn hn' hpair => ?_⟩
  · exact properPair_eq_true.mp (hg.hashed_gate (h.fullyHashed id a b hn)).2.2
  · refine (isHashed_iff.mp hhashed).2 hn' hn ?_
    rcases hpair with ⟨rfl, rfl⟩ | ⟨rfl, rfl⟩
    · rfl
    · exact Edge.sorted_comm _ _

/-- A denied choice leaves a gate behind, and the graph is hashed all the same. -/
theorem stays_hashed_conjoined :
    ((Build.mux ⟨1, false⟩ ⟨2, false⟩ ⟨9, false⟩).run twoInputs).2.BuiltByHashing ∧
    conjoined.BuiltByHashing ∧ conjoined.numGates = 1 ∧ conjoined.isHashed = true ∧
    ∀ (id : Nat) (a b : Edge), conjoined.nodes[id]? = some (.gate a b) →
      a.node ≠ 0 ∧ b.node ≠ 0 ∧ a.node ≠ b.node := by
  obtain ⟨hhashed, hproper, -⟩ := stays_hashed conjoined_builtByHashing
  exact ⟨run_mux_twoInputs ▸ conjoined_builtByHashing, conjoined_builtByHashing, rfl, hhashed,
    hproper⟩

end BuiltByHashing

end Graph

end AndInverter
