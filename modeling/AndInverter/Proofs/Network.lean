import AndInverter.Network
import AndInverter.Proofs.Graph.Rehashing
import AndInverter.Proofs.Unateness.Diagrams

/-!
# Networks that are hashed and collapsed

Hashing and collapsing may be mixed in any order, with collapses that fail and questions in between.
The graph keeps its inputs, outputs and functions, and diagrams that were built once show the
outputs of the graph as it is now.
-/

namespace AndInverter

open Clausal AndInverter.Graph

variable {g h : Graph} {n : Network} {bits output input : Nat} {d : OutputDiagrams}

theorem Graph.Agrees.truthFunction_eq (ha : g.Agrees h) (output : Nat) :
    h.truthFunction output = g.truthFunction output := by
  funext x
  rw [truthFunction, truthFunction, ha.eval_eq, ha.numInputs_eq]

theorem OutputDiagrams.Shows.of_agrees (hd : d.Shows g bits) (ha : g.Agrees h) :
    d.Shows h bits where
  wellFormed := hd.wellFormed
  capacity_eq := hd.capacity_eq
  numInputs_eq := hd.numInputs_eq.trans ha.numInputs_eq.symm
  size_eq := hd.size_eq.trans ha.numOutputs_eq.symm
  denotes hout := by
    rw [ha.truthFunction_eq]
    exact hd.denotes (ha.numOutputs_eq ▸ hout)

/-- The diagrams of a graph are never taken for those of another one. -/
theorem OutputDiagrams.Shows.not_foreign (hd : d.Shows g bits) (output input : Nat) :
    (d.classify g output input).1 ≠ .error (.fault .foreignDiagrams) := by
  intro hforeign
  by_cases hout : output < g.numOutputs
  · by_cases hin : input < g.numInputs
    · have hanswer := (hd.classify output input).2 hout hin
      rw [hforeign] at hanswer
      obtain ⟨⟨stage, hstage⟩, -⟩ := hanswer
      cases hstage
    · rw [classify_of_not_input d hout hin] at hforeign
      cases hforeign
  · rw [classify_of_not_output d hout] at hforeign
    cases hforeign

namespace NetworkM

theorem run_rehash (hr : n.graph.rehash = .ok h) :
    rehash.run n = (.ok (), { n with graph := h }) := by
  change (ofExcept (n.graph.rehash.mapError .fault) >>= fun g =>
    (modify ({ · with graph := g }) : NetworkM Unit)).run n = _
  rw [hr]
  rfl

theorem run_collapse_of_ok (hd : OutputDiagrams.ofGraph n.graph bits = .ok d) :
    (collapse bits).run n = (.ok (), { n with diagrams := some d }) := by
  change (ofExcept (OutputDiagrams.ofGraph n.graph bits) >>= fun d =>
    (modify ({ · with diagrams := some d }) : NetworkM Unit)).run n = _
  rw [hd]
  rfl

theorem run_collapse_of_error {e : Failure} (he : OutputDiagrams.ofGraph n.graph bits = .error e) :
    (collapse bits).run n = (.error e, n) := by
  change (ofExcept (OutputDiagrams.ofGraph n.graph bits) >>= fun d =>
    (modify ({ · with diagrams := some d }) : NetworkM Unit)).run n = _
  rw [he]
  rfl

theorem graph_collapse (n : Network) (bits : Nat) :
    ((collapse bits).run n).2.graph = n.graph := by
  cases hd : OutputDiagrams.ofGraph n.graph bits with
  | ok d => rw [run_collapse_of_ok hd]
  | error e => rw [run_collapse_of_error hd]

theorem keeps_ofExcept {α : Type} (P : Network → Prop) (x : Except Failure α) :
    Keeps P (ofExcept x) := by
  cases x with
  | ok a => exact Keeps.result a
  | error e => exact Keeps.failure e

theorem keeps_requireMethod (P : Network → Prop) (method : Method) :
    Keeps P (requireMethod method) := by
  intro n hn
  refine Ensures.bindGet ?_
  cases method with
  | satisfiability =>
    dsimp only
    split
    · exact Ensures.failure hn
    · exact Ensures.result hn
  | diagrams =>
    dsimp only
    split
    · exact Ensures.failure hn
    · exact Ensures.result hn

end NetworkM

namespace Network

/-- The networks that a graph becomes by hashing, collapsing and questions, in any order and with
any outcome. -/
inductive Reached (g : Graph) : Network → Prop where
  | start : Reached g ⟨g, none⟩
  | rehash {n : Network} (h : Reached g n) : Reached g (NetworkM.rehash.run n).2
  | collapse {n : Network} (h : Reached g n) (bits : Nat) :
    Reached g ((NetworkM.collapse bits).run n).2
  | classify {σ : Type} {n : Network} (h : Reached g n) (s : Solver σ) (output input : Nat)
    (method : Method) : Reached g ((NetworkM.classify s output input method).run n).2

/-- The graph agrees with the one at the start, and the diagrams, if there are any, show the outputs
of the graph as it is now. -/
structure Current (g : Graph) (n : Network) : Prop where
  built : n.graph.Built
  agrees : g.Agrees n.graph
  shows {d : OutputDiagrams} : n.diagrams = some d → ∃ bits, d.Shows n.graph bits

namespace Current

theorem start (hg : g.Built) : Current g ⟨g, none⟩ where
  built := hg
  agrees := .refl g
  shows h := by cases h

theorem exists_rehash (hn : n.Current g) : ∃ h, n.graph.rehash = .ok h ∧
    n.graph.Agrees h ∧ Current g { n with graph := h } := by
  obtain ⟨h, images, hok, hh⟩ := rehash_eq_ok hn.built.wellFormed
  have hagrees := hh.agrees hn.built.wellFormed
  refine ⟨h, hok, hagrees, hn.built.rehash hok, hn.agrees.trans hagrees, fun hd => ?_⟩
  obtain ⟨bits, hshows⟩ := hn.shows hd
  exact ⟨bits, hshows.of_agrees hagrees⟩

theorem collapse (hn : Current g n) (bits : Nat) :
    Current g ((NetworkM.collapse bits).run n).2 := by
  cases hd : OutputDiagrams.ofGraph n.graph bits with
  | ok d =>
    rw [NetworkM.run_collapse_of_ok hd]
    refine ⟨hn.built, hn.agrees, fun heq => ?_⟩
    cases heq
    exact ⟨bits, (OutputDiagrams.ofGraph_yields hn.built.wellFormed bits).of_eq_ok hd⟩
  | error e =>
    rw [NetworkM.run_collapse_of_error hd]
    exact hn

theorem keeps_classifyByDiagrams (g : Graph) (output input : Nat) :
    Keeps (Current g) (NetworkM.classifyByDiagrams output input) := by
  rintro ⟨graph, _ | d⟩ hn
  · exact hn
  · obtain ⟨bits, hshows⟩ := hn.shows rfl
    refine Ensures.of_final ⟨hn.built, hn.agrees, fun heq => ⟨bits, ?_⟩⟩
    cases heq
    exact (hshows.classify output input).1

theorem keeps_classify {σ : Type} (g : Graph) (s : Solver σ) (output input : Nat)
    (method : Method) : Keeps (Current g) (NetworkM.classify s output input method) := by
  intro n hn
  refine Ensures.bindGet ?_
  refine (NetworkM.keeps_ofExcept _ _ n hn).bind fun _ n hn => ?_
  refine (NetworkM.keeps_ofExcept _ _ n hn).bind fun _ n hn => ?_
  refine (NetworkM.keeps_requireMethod _ method n hn).bind fun _ n hn => ?_
  cases method with
  | satisfiability => exact NetworkM.keeps_ofExcept _ _ n hn
  | diagrams => exact keeps_classifyByDiagrams g output input n hn

end Current

theorem Reached.current (hg : g.Built) (h : Reached g n) : Current g n := by
  induction h with
  | start => exact .start hg
  | rehash _ ih =>
    obtain ⟨h, hok, -, hcurrent⟩ := ih.exists_rehash
    rw [NetworkM.run_rehash hok]
    exact hcurrent
  | collapse _ bits ih => exact ih.collapse bits
  | classify _ s output input method ih =>
    exact (Current.keeps_classify g s output input method).final ih

/-- Hashing succeeds and changes no output. Diagrams that are attached have one reference for each
output, to the function that the output has now. A failed collapse changes nothing. -/
theorem Reached.diagrams_current (hg : g.Built) (h : Reached g n) :
    g.Agrees n.graph ∧
    (∃ g', NetworkM.rehash.run n = (.ok (), { n with graph := g' }) ∧ n.graph.Agrees g') ∧
    (∀ d, n.diagrams = some d →
      d.functions.size = n.graph.numOutputs ∧ d.numInputs = n.graph.numInputs ∧
      (∀ output < n.graph.numOutputs, ∃ f, d.functions[output]? = some f ∧ d.store.Holds f ∧
        ∀ y, ∃ outputs, n.graph.eval (n.graph.assignmentOf fun i => y (i + 1)) = .ok outputs ∧
          outputs[output]? = some (d.store.eval y f)) ∧
      ∀ output input, (d.classify n.graph output input).1 ≠ .error (.fault .foreignDiagrams)) ∧
    ∀ bits e n', (NetworkM.collapse bits).run n = (.error e, n') → n' = n := by
  have hcurrent := h.current hg
  obtain ⟨g', hok, hagrees, -⟩ := hcurrent.exists_rehash
  refine ⟨hcurrent.agrees, ⟨g', NetworkM.run_rehash hok, hagrees⟩, fun d hd => ?_,
    fun bits e n' hrun => ?_⟩
  · obtain ⟨bits, hshows⟩ := hcurrent.shows hd
    refine ⟨hshows.size_eq, hshows.numInputs_eq, fun output hout => ?_, hshows.not_foreign⟩
    obtain ⟨f, hf, hden⟩ := hshows.denotes hout
    refine ⟨f, hf, hden.holds, fun y => ?_⟩
    rw [hden.eval_eq]
    exact exists_eval _ hout
  · cases hd : OutputDiagrams.ofGraph n.graph bits with
    | ok d =>
      rw [NetworkM.run_collapse_of_ok hd] at hrun
      cases hrun
    | error e =>
      rw [NetworkM.run_collapse_of_error hd] at hrun
      cases hrun
      rfl

def hashedLate : Network := (NetworkM.rehash.run ((NetworkM.collapse 3).run ⟨duplicated, none⟩).2).2

/-- The diagrams stay when the graph is hashed, and when a later collapse has too many bits. -/
theorem Reached.diagrams_current_hashedLate : duplicated.Built ∧ Reached duplicated hashedLate ∧
    ∃ d, hashedLate.diagrams = some d ∧ d.functions.size = 1 ∧
      ((NetworkM.collapse 40).run hashedLate).2 = hashedLate := by
  have hcollapsed : Reached duplicated ((NetworkM.collapse 3).run ⟨duplicated, none⟩).2 :=
    .collapse .start 3
  have hsome : ((NetworkM.collapse 3).run ⟨duplicated, none⟩).2.diagrams.isSome = true := by
    decide +kernel
  obtain ⟨d, hd⟩ := Option.isSome_iff_exists.mp hsome
  obtain ⟨-, ⟨g', hrun, -⟩, -, -⟩ := Reached.diagrams_current duplicated_built hcollapsed
  have hreached : Reached duplicated hashedLate := .rehash hcollapsed
  have hkept : hashedLate.diagrams = some d := by rw [hashedLate, hrun, hd]
  obtain ⟨hagrees, -, hdiagrams, -⟩ := Reached.diagrams_current duplicated_built hreached
  have hrefused : (NetworkM.collapse 40).run hashedLate =
    (.error (.error (.storageBits 40)), hashedLate) := NetworkM.run_collapse_of_error rfl
  refine ⟨duplicated_built, hreached, d, hkept, ?_, ?_⟩
  · rw [(hdiagrams d hkept).1, hagrees.numOutputs_eq]
    decide
  · rw [hrefused]

end Network

end AndInverter
