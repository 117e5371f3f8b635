import AndInverter.Proofs.Diagram.Reached
import AndInverter.Proofs.Network
import AndInverter.Proofs.Unateness.Satisfiability

/-!
# Queries about a network

A query is refused if the output, the input or the form of the network does not fit, in this order.
Any other query is answered, unless the store of the diagrams fills up or the solver gives out. No
query ends in a fault, and the graph and the functions of the outputs stay what they are.
-/

namespace AndInverter

open Clausal NetworkM

variable {σ : Type} {g : Graph} {n n' : Network} {s : Solver σ} {output input : Nat}
  {method : Method} {e : Error}

/-- The error that a query is refused with before it begins. -/
def Network.refusal? (n : Network) (output input : Nat) (method : Method) : Option Error :=
  if n.graph.numOutputs ≤ output then some (.outputOutOfRange output n.graph.numOutputs)
  else if n.graph.numInputs ≤ input then some (.inputOutOfRange input n.graph.numInputs)
  else if method = .satisfiability ∧ n.graph.isHashed = false then some .notHashed
  else if method = .diagrams ∧ n.diagrams.isNone then some .noDiagrams
  else none

theorem Network.refusal?_eq_none_iff : n.refusal? output input method = none ↔
    output < n.graph.numOutputs ∧ input < n.graph.numInputs ∧
      ¬ (method = .satisfiability ∧ n.graph.isHashed = false) ∧
      ¬ (method = .diagrams ∧ n.diagrams.isNone) := by
  unfold Network.refusal?
  split
  · exact ⟨fun h => (by cases h), fun h => (by omega)⟩
  · rename_i hout
    rw [and_iff_right (Nat.not_le.mp hout)]
    split
    · exact ⟨fun h => (by cases h), fun h => (by omega)⟩
    · rename_i hin
      rw [and_iff_right (Nat.not_le.mp hin)]
      split
      · rename_i hhashed
        exact ⟨fun h => (by cases h), fun h => absurd hhashed h.1⟩
      · rename_i hhashed
        rw [and_iff_right hhashed]
        split
        · rename_i hnone
          exact ⟨fun h => (by cases h), fun h => absurd hnone h⟩
        · rename_i hnone
          exact ⟨fun _ => hnone, fun _ => rfl⟩

/-- The graph is the same, and the references to the outputs are held and have the same functions as
before. -/
structure Network.Retains (n n' : Network) : Prop where
  graph_eq : n'.graph = n.graph
  isSome_iff : n'.diagrams.isSome = n.diagrams.isSome
  keeps {d d' : OutputDiagrams} : n.diagrams = some d → n'.diagrams = some d' →
    d'.functions = d.functions ∧ d'.numInputs = d.numInputs ∧
      (∀ f ∈ d.functions, d.store.Holds f) ∧ d.store.Preserves d'.store

namespace NetworkM

theorem run_ofExcept_of_error {α : Type} {x : Except Failure α} {e : Failure} (h : x = .error e)
    (n : Network) : (ofExcept x).run n = (.error e, n) := by
  rw [h]
  rfl

theorem run_ofExcept_of_ok {α : Type} {x : Except Failure α} {a : α} (h : x = .ok a)
    (n : Network) : (ofExcept x).run n = (.ok a, n) := by
  rw [h]
  rfl

theorem run_requireMethod (n : Network) (method : Method) : (requireMethod method).run n =
    (if method = .satisfiability ∧ n.graph.isHashed = false then .error (.error .notHashed)
      else if method = .diagrams ∧ n.diagrams.isNone then .error (.error .noDiagrams)
      else .ok (), n) := by
  cases method with
  | satisfiability =>
    change ((if !n.graph.isHashed then throw (.error .notHashed) else pure () :
      NetworkM Unit)).run n = _
    cases n.graph.isHashed with
    | false => rfl
    | true => rfl
  | diagrams =>
    change ((if n.diagrams.isNone then throw (.error .noDiagrams) else pure () :
      NetworkM Unit)).run n = _
    cases n.diagrams with
    | none => rfl
    | some d => rfl

/-- The requirements of a query refuse it or let it begin, and change nothing. -/
theorem run_requirements (n : Network) (output input : Nat) (method : Method)
    (k : PUnit → NetworkM Verdict) :
    (ofExcept (n.graph.requireOutput output) >>= fun _ =>
      ofExcept (n.graph.requireInput input) >>= fun _ => requireMethod method >>= k).run n =
      (n.refusal? output input method).elim ((k ⟨⟩).run n) fun e => (.error (.error e), n) := by
  unfold Network.refusal?
  split
  · rename_i hout
    exact run_bind_of_error (run_ofExcept_of_error (if_neg (Nat.not_lt.mpr hout)) n)
  · rename_i hout
    refine (run_bind_of_ok (run_ofExcept_of_ok (if_pos (Nat.not_le.mp hout)) n)).trans ?_
    split
    · rename_i hin
      exact run_bind_of_error (run_ofExcept_of_error (if_neg (Nat.not_lt.mpr hin)) n)
    · rename_i hin
      refine (run_bind_of_ok (run_ofExcept_of_ok (if_pos (Nat.not_le.mp hin)) n)).trans ?_
      rw [run_bind_eq, run_requireMethod]
      by_cases hhashed : method = .satisfiability ∧ n.graph.isHashed = false
      · rw [if_pos hhashed, if_pos hhashed]
        rfl
      · rw [if_neg hhashed, if_neg hhashed]
        by_cases hnone : method = .diagrams ∧ n.diagrams.isNone
        · rw [if_pos hnone, if_pos hnone]
          rfl
        · rw [if_neg hnone, if_neg hnone]
          rfl

variable (s : Solver σ)

/-- A refused query does nothing. -/
theorem run_classify_of_refusal (h : n.refusal? output input method = some e) :
    (classify s output input method).run n = (.error (.error e), n) := by
  refine (run_requirements n output input method _).trans ?_
  rw [h]
  rfl

theorem run_classify_diagrams (h : n.refusal? output input .diagrams = none) :
    (classify s output input .diagrams).run n = (classifyByDiagrams output input).run n := by
  refine (run_requirements n output input .diagrams _).trans ?_
  rw [h]
  rfl

theorem run_classify_satisfiability (h : n.refusal? output input .satisfiability = none) :
    (classify s output input .satisfiability).run n =
      (ConeCopies.ofOutput n.graph output >>= fun c => (c.classify s input).answer s, n) := by
  refine (run_requirements n output input .satisfiability _).trans ?_
  rw [h]
  change (ofExcept (ConeCopies.ofOutput n.graph output >>= fun c =>
    (c.classify s input).answer s)).run n = _
  cases ConeCopies.ofOutput n.graph output >>= fun c => (c.classify s input).answer s with
  | ok v => rfl
  | error e => rfl

end NetworkM

namespace Network.Current

theorem retains (hn : n.Current g) : n.Retains n := by
  refine ⟨rfl, rfl, fun hd hd' => ?_⟩
  obtain ⟨bits, hshows⟩ := hn.shows hd
  rw [hd] at hd'
  cases hd'
  exact ⟨rfl, rfl, fun f hf => hshows.holds hf, fun _ hr => ⟨hr, fun _ => rfl⟩⟩

/-- The solver answers a query that is not refused, unless it gives out. -/
theorem classify_satisfiability (hn : n.Current g)
    (h : n.refusal? output input .satisfiability = none) (s : Solver σ) :
    (∃ v, (classify s output input .satisfiability).run n = (.ok v, n)) ∨
    ∃ c reason, ConeCopies.ofOutput n.graph output = .ok c ∧ s.GivesOut c.formula reason ∧
      (classify s output input .satisfiability).run n =
        (.error (.error (.inconclusive output input reason)), n) := by
  obtain ⟨hout, hin, -, -⟩ := Network.refusal?_eq_none_iff.mp h
  have hwf := hn.built.wellFormed
  obtain ⟨c, hok, hc⟩ := ConeCopies.ofOutput_covers hwf hout
  have hquery := ConeCopies.classify_finds (s := s) hwf hc .start hin
  rw [run_classify_satisfiability s h, hok, Except.ok_bind]
  unfold ConeCopies.Query.answer
  simp only [Ensures] at hquery
  split at hquery
  · rename_i v t hrun
    rw [hrun]
    exact .inl ⟨v, rfl⟩
  · rename_i e t hrun
    obtain ⟨-, reason, rfl, hgives⟩ := hquery
    rw [hrun, hc.output_eq]
    exact .inr ⟨c, reason, rfl, hgives, rfl⟩

/-- The diagrams answer a query that is not refused, unless their store fills up. -/
theorem classify_diagrams (hn : n.Current g) (h : n.refusal? output input .diagrams = none)
    (s : Solver σ) :
    ∃ n', n.Retains n' ∧
      ((∃ v, (classify s output input .diagrams).run n = (.ok v, n')) ∨
        ∃ stage d', n'.diagrams = some d' ∧ d'.store.size + 1 = d'.store.capacity ∧
          (classify s output input .diagrams).run n =
            (.error (.error (.nodeLimit stage d'.store.capacity)), n')) := by
  obtain ⟨hout, hin, -, hsome⟩ := Network.refusal?_eq_none_iff.mp h
  rw [run_classify_diagrams s h]
  obtain ⟨graph, _ | d⟩ := n
  · exact absurd ⟨rfl, rfl⟩ hsome
  · obtain ⟨bits, hshows⟩ := hn.shows rfl
    obtain ⟨f, hf, hden⟩ := hshows.denotes hout
    have hquery := hshows.comparison_grows hin output hden
    have hrun : (classifyByDiagrams output input).run ⟨graph, some d⟩ =
        ((d.classify graph output input).1, ⟨graph, some (d.classify graph output input).2⟩) := rfl
    rw [hrun, hshows.classify_eq hout hin hf]
    dsimp only
    let query := compareCofactors (OutputDiagrams.frame d.numInputs) f (input + 1) output input
    refine ⟨⟨graph, some ⟨(query.run d.store).2, d.functions, d.numInputs⟩⟩,
      ⟨rfl, rfl, fun hd hd' => ?_⟩, ?_⟩
    · cases hd
      cases hd'
      exact ⟨rfl, rfl, fun f hf => hshows.holds hf,
        hquery.final_extends.1.preserves hshows.wellFormed.toReduced⟩
    · simp only [Grows, Ensures] at hquery
      split at hquery
      · rename_i v s' hrun
        rw [hrun]
        exact .inl ⟨v, rfl⟩
      · rename_i e s' hrun
        obtain ⟨stage, rfl⟩ := hquery.isFull
        rw [hrun]
        refine .inr ⟨stage, _, rfl, hquery.size_eq, ?_⟩
        rw [hquery.grows.capacity_eq]

/-- A query that is not refused is answered, or ends with an exhausted resource. -/
theorem classify_answers (hn : n.Current g) (h : n.refusal? output input method = none)
    (s : Solver σ) :
    ∃ r n', (classify s output input method).run n = (r, n') ∧ n.Retains n' ∧
      (∀ f, r = .error f → ∃ e, f = .error e ∧ e.kind = .exhausted) ∧
      ((∃ v, r = .ok v) ∨
        (method = .diagrams ∧ ∃ stage d, n'.diagrams = some d ∧
          d.store.size + 1 = d.store.capacity ∧
          r = .error (.error (.nodeLimit stage d.store.capacity))) ∨
        method = .satisfiability ∧ ∃ c reason, ConeCopies.ofOutput n.graph output = .ok c ∧
          s.GivesOut c.formula reason ∧
          r = .error (.error (.inconclusive output input reason))) := by
  have hexhausted (e : Error) (he : e.kind = .exhausted) (f : Failure)
      (hf : (.error (.error e) : Except Failure Verdict) = .error f) :
      ∃ e, f = .error e ∧ e.kind = .exhausted := by
    cases hf
    exact ⟨e, rfl, he⟩
  cases method with
  | satisfiability =>
    rcases hn.classify_satisfiability h s with ⟨v, hrun⟩ | ⟨c, reason, hok, hgives, hrun⟩
    · exact ⟨_, n, hrun, hn.retains, nofun, .inl ⟨v, rfl⟩⟩
    · exact ⟨_, n, hrun, hn.retains, hexhausted _ rfl,
        .inr (.inr ⟨rfl, c, reason, hok, hgives, rfl⟩)⟩
  | diagrams =>
    obtain ⟨n', hretains, ⟨v, hrun⟩ | ⟨stage, d, hd, hsize, hrun⟩⟩ := hn.classify_diagrams h s
    · exact ⟨_, n', hrun, hretains, nofun, .inl ⟨v, rfl⟩⟩
    · exact ⟨_, n', hrun, hretains, hexhausted _ rfl,
        .inr (.inl ⟨rfl, stage, d, hd, hsize, rfl⟩)⟩

end Network.Current

namespace Network

theorem kind_of_refusal (h : n.refusal? output input method = some e) : e.kind ≠ .exhausted := by
  unfold refusal? at h
  split at h
  · cases h
    exact nofun
  · split at h
    · cases h
      exact nofun
    · split at h
      · cases h
        exact nofun
      · split at h
        · cases h
          exact nofun
        · cases h

/-- Every query ends with an answer or an error, never with a fault, and retains the network. It is
refused for the first requirement that fails. Beyond that the diagrams fail only if their store is
full, and the solver only if it gives out. -/
theorem Reached.classify_outcome (hg : g.Built) (hn : Reached g n) (s : Solver σ)
    (output input : Nat) (method : Method) :
    ∃ r n', (NetworkM.classify s output input method).run n = (r, n') ∧ n.Retains n' ∧
      (∀ f, r ≠ .error (.fault f)) ∧
      (∀ e, r = .error (.error e) ∧ e.kind ≠ .exhausted ↔
        n.refusal? output input method = some e) ∧
      (n.refusal? output input method = none → (∃ v, r = .ok v) ∨
        (method = .diagrams ∧ ∃ stage d, n'.diagrams = some d ∧
          d.store.size + 1 = d.store.capacity ∧
          r = .error (.error (.nodeLimit stage d.store.capacity))) ∨
        method = .satisfiability ∧ ∃ c reason, ConeCopies.ofOutput n.graph output = .ok c ∧
          s.GivesOut c.formula reason ∧
          r = .error (.error (.inconclusive output input reason))) := by
  have hcurrent := hn.current hg
  cases hrefusal : n.refusal? output input method with
  | some e =>
    refine ⟨_, n, run_classify_of_refusal s hrefusal, hcurrent.retains, nofun, fun e' => ?_, nofun⟩
    constructor
    · rintro ⟨h, -⟩
      cases h
      rfl
    · intro h
      cases h
      exact ⟨rfl, kind_of_refusal hrefusal⟩
  | none =>
    obtain ⟨r, n', hrun, hretains, hexhausted, hanswers⟩ := hcurrent.classify_answers hrefusal s
    refine ⟨r, n', hrun, hretains, fun f h => ?_, fun e => ?_, fun _ => hanswers⟩
    · obtain ⟨e, he, -⟩ := hexhausted _ h
      cases he
    · refine ⟨fun ⟨h, hkind⟩ => ?_, nofun⟩
      obtain ⟨_, he, hexhausted⟩ := hexhausted _ h
      cases he
      exact absurd hexhausted hkind

/-- The first requirement that fails is reported, and the solver answers once the graph is
hashed. -/
theorem Reached.classify_outcome_duplicated : Graph.duplicated.Built ∧
    Reached .duplicated ⟨.duplicated, none⟩ ∧
    ((NetworkM.classify .branching 1 2 .diagrams).run ⟨.duplicated, none⟩).1 =
      .error (.error (.outputOutOfRange 1 1)) ∧
    ((NetworkM.classify .branching 0 2 .satisfiability).run ⟨.duplicated, none⟩).1 =
      .error (.error (.inputOutOfRange 2 2)) ∧
    ((NetworkM.classify .branching 0 1 .satisfiability).run ⟨.duplicated, none⟩).1 =
      .error (.error .notHashed) ∧
    ∃ v, ((NetworkM.classify .branching 0 1 .satisfiability).run
      (NetworkM.rehash.run ⟨.duplicated, none⟩).2).1 = .ok v := by
  have hbuilt := Graph.duplicated_built
  have hrefused (output input : Nat) (method : Method) (e : Error)
      (h : refusal? ⟨.duplicated, none⟩ output input method = some e) :
      ((NetworkM.classify .branching output input method).run ⟨.duplicated, none⟩).1 =
        .error (.error e) := by
    obtain ⟨r, n', hrun, -, -, hiff, -⟩ :=
      Reached.classify_outcome hbuilt .start .branching output input method
    rw [hrun]
    exact ((hiff e).mpr h).1
  have hnothashed : refusal? ⟨.duplicated, none⟩ 0 1 .satisfiability = some .notHashed := by
    unfold refusal?
    rw [Graph.isHashed_duplicated]
    rfl
  refine ⟨hbuilt, .start, hrefused 1 2 .diagrams _ rfl, hrefused 0 2 .satisfiability _ rfl,
    hrefused 0 1 .satisfiability _ hnothashed, ?_⟩
  obtain ⟨h, images, hok, hh⟩ := Graph.rehash_eq_ok hbuilt.wellFormed
  have hagrees := hh.agrees hbuilt.wellFormed
  have hanswered : refusal? ⟨h, none⟩ 0 1 .satisfiability = none := by
    rw [refusal?_eq_none_iff, hagrees.numInputs_eq, hagrees.numOutputs_eq,
      hh.fullyHashed.isHashed hh.wellFormed]
    exact ⟨by decide, by decide, by simp, by simp⟩
  have hrun : NetworkM.rehash.run ⟨.duplicated, none⟩ = (.ok (), ⟨h, none⟩) :=
    NetworkM.run_rehash (n := ⟨.duplicated, none⟩) hok
  have hreached : Reached .duplicated (NetworkM.rehash.run ⟨.duplicated, none⟩).2 := .rehash .start
  rw [hrun] at hreached ⊢
  obtain ⟨r, n', hquery, -, -, -, hanswers⟩ :=
    Reached.classify_outcome hbuilt hreached .branching 0 1 .satisfiability
  rw [hquery]
  obtain ⟨v, hv⟩ | ⟨hmethod, -⟩ | ⟨-, c, reason, -, hgives, -⟩ := hanswers hanswered
  · exact ⟨v, hv⟩
  · cases hmethod
  · exact absurd hgives (branching_decides.not_givesOut c.formula reason)

end Network

end AndInverter
