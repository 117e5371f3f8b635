import AndInverter.Proofs.Clausal.Decision
import AndInverter.Proofs.Graph.Building
import AndInverter.Proofs.Unateness.Copies
import AndInverter.Proofs.Unateness.Dependence

/-!
# Unateness by satisfiability is exact

A verdict is put together from two answers of the solver, whatever these are worth. With a solver
that decides, every query about an input in range has an answer, and the answer is the dependence
of the output on the input, whatever was asked before.
-/

namespace AndInverter.ConeCopies

open Clausal

variable {σ : Type} {s : Solver σ} {c : ConeCopies} {g : Graph} {e : Edge} {ids : List Nat}
  {t : σ} {i v output : Nat}

inductive Asked (s : Solver σ) (c : ConeCopies) : σ → Prop where
  | start : Asked s c s.start
  | classify {t : σ} (h : Asked s c t) (i : Nat) : Asked s c ((classify s c i).run t).2

theorem unateness_verdict (rising falling : Option Pattern) :
    (verdict output i rising falling).unateness =
      Unateness.ofChanges rising.isSome falling.isSome := by
  cases rising <;> cases falling <;> rfl

theorem output_verdict (rising falling : Option Pattern) :
    (verdict output i rising falling).output = output := by
  cases rising <;> cases falling <;> rfl

theorem input_verdict (rising falling : Option Pattern) :
    (verdict output i rising falling).input = i := by
  cases rising <;> cases falling <;> rfl

/-- Why a query has no answer: the solver gives out on a question about the copies. -/
def GivesUp (s : Solver σ) (c : ConeCopies) (i : Nat) (e : Failure) : Prop :=
  ∃ reason, e = .error (.inconclusive c.output i reason) ∧ s.GivesOut c.formula reason

def question (c : ConeCopies) (e : Edge) (n i v w : Nat) (b : Bool) : List Literal :=
  c.raising i v (n + v) ++ [⟨w, e.complemented ^^ !b⟩, ⟨n + w, e.complemented ^^ b⟩]

theorem question_false (c : ConeCopies) (e : Edge) (n i v w : Nat) :
    c.question e n i v w false = c.raising i v (n + v) ++
      [⟨w, !e.complemented⟩, Literal.complement ⟨n + w, !e.complemented⟩] := by
  rw [question, Literal.complement, Bool.not_false, Bool.xor_true, Bool.xor_false, Bool.not_not]

theorem question_true (c : ConeCopies) (e : Edge) (n i v w : Nat) :
    c.question e n i v w true = c.raising i v (n + v) ++
      [Literal.complement ⟨w, !e.complemented⟩, ⟨n + w, !e.complemented⟩] := by
  rw [question, Literal.complement, Bool.not_true, Bool.xor_true, Bool.xor_false, Bool.not_not]

/-- The solver may have given this answer to a question: that there is no solution, or the pattern
of a model that it found. -/
def Told (s : Solver σ) (c : ConeCopies) (i : Nat) (assumptions : List Literal) :
    Option Pattern → Prop
  | none => ∃ t, s.Reached c.formula t ∧
    ((s.solve c.formula assumptions).run t).1 = .unsatisfiable
  | some p => ∃ t m, s.Reached c.formula t ∧
    ((s.solve c.formula assumptions).run t).1 = .satisfiable m ∧ c.pattern i m = .ok p

/-- How a query comes to its verdict: the output does not depend on the input since it does not
depend on what is outside of its cone, or both questions about the copies are answered. -/
inductive Finds (s : Solver σ) (c : ConeCopies) (g : Graph) (i : Nat) : Verdict → Prop where
  | apart (h : ∀ x, g.truthFunction c.output (Function.update x i false) =
      g.truthFunction c.output (Function.update x i true)) :
    Finds s c g i { output := c.output, input := i, unateness := .independent }
  | asked {e : Edge} {ids : List Nat} {v w : Nat} {falling rising : Option Pattern}
    (h : c.Joins g e ids) (hf : g.truthFunction c.output = fun x => g.edgeValueOf x e)
    (hv : (i, v) ∈ c.encoding.inputs) (hw : ids[w]? = some e.node)
    (hfalling : Told s c i (c.question e ids.length i v w false) falling)
    (hrising : Told s c i (c.question e ids.length i v w true) rising) :
    Finds s c g i (verdict c.output i rising falling)

/-- A question to a solver is answered unless the solver gives out, and the solver can be asked
again. -/
theorem ask_ensures (hpattern : ∀ m, ∃ p, c.pattern i m = .ok p) (ht : s.Reached c.formula t)
    (assumptions : List Literal) :
    Ensures (ask s c i assumptions) t
      (fun p t' => s.Reached c.formula t' ∧ Told s c i assumptions p)
      (fun e t' => s.Reached c.formula t' ∧ GivesUp s c i e) := by
  have hsolve : Ensures (liftM (s.solve c.formula assumptions) : Query σ Outcome) t
      (fun outcome t' => s.Reached c.formula t' ∧
        ((s.solve c.formula assumptions).run t).1 = outcome)
      (fun e t' => s.Reached c.formula t' ∧ GivesUp s c i e) :=
    Ensures.lift ⟨Solver.Reached.solve ht assumptions, rfl⟩
  refine hsolve.bind ?_
  rintro outcome t' ⟨ht', houtcome⟩
  cases outcome with
  | unsatisfiable => exact Ensures.result ⟨ht', t, ht, houtcome⟩
  | satisfiable m =>
    obtain ⟨p, hp⟩ := hpattern m
    apply Ensures.bindExcept (congrArg (Except.mapError Failure.fault) hp)
    exact Ensures.result ⟨ht', t, m, ht, houtcome, hp⟩
  | unknown reason =>
    exact Ensures.failure ⟨ht', reason, rfl, t, assumptions, ht, houtcome⟩

/-- A solver that decides finds a solution exactly if there is one. -/
theorem Told.isSome_iff {assumptions : List Literal} {p : Option Pattern}
    (h : Told s c i assumptions p) (hs : s.Decides) :
    p.isSome = true ↔ ∃ m, IsModel m c.formula assumptions := by
  cases p with
  | none =>
    obtain ⟨t, ht, houtcome⟩ := h
    have hcorrect := hs c.formula t ht assumptions
    rw [houtcome] at hcorrect
    simpa [Solver.Correct] using hcorrect
  | some p =>
    obtain ⟨t, m, ht, houtcome, -⟩ := h
    simpa using ⟨m, hs.givesModels c.formula t ht assumptions m houtcome⟩

theorem isModel_question {m : Nat → Bool} {n w : Nat} {b : Bool} :
    IsModel m c.formula (c.question e n i v w b) ↔ c.formula.eval m = true ∧
      (∀ l ∈ c.raising i v (n + v), l.eval m = true) ∧
      (m w ^^ e.complemented) = (!b) ∧ (m (n + w) ^^ e.complemented) = b := by
  have heval (u : Nat) (b : Bool) :
      Literal.eval m ⟨u, e.complemented ^^ b⟩ = true ↔ (m u ^^ e.complemented) = b := by
    rw [Literal.eval]
    cases m u <;> cases e.complemented <;> cases b <;> simp
  simp only [IsModel, question, List.forall_mem_append, List.forall_mem_cons, heval,
    List.not_mem_nil, false_imp_iff, implies_true, and_true]

theorem exists_isModel_iff (h : c.Joins g e ids) (hv : (i, v) ∈ c.encoding.inputs) {w : Nat}
    (hw : ids[w]? = some e.node) (b : Bool) :
    (∃ m, IsModel m c.formula (c.question e ids.length i v w b)) ↔
      ∃ x, follows (fun x => g.edgeValueOf x e) i b x = true := by
  simp only [isModel_question, h.exists_model_iff hv hw, follows_eq_true_iff]

/-- With a solver that decides, what a query finds is how the output depends on the input. -/
theorem Finds.answers {r : Verdict} (h : Finds s c g i r) (hs : s.Decides) :
    Answers g c.output i r := by
  cases h with
  | apart h => exact ⟨rfl, rfl, fun u => independent_eq_iff h⟩
  | asked h hf hv hw hfalling hrising =>
    refine ⟨output_verdict _ _, input_verdict _ _, fun u => ?_⟩
    rw [unateness_verdict, hf]
    apply ofChanges_eq_iff
    · rw [hrising.isSome_iff hs, exists_isModel_iff h hv hw]
      simp only [follows_true_iff]
    · rw [hfalling.isSome_iff hs, exists_isModel_iff h hv hw]
      simp only [follows_false_iff]

theorem classify_finds_of_mem (hg : g.WellFormed) (h : c.Joins g e ids)
    (ht : s.Reached c.formula t) (hi : i < g.numInputs)
    (hf : g.truthFunction c.output = fun x => g.edgeValueOf x e)
    (hv : (i, v) ∈ c.encoding.inputs) :
    Ensures (classify s c i) t (fun r t' => s.Reached c.formula t' ∧ Finds s c g i r)
      (fun e t' => s.Reached c.formula t' ∧ GivesUp s c i e) := by
  obtain ⟨w, hw, hdriver⟩ := h.represents.driver_eq
  have hy : c.encoding.output? = some ⟨w, !e.complemented⟩ := by
    rw [Encoding.output?, hdriver]
  have hvar := h.varOfInput?_eq_some_iff.mpr hv
  obtain ⟨id, hid, -⟩ := h.represents.inputs_iff.mp hv
  have hpattern (m : Nat → Bool) : ∃ p, c.pattern i m = .ok p :=
    (h.pattern_eq_ok hg hi m).imp' _ fun _ hx => hx.1
  rw [classify]
  simp only [h.graph_eq, if_neg (Nat.not_le_of_lt hi), hy, hvar, h.first_place hid,
    h.second_place hid, h.first_placeLiteral hw, h.second_placeLiteral hw, pure_bind]
  rw [← question_false, ← question_true]
  refine (ask_ensures hpattern ht _).bind ?_
  rintro falling t₁ ⟨ht₁, hfalling⟩
  refine (ask_ensures hpattern ht₁ _).bind ?_
  rintro rising t₂ ⟨ht₂, hrising⟩
  exact Ensures.result ⟨ht₂, .asked h hf hv hw hfalling hrising⟩

structure Covers (c : ConeCopies) (g : Graph) (output : Nat) : Prop where
  graph_eq : c.graph = g
  output_eq : c.output = output
  driven : ∃ e, (g.truthFunction output = fun x => g.edgeValueOf x e) ∧
    (c.encoding.output? = none ∧ (∀ x y, g.edgeValueOf x e = g.edgeValueOf y e) ∨
      ∃ ids, c.Joins g e ids)

theorem ofOutput_covers (hg : g.WellFormed) (hout : output < g.numOutputs) :
    ∃ c, ofOutput g output = .ok c ∧ c.Covers g output := by
  obtain ⟨id, e, hid, hn, hd⟩ := Graph.driver_eq_ok hg hout
  have hf : g.truthFunction output = fun x => g.edgeValueOf x e :=
    funext fun x => Graph.truthFunction_eq hg hid hn
  have hdrives : g.Drives e := hg.drives_fanin hn (List.mem_singleton_self e)
  by_cases he : e.isConstant = true
  · obtain ⟨c, hok, hgraph, houtput, hnone⟩ :=
      ofOutput_eq_ok_of_constant hout (Encoding.ofOutput_eq_ok_of_constant hd he)
    refine ⟨c, hok, hgraph, houtput, e, hf, .inl ⟨hnone, fun x y => ?_⟩⟩
    have hnode : g.nodes[e.node]? = some .constant :=
      hg.constant_iff.mpr (by simpa [Edge.isConstant] using he)
    rw [Graph.edgeValueOf, Graph.edgeValueOf, Graph.valueOf_constant hnode,
      Graph.valueOf_constant hnode]
  · obtain ⟨enc, cone, henc, -, -, hrep, -⟩ :=
      Encoding.ofOutput_eq_ok hg hd hdrives (by simpa using he)
    obtain ⟨c, hok, houtput, hjoins⟩ := ofOutput_eq_ok hout henc hrep
    exact ⟨c, hok, hjoins.graph_eq, houtput, e, hf, .inr ⟨_, hjoins⟩⟩

/-- A query about an input in range finds a verdict unless the solver gives out, in every state that
queries lead to. -/
theorem classify_finds (hg : g.WellFormed) (hc : c.Covers g output) (ht : s.Reached c.formula t)
    (hi : i < g.numInputs) :
    Ensures (classify s c i) t (fun r t' => s.Reached c.formula t' ∧ Finds s c g i r)
      (fun e t' => s.Reached c.formula t' ∧ GivesUp s c i e) := by
  obtain ⟨e, hf, hdriven⟩ := hc.driven
  rw [← hc.output_eq] at hf
  rcases hdriven with ⟨hnone, hconst⟩ | ⟨ids, hjoins⟩
  · rw [classify]
    simp only [hc.graph_eq, if_neg (Nat.not_le_of_lt hi), hnone]
    exact Ensures.result ⟨ht, .apart fun x => by rw [hf]; exact hconst _ _⟩
  · cases hvar : c.encoding.varOfInput? i with
    | some v =>
      have hv := hjoins.varOfInput?_eq_some_iff.mp hvar
      exact classify_finds_of_mem hg hjoins ht hi hf hv
    | none =>
      have houtside : ∀ v, (i, v) ∉ c.encoding.inputs := by
        intro v hv
        rw [hjoins.varOfInput?_eq_some_iff.mpr hv] at hvar
        cases hvar
      obtain ⟨w, hw, -⟩ := hjoins.represents.driver_eq
      have hapart : Finds s c g i { output := c.output, input := i, unateness := .independent } :=
        .apart fun x => by
          simp only [hf]
          rw [Graph.edgeValueOf, Graph.edgeValueOf, hjoins.represents.depends (fun j v hv => ?_) _
            (List.mem_of_getElem? hw)]
          have hj : j ≠ i := by
            rintro rfl
            exact houtside v hv
          rw [Function.update_of_ne hj, Function.update_of_ne hj]
      rw [classify]
      simp only [hc.graph_eq, if_neg (Nat.not_le_of_lt hi), hvar]
      cases c.encoding.output? with
      | none => exact Ensures.result ⟨ht, hapart⟩
      | some y => exact Ensures.result ⟨ht, hapart⟩

theorem not_givesUp (hs : s.Decides) {e : Failure} : ¬ GivesUp s c i e := by
  rintro ⟨reason, -, hgives⟩
  exact hs.not_givesOut c.formula reason hgives

/-- A solver that decides answers every query about an input in range. -/
theorem classify_ensures (hg : g.WellFormed) (hc : c.Covers g output) (hs : s.Decides)
    (ht : s.Reached c.formula t) (hi : i < g.numInputs) :
    Ensures (classify s c i) t
      (fun r t' => s.Reached c.formula t' ∧ Answers g output i r) (fun _ _ => False) :=
  (classify_finds hg hc ht hi).mono (fun _ _ ⟨ht', h⟩ => ⟨ht', hc.output_eq ▸ h.answers hs⟩)
    fun _ _ ⟨_, h⟩ => not_givesUp hs h

/-- Queries in range or not lead from one state that can be asked to another. -/
theorem keeps_reached (hg : g.WellFormed) (hc : c.Covers g output) (hs : s.Decides) (i : Nat) :
    Keeps (s.Reached c.formula) (classify s c i) := by
  intro t ht
  by_cases hi : i < g.numInputs
  · exact (classify_ensures hg hc hs ht hi).mono (fun _ _ h => h.1) fun _ _ h => h.elim
  · rw [classify]
    simp only [hc.graph_eq, if_pos (Nat.le_of_not_lt hi)]
    exact Ensures.failure ht

theorem Asked.reached (hg : g.WellFormed) (hc : c.Covers g output) (hs : s.Decides)
    (h : Asked s c t) : s.Reached c.formula t := by
  induction h with
  | start => exact .start
  | classify _ i ih => exact (keeps_reached hg hc hs i).final ih

/-- With a solver that decides, the copies of an output can be built, and after any queries each
query about an input in range finds how the output depends on it. -/
theorem classify_exact (hg : g.Built) (hout : output < g.numOutputs) (hs : s.Decides) :
    ∃ c, ofOutput g output = .ok c ∧ ∀ t, Asked s c t → ∀ i < g.numInputs,
      ∃ v, ((classify s c i).run t).1 = .ok v ∧ v.output = output ∧ v.input = i ∧
        ∀ u, v.unateness = u ↔ u.Describes (g.truthFunction output) i := by
  obtain ⟨c, hok, hc⟩ := ofOutput_covers hg.wellFormed hout
  refine ⟨c, hok, fun t ht i hi => ?_⟩
  obtain ⟨v, hv, -, hanswer⟩ := (classify_ensures hg.wellFormed hc hs
    (ht.reached hg.wellFormed hc hs) hi).exists_result
  exact ⟨v, hv, hanswer⟩

/-- The exclusive disjunction of two inputs is found to depend both ways on the second, after a
query about an input that does not exist. -/
theorem classify_exact_reconvergent : Graph.reconvergent.Built ∧
    0 < Graph.reconvergent.numOutputs ∧ Solver.branching.Decides ∧
    ∃ c, ofOutput Graph.reconvergent 0 = .ok c ∧ ∃ v,
      ((classify .branching c 1).run ((classify .branching c 7).run ()).2).1 = .ok v ∧
        v.unateness = .binate := by
  refine ⟨Graph.reconvergent_built, by decide, branching_decides, ?_⟩
  obtain ⟨c, hc, hall⟩ := classify_exact (s := .branching) Graph.reconvergent_built
    (by decide : 0 < Graph.reconvergent.numOutputs) branching_decides
  obtain ⟨v, hv, -, -, hu⟩ := hall _ (.classify .start 7) 1 (by decide)
  refine ⟨c, hc, v, hv, (hu .binate).mpr ⟨⟨fun _ => false, ?_⟩, ⟨fun _ => true, ?_⟩⟩⟩
  · exact ⟨by decide +kernel, by decide +kernel⟩
  · exact ⟨by decide +kernel, by decide +kernel⟩

end AndInverter.ConeCopies
