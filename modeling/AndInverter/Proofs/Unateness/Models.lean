import AndInverter.Proofs.Unateness.Satisfiability

/-!
# Every model is evidence

The pattern of a query is read off the first copy alone, in whatever model the solver comes up with.
The switches force the second copy to agree with it, so both outputs are those of the graph under
the two ways to fill the pattern. This needs a solver that gives models only. It may give out or
miss models.
-/

namespace AndInverter.ConeCopies

open Clausal

variable {σ : Type} {s : Solver σ} {c : ConeCopies} {g : Graph} {e : Edge} {ids S : List Nat}
  {t : σ} {i v w output : Nat} {b : Bool}

/-- The pattern of a model that answers a question shows what the question asks for. -/
theorem Told.moves (hg : g.WellFormed) (hs : s.GivesModels) (h : c.Joins g e ids)
    (hout : c.output < g.numOutputs) (hi : i < g.numInputs)
    (hf : g.truthFunction c.output = fun x => g.edgeValueOf x e)
    (hS : ∀ j v, (j, v) ∈ c.encoding.inputs → j ∈ S) (hv : (i, v) ∈ c.encoding.inputs)
    (hw : ids[w]? = some e.node) {p : Pattern}
    (hp : Told s c i (c.question e ids.length i v w b) (some p)) :
    p.Moves g c.output i S b := by
  obtain ⟨t, m, ht, houtcome, hpattern⟩ := hp
  obtain ⟨hm, hraising, hlow, hhigh⟩ := isModel_question.mp (hs _ t ht _ m houtcome)
  obtain ⟨x, hx, hin, hzero⟩ := h.pattern_eq_ok hg hi m
  rw [hx] at hpattern
  cases hpattern
  obtain ⟨hfirst, hsecond⟩ := h.simulations hv hm hraising hin hw
  apply Pattern.leaving_moves hout hi (hS i v hv)
  · exact fun j _ hj => hzero j fun u hu => hj (hS j u hu)
  · rw [hf, follows_eq_true_iff, Graph.edgeValueOf, Graph.edgeValueOf, ← hfirst, ← hsecond]
    exact ⟨hlow, hhigh⟩

/-- A dependence both ways is found with evidence for both. -/
theorem Finds.evident {r : Verdict} (h : Finds s c g i r) (hg : g.WellFormed) (hs : s.GivesModels)
    (hout : c.output < g.numOutputs) (hi : i < g.numInputs)
    (hS : ∀ j v, (j, v) ∈ c.encoding.inputs → j ∈ S) (hr : r.unateness = .binate) :
    ∃ w, r.witness = some w ∧ w.rising.Moves g c.output i S true ∧
      w.falling.Moves g c.output i S false ∧ r.check g = .ok true := by
  cases h with
  | apart => cases hr
  | asked hjoins hf hv hw hfalling hrising =>
    rename_i falling rising
    rcases rising with _ | rising
    · cases falling <;> cases hr
    · rcases falling with _ | falling
      · cases hr
      · have hrises := hrising.moves hg hs hjoins hout hi hf hS hv hw
        have hfalls := hfalling.moves hg hs hjoins hout hi hf hS hv hw
        exact ⟨⟨rising, falling, none, none⟩, rfl, hrises, hfalls,
          Verdict.check_of_moves rfl hrises hfalls⟩

/-- The copies are those of the encoding of the output. -/
theorem encoding_eq (h : ofOutput g output = .ok c) :
    Encoding.ofOutput g output = .ok c.encoding := by
  rw [ofOutput] at h
  split at h
  · cases h
  · dsimp only at h
    split at h
    · rename_i hcopies
      cases h
      obtain ⟨encoding, hencoding, hcopies⟩ := Except.bind_eq_ok_iff.mp hcopies
      simp only [Except.guard_eq_ok_iff, Except.bind_eq_ok_iff, Except.pure_eq_ok_iff] at hcopies
      obtain ⟨-, _, -, _, -, _, -, rfl⟩ := hcopies
      exact hencoding
    · cases h

/-- The encoding names inputs of the cone only. -/
theorem exists_support (hg : g.WellFormed) (hout : output < g.numOutputs)
    (hc : ofOutput g output = .ok c) :
    ∃ S, g.support output = .ok S ∧ ∀ j v, (j, v) ∈ c.encoding.inputs → j ∈ S := by
  obtain ⟨id, e, hid, hn, hd⟩ := Graph.driver_eq_ok hg hout
  have hdrives : g.Drives e := hg.drives_fanin hn (List.mem_singleton_self e)
  obtain ⟨cone, hcone, -⟩ := Graph.cone_eq_ok hg hdrives.lt_size
  have hsupport := Graph.support_eq_ok hd hcone
  have hencoding := encoding_eq hc
  refine ⟨_, hsupport, fun j v hv => ?_⟩
  by_cases he : e.isConstant = true
  · rw [Encoding.ofOutput_eq_ok_of_constant hd he] at hencoding
    rw [← Except.ok.inj hencoding] at hv
    cases hv
  · obtain ⟨enc, cone', henc, hcone', -, -, hinputs⟩ :=
      Encoding.ofOutput_eq_ok hg hd hdrives (by simpa using he)
    rw [hcone] at hcone'
    cases hcone'
    rw [henc] at hencoding
    rw [← Except.ok.inj hencoding] at hv
    rw [← hinputs]
    exact List.mem_map_of_mem hv

/-- Queries in range or not leave the solver as questions about the formula do. -/
theorem reached_classify (hg : g.WellFormed) (hc : c.Covers g output) (ht : s.Reached c.formula t)
    (j : Nat) : s.Reached c.formula ((classify s c j).run t).2 := by
  by_cases hj : j < g.numInputs
  · exact ((classify_finds hg hc ht hj).mono (fun _ _ h => h.1) fun _ _ h => h.1).final
  · have hrun : (classify s c j).run t = (.error (.error (.inputOutOfRange j g.numInputs)), t) := by
      rw [classify]
      simp only [hc.graph_eq, if_pos (Nat.le_of_not_lt hj)]
      rfl
    rw [hrun]
    exact ht

/-- Whatever models the solver gives, a query that finds a dependence both ways has evidence. Each
of its two patterns leaves just the input in question open and the inputs outside of the cone low,
and the output follows the input under the one and the negated input under the other. -/
theorem classify_evident (hg : g.Built) (hout : output < g.numOutputs) (hs : s.GivesModels) :
    ∃ c S, ofOutput g output = .ok c ∧ g.support output = .ok S ∧
      ∀ t, s.Reached c.formula t → (∀ j, s.Reached c.formula ((classify s c j).run t).2) ∧
        ∀ i < g.numInputs, ∀ r, ((classify s c i).run t).1 = .ok r → r.unateness = .binate →
          ∃ w, r.witness = some w ∧ w.rising.Moves g output i S true ∧
            w.falling.Moves g output i S false ∧ r.check g = .ok true := by
  obtain ⟨c, hok, hc⟩ := ofOutput_covers hg.wellFormed hout
  obtain ⟨S, hS, hinputs⟩ := exists_support hg.wellFormed hout hok
  refine ⟨c, S, hok, hS, fun t ht => ⟨reached_classify hg.wellFormed hc ht, fun i hi r hr => ?_⟩⟩
  have hfinds := (classify_finds hg.wellFormed hc ht hi).of_toOption_eq
    (congrArg Except.toOption hr)
  obtain rfl := hc.output_eq
  exact hfinds.2.evident hg.wellFormed hs hout hi hinputs

/-- A query about the second input of an exclusive disjunction, after one about the first and one
about an input that does not exist. -/
theorem classify_evident_reconvergent : Graph.reconvergent.Built ∧
    0 < Graph.reconvergent.numOutputs ∧ Solver.branching.GivesModels ∧
    ∃ c S t, ofOutput Graph.reconvergent 0 = .ok c ∧ Graph.reconvergent.support 0 = .ok S ∧
      t = ((classify .branching c 7).run ((classify .branching c 0).run ()).2).2 ∧
      Solver.branching.Reached c.formula t ∧ ∃ r w,
        ((classify .branching c 1).run t).1 = .ok r ∧ r.unateness = .binate ∧
        r.witness = some w ∧ w.rising.Moves .reconvergent 0 1 S true ∧
        w.falling.Moves .reconvergent 0 1 S false ∧ r.check .reconvergent = .ok true := by
  have hbuilt := Graph.reconvergent_built
  have hout : 0 < Graph.reconvergent.numOutputs := by decide
  have hmodels := branching_decides.givesModels
  refine ⟨hbuilt, hout, hmodels, ?_⟩
  obtain ⟨c, S, hok, hS, hall⟩ := classify_evident hbuilt hout hmodels
  have ht := (hall _ ((hall _ .start).1 0)).1 7
  refine ⟨c, S, _, hok, hS, rfl, ht, ?_⟩
  obtain ⟨c', hok', hc⟩ := ofOutput_covers hbuilt.wellFormed hout
  rw [hok] at hok'
  cases hok'
  have hi : 1 < Graph.reconvergent.numInputs := by decide
  obtain ⟨r, hr, -, hanswer⟩ :=
    (classify_ensures hbuilt.wellFormed hc branching_decides ht hi).exists_result
  have hbinate : r.unateness = .binate := by
    refine (hanswer.2.2 .binate).mpr ⟨⟨fun _ => false, ?_⟩, ⟨fun _ => true, ?_⟩⟩
    · exact ⟨by decide +kernel, by decide +kernel⟩
    · exact ⟨by decide +kernel, by decide +kernel⟩
  obtain ⟨w, hw⟩ := (hall _ ht).2 1 hi r hr hbinate
  exact ⟨r, w, hr, hbinate, hw⟩

end AndInverter.ConeCopies
