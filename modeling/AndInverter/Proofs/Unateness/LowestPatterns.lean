import AndInverter.Proofs.Unateness.Inquiries

/-!
# Diagrams give the lowest patterns

A complete pattern with one open input and an assignment of the other inputs are the same thing, and
a pattern is below another one as the assignments are. So the patterns that are read off diagrams
are the first ones, counted from the first input on, under which the output moves as they say.
-/

namespace AndInverter

variable {g : Graph} {x : Nat → Bool} {n i j output input : Nat} {b : Bool} {S : List Nat}
  {p q : Pattern}

namespace Pattern

def Below (p q : Pattern) : Prop :=
  ∃ j : Nat, (∀ k < j, p.values[k]? = q.values[k]?) ∧ p.values[j]? = some (some false) ∧
    q.values[j]? = some (some true)

/-- The lowest one of all patterns that leave just the input `i` open and under which raising it
moves the output to `b`. -/
structure IsLowestMove (p : Pattern) (g : Graph) (output i : Nat) (b : Bool) : Prop where
  moves : p.Moves g output i (List.range g.numInputs) b
  eq_or_below {q : Pattern} (hq : q.Moves g output i (List.range g.numInputs) b) :
    q = p ∨ p.Below q

def continued (p : Pattern) (x : Nat → Bool) (j : Nat) : Bool := p.values[j]?.join.getD (x j)

theorem getElem?_eq_some_continued (hj : j < p.values.size) (hne : p.values[j]? ≠ some none)
    (x : Nat → Bool) : p.values[j]? = some (some (p.continued x j)) := by
  unfold continued
  rw [Array.getElem?_eq_getElem hj] at hne ⊢
  cases hval : p.values[j] with
  | none => exact absurd (congrArg some hval) hne
  | some a => rfl

/-- A pattern that leaves just the input `i` open is that of its assignment. -/
theorem Moves.eq_leaving (h : p.Moves g output i S b) (x : Nat → Bool) :
    p = leaving g.numInputs i (p.continued x) := by
  have hvalues : p.values = (leaving g.numInputs i (p.continued x)).values := by
    apply Array.ext_getElem?
    intro j
    by_cases hj : j < g.numInputs
    · rw [getElem?_leaving hj]
      split
      · rename_i hji
        exact h.open_iff.mpr hji
      · rename_i hji
        exact getElem?_eq_some_continued (h.size_eq ▸ hj) (mt h.open_iff.mp hji) x
    · rw [Array.getElem?_eq_none (by rw [h.size_eq]; omega),
        Array.getElem?_eq_none (by rw [size_leaving]; omega)]
  cases p
  exact congrArg Pattern.mk hvalues

/-- Where a pattern says nothing, its assignment is the given one. -/
theorem Moves.continued_eq (h : p.Moves g output i S b) (hj : j < g.numInputs → j = i) :
    p.continued x j = x j := by
  unfold continued
  by_cases hlt : j < g.numInputs
  · rw [h.open_iff.mpr (hj hlt)]
    rfl
  · rw [Array.getElem?_eq_none (by rw [h.size_eq]; omega)]
    rfl

/-- The assignment of a pattern that is evidence. -/
theorem Moves.follows_continued (h : p.Moves g output i S b) (hout : output < g.numOutputs)
    (x : Nat → Bool) : follows (g.truthFunction output) i b (p.continued x) = true := by
  have hlow := h.value_low
  have hhigh := h.value_high
  rw [h.eq_leaving x, fill_leaving, outputValue_assignmentOf hout] at hlow hhigh
  exact follows_eq_true_iff.mpr ⟨Except.ok.inj hlow, Except.ok.inj hhigh⟩

/-- The pattern of the lowest assignment is the lowest pattern. -/
theorem isLowestMove_leaving (hout : output < g.numOutputs) (hi : i < g.numInputs)
    (hx : Lowest (follows (g.truthFunction output) i b) x) :
    (leaving g.numInputs i x).IsLowestMove g output i b where
  moves := leaving_moves hout hi (List.mem_range.mpr hi)
    (fun j hj hnot => absurd (List.mem_range.mpr hj) hnot) hx.holds
  eq_or_below {q} hq := by
    by_cases hsame : ∀ j, q.continued x j = x j
    · left
      rw [hq.eq_leaving x, funext hsame]
    -- Lowest assignments are compared where the two patterns first differ.
    obtain ⟨j, hdiffer, hfirst⟩ :
        ∃ j, q.continued x j ≠ x j ∧ ∀ k < j, q.continued x k = x k := by
      rw [not_forall] at hsame
      exact ⟨Nat.find hsame, Nat.find_spec hsame, fun k hk => not_not.mp (Nat.find_min hsame hk)⟩
    obtain ⟨hj, hji⟩ : j < g.numInputs ∧ j ≠ i := by
      by_contra hnot
      exact hdiffer (hq.continued_eq fun hlt => not_not.mp fun hne => hnot ⟨hlt, hne⟩)
    have hle := hx.le (hq.follows_continued hout x) hfirst
    have hlow : x j = false := Bool.eq_false_iff.mpr fun h => hdiffer ((hle h).trans h.symm)
    have hhigh : q.continued x j = true := Bool.eq_true_of_not_eq_false fun h =>
      hdiffer (h.trans hlow.symm)
    right
    refine ⟨j, fun k hk => ?_, ?_, ?_⟩
    · rw [hq.eq_leaving x, getElem?_leaving (hk.trans hj), getElem?_leaving (hk.trans hj),
        hfirst k hk]
    · rw [getElem?_leaving hj, if_neg hji, hlow]
    · rw [hq.eq_leaving x, getElem?_leaving hj, if_neg hji, hhigh]

end Pattern

namespace Inquiry

/-- Whenever diagrams answer that an output depends both ways on an input, the answer passes the
check. Its patterns leave just the input open and are the lowest ones, from the first input on,
under which the output follows the input or the negated input. -/
theorem About.lowest_patterns (hg : g.Built) {q : Inquiry} (hq : q.About output input g)
    {v : Verdict} (hv : q.answer = .ok v) (hbinate : v.unateness = .binate) :
    ∃ w, v = .binate output input w ∧ w.rising.IsLowestMove g output input true ∧
      w.falling.IsLowestMove g output input false ∧ v.check g = .ok true := by
  have hsound := hq.sound hg
  have houtput := hsound.output_lt
  have hinput : input < g.numInputs := by
    rw [← hsound.numInputs_eq]
    exact hsound.covers.lt_numInputs (hsound.mem_inputs hv hbinate)
  obtain ⟨w, rfl, hexact⟩ := (hsound.yields.of_eq_ok hv).1.exists_witness hbinate
  obtain ⟨x, hx, hrising⟩ := hexact.rising
  obtain ⟨y, hy, hfalling⟩ := hexact.falling
  have hrises := Pattern.isLowestMove_leaving houtput hinput hx
  have hfalls := Pattern.isLowestMove_leaving houtput hinput hy
  rw [← hrising] at hrises
  rw [← hfalling] at hfalls
  exact ⟨w, rfl, hrises, hfalls, Verdict.check_of_moves rfl hrises.moves hfalls.moves⟩

/-- The cone of the output of `Graph.switched` has no variable for the first input, which stays low.
The cofactors have been compared before. -/
theorem About.lowest_patterns_switched : Graph.switched.Built ∧ ∃ q v w,
    About 0 1 .switched q ∧ q.answer = .ok v ∧ v.unateness = .binate ∧ v = .binate 0 1 w ∧
      w.rising = ⟨#[some false, none, some false, some true, some false]⟩ ∧
      w.falling = ⟨#[some false, none, some false, some false, some true]⟩ ∧
      w.rising.IsLowestMove .switched 0 1 true ∧ w.falling.IsLowestMove .switched 0 1 false ∧
      v.check .switched = .ok true := by
  have heval : (ConeDiagram.ofOutput .switched 0 6).toOption.any (fun d =>
      decide ((Operation.ite ⟨15⟩ ⟨16⟩ .one).Admissible d.store ∧
        (Operation.ite ⟨16⟩ ⟨15⟩ .one).Admissible (d.operate (.ite ⟨15⟩ ⟨16⟩ .one)).store ∧
        ((d.compare ⟨15⟩ ⟨16⟩).inquire .switched 1).answer.toOption.any fun v =>
          decide (v.unateness = .binate ∧
            v.witness.map Witness.rising =
              some ⟨#[some false, none, some false, some true, some false]⟩ ∧
            v.witness.map Witness.falling =
              some ⟨#[some false, none, some false, some false, some true]⟩))) = true := by
    decide +kernel
  obtain ⟨d, hd, hdall⟩ := Except.exists_eq_ok_of_any heval
  obtain ⟨hd₁, hd₂, hdall⟩ := of_decide_eq_true hdall
  obtain ⟨v, hv, hvall⟩ := Except.exists_eq_ok_of_any hdall
  obtain ⟨hbinate, hrising, hfalling⟩ := of_decide_eq_true hvall
  have hq : About 0 1 .switched _ := .cone (((ConeDiagram.Used.start hd).operate hd₁).operate hd₂)
  obtain ⟨w, rfl, hrises, hfalls, hcheck⟩ :=
    About.lowest_patterns Graph.switched_built hq hv hbinate
  exact ⟨Graph.switched_built, _, _, w, hq, hv, hbinate, rfl, Option.some.inj hrising,
    Option.some.inj hfalling, hrises, hfalls, hcheck⟩

end Inquiry

end AndInverter
