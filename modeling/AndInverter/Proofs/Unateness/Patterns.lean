import AndInverter.Proofs.Unateness.Evidence

/-!
# Patterns as evidence

A pattern is entered value by value, and in the end one input is left open. The two ways to fill it
are two assignments that differ in this input only. The pattern is evidence if the output moves
between them.
-/

namespace AndInverter

variable {g : Graph} {x z : Nat → Bool} {n i j output : Nat} {b : Bool} {S : List Nat}

namespace VariableFrame

def patternOf (n : Nat) (z : Nat → Bool) : Pattern := ⟨(Array.range n).map fun j => some (z j)⟩

theorem size_patternOf (n : Nat) (z : Nat → Bool) : (patternOf n z).values.size = n := by
  rw [patternOf, Array.size_map, Array.size_range]

theorem patternOf_false (n : Nat) : patternOf n (fun _ => false) = .low n := by
  rw [patternOf, Pattern.low, Pattern.mk.injEq]
  apply Array.ext
  · rw [Array.size_replicate, Array.size_map, Array.size_range]
  · intro j hj hj'
    simp only [Array.getElem_replicate, Array.getElem_map]

theorem assign_patternOf (h : i < n) (a : Option Bool) : (patternOf n z).assign i a =
    .ok ⟨(Array.range n).map fun j => if j = i then a else some (z j)⟩ := by
  rw [Pattern.assign, size_patternOf, if_pos h]
  congr 2
  apply Array.ext
  · rw [Array.size_setIfInBounds, size_patternOf, Array.size_map, Array.size_range]
  · intro j hj hj'
    rw [Array.size_setIfInBounds] at hj
    rw [Array.getElem_setIfInBounds hj]
    simp only [patternOf, Array.getElem_map, Array.getElem_range]
    by_cases hij : i = j
    · rw [if_pos hij, if_pos hij.symm]
    · rw [if_neg hij, if_neg (Ne.symm hij)]

theorem assign_some_patternOf (h : i < n) (b : Bool) :
    (patternOf n z).assign i (some b) = .ok (patternOf n (Function.update z i b)) := by
  rw [assign_patternOf h]
  congr 1
  unfold patternOf
  congr 2
  funext j
  rw [Function.update_apply]
  split
  · rfl
  · rfl

theorem assign_none_patternOf (h : i < n) :
    (patternOf n z).assign i none = .ok (.leaving n i z) :=
  assign_patternOf h none

end VariableFrame

theorem follows_eq_true_iff {F : (Nat → Bool) → Bool} : follows F i b x = true ↔
    F (Function.update x i false) = (!b) ∧ F (Function.update x i true) = b := by
  rw [follows, Bool.and_eq_true, Bool.not_eq_true']
  cases b with
  | false => exact Iff.rfl
  | true => exact and_comm

namespace Pattern

/-- The pattern leaves just the input `i` open and has the inputs outside of `S` low, and raising
the open input moves the output to `b`. -/
structure Moves (p : Pattern) (g : Graph) (output i : Nat) (S : List Nat) (b : Bool) : Prop where
  size_eq : p.values.size = g.numInputs
  open_iff {j : Nat} : p.values[j]? = some none ↔ j = i
  low_outside {j : Nat} : j < g.numInputs → j ∉ S → p.values[j]? = some (some false)
  value_low : Verdict.outputValue g output (p.fill false) = .ok (!b)
  value_high : Verdict.outputValue g output (p.fill true) = .ok b

theorem size_leaving (n i : Nat) (x : Nat → Bool) : (leaving n i x).values.size = n := by
  rw [leaving, Array.size_map, Array.size_range]

theorem getElem?_leaving (h : j < n) :
    (leaving n i x).values[j]? = some (if j = i then none else some (x j)) := by
  rw [leaving, Array.getElem?_map, Array.getElem?_range, if_pos h, Option.map_some]

theorem fill_leaving (g : Graph) (i : Nat) (x : Nat → Bool) (b : Bool) :
    (leaving g.numInputs i x).fill b = g.assignmentOf (Function.update x i b) := by
  apply Array.ext
  · rw [fill, Array.size_map, size_leaving, Graph.size_assignmentOf]
  · intro j hj hj'
    simp only [fill, leaving, Graph.assignmentOf, Array.getElem_map, Array.getElem_range,
      Array.getElem_ofFn, Function.update_apply]
    split
    · rfl
    · rfl

theorem outputValue_assignmentOf (hout : output < g.numOutputs) :
    Verdict.outputValue g output (g.assignmentOf x) = .ok (g.truthFunction output x) := by
  obtain ⟨values, heval, hvalue⟩ := Graph.exists_eval x hout
  rw [Verdict.outputValue, heval, Except.ok_bind]
  simp only [hvalue]
  rfl

/-- An assignment under which the output follows the input is evidence. -/
theorem leaving_moves (hout : output < g.numOutputs) (hi : i < g.numInputs) (hS : i ∈ S)
    (hlow : ∀ j < g.numInputs, j ∉ S → x j = false)
    (hx : follows (g.truthFunction output) i b x = true) :
    (leaving g.numInputs i x).Moves g output i S b where
  size_eq := size_leaving _ _ _
  open_iff {j} := by
    constructor
    · intro hj
      have hlt : j < g.numInputs := by
        rw [← size_leaving g.numInputs i x]
        exact (Array.getElem?_eq_some_iff.mp hj).1
      rw [getElem?_leaving hlt] at hj
      by_contra hne
      rw [if_neg hne] at hj
      cases hj
    · rintro rfl
      rw [getElem?_leaving hi, if_pos rfl]
  low_outside {j} hlt hj := by
    have hne : j ≠ i := fun heq => hj (heq ▸ hS)
    rw [getElem?_leaving hlt, if_neg hne, hlow j hlt hj]
  value_low := by
    rw [fill_leaving, outputValue_assignmentOf hout, (follows_eq_true_iff.mp hx).1]
  value_high := by
    rw [fill_leaving, outputValue_assignmentOf hout, (follows_eq_true_iff.mp hx).2]

theorem Moves.reaches {p : Pattern} (h : p.Moves g output i S b) :
    Verdict.reaches g output i p b = .ok true := by
  have hopen : ¬ p.values[i]? ≠ some none := not_not_intro (h.open_iff.mpr rfl)
  rw [Verdict.reaches, if_neg hopen, h.value_low, h.value_high]
  change Except.ok ((!b) != b && b == b) = Except.ok true
  cases b with
  | false => rfl
  | true => rfl

end Pattern

/-- A verdict with patterns for both directions passes the check. -/
theorem Verdict.check_of_moves {v : Verdict} {w : Witness} (hw : v.witness = some w)
    (hrising : w.rising.Moves g v.output v.input S true)
    (hfalling : w.falling.Moves g v.output v.input S false) : v.check g = .ok true := by
  rw [check, hw]
  dsimp only
  rw [hrising.reaches, Except.ok_bind, if_pos rfl, hfalling.reaches]

end AndInverter
