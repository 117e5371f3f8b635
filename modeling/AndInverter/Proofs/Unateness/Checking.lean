import AndInverter.Proofs.Graph.Building
import AndInverter.Proofs.Unateness.Patterns

/-!
# What the check of evidence certifies

A pattern is `filled` by setting all its open inputs at once, so the check compares two assignments
that differ in every open input; it `Admits` each assignment that agrees with it. If the output
moves between them, it moves with some open input. That is the input in question if no other open
input matters; then the check passes exactly if the output follows the input under every assignment
that agrees with the patterns.
-/

namespace AndInverter

namespace Pattern

variable {g : Graph} {F : (Nat → Bool) → Bool} {p : Pattern} {x y : Nat → Bool}
  {i j k output : Nat} {b : Bool}

def Open (p : Pattern) (i : Nat) : Prop := p.values[i]? = some none

instance : Decidable (p.Open i) := inferInstanceAs (Decidable (_ = _))

def Admits (p : Pattern) (x : Nat → Bool) : Prop :=
  ∀ i b, p.values[i]? = some (some b) → x i = b

def filled (p : Pattern) (b : Bool) (i : Nat) : Bool := p.values[i]?.join.getD b

/-- The input is open, and the value moves to `b` by raising the open inputs all at once. -/
def Shows (p : Pattern) (F : (Nat → Bool) → Bool) (i : Nat) (b : Bool) : Prop :=
  p.Open i ∧ F (p.filled false) = (!b) ∧ F (p.filled true) = b

instance (p : Pattern) (F : (Nat → Bool) → Bool) (i : Nat) (b : Bool) : Decidable (p.Shows F i b) :=
  inferInstanceAs (Decidable (_ ∧ _))

def raised (p : Pattern) (k i : Nat) : Bool := p.filled (decide (i < k)) i

theorem filled_of_open (h : p.Open i) : p.filled b i = b := by
  rw [filled, h]
  rfl

theorem filled_of_some {a : Bool} (h : p.values[i]? = some (some a)) : p.filled b i = a := by
  rw [filled, h]
  rfl

theorem admits_filled (p : Pattern) (b : Bool) : p.Admits (p.filled b) := fun _ _ => filled_of_some

theorem admits_raised (p : Pattern) (k : Nat) : p.Admits (p.raised k) := fun _ _ => filled_of_some

/-- An input that is not open has a value. -/
theorem exists_of_not_open (hi : i < p.values.size) (h : ¬ p.Open i) :
    ∃ a, p.values[i]? = some (some a) := by
  cases ha : p.values[i]? with
  | none => exact absurd hi (Nat.not_lt.mpr (Array.getElem?_eq_none_iff.mp ha))
  | some a =>
    cases a with
    | none => exact absurd ha h
    | some a => exact ⟨a, rfl⟩

theorem Admits.eq (hx : p.Admits x) (hy : p.Admits y) (hi : i < p.values.size) (h : ¬ p.Open i) :
    x i = y i := by
  obtain ⟨a, ha⟩ := exists_of_not_open hi h
  rw [hx i a ha, hy i a ha]

theorem raised_zero (p : Pattern) : p.raised 0 = p.filled false := rfl

theorem raised_eq_filled (hi : i < k) : p.raised k i = p.filled true i := by
  rw [raised, decide_eq_true hi]

/-- One more open input is raised. -/
theorem raised_succ (p : Pattern) (k : Nat) :
    p.raised (k + 1) = Function.update (p.raised k) k (p.filled true k) := by
  funext i
  by_cases hi : i = k
  · subst hi
    rw [Function.update_self, raised_eq_filled (Nat.lt_succ_self i)]
  · have hbefore : i < k + 1 ↔ i < k := by omega
    rw [Function.update_of_ne hi, raised, raised, decide_eq_decide.mpr hbefore]

/-- If the value moves by raising some of the open inputs one after another, it moves with one of
them. -/
theorem exists_follows_of_raised (hsize : k ≤ p.values.size) (hlow : F (p.filled false) = !b)
    (hhigh : F (p.raised k) = b) :
    ∃ i x, p.Open i ∧ p.Admits x ∧ follows F i b x = true := by
  induction k with
  | zero =>
    rw [raised_zero, hlow] at hhigh
    cases b <;> cases hhigh
  | succ k ih =>
    by_cases hbefore : F (p.raised k) = b
    · exact ih (Nat.le_of_succ_le hsize) hbefore
    · rw [raised_succ] at hhigh
      have hself : p.raised k k = p.filled false k := by
        rw [raised, decide_eq_false (Nat.lt_irrefl k)]
      have hopen : p.Open k := by
        by_contra hclosed
        have hsame := (admits_filled p true).eq (admits_filled p false) hsize hclosed
        rw [hsame, ← hself, Function.update_eq_self] at hhigh
        exact hbefore hhigh
      refine ⟨k, p.raised k, hopen, admits_raised p k, follows_eq_true_iff.mpr ⟨?_, ?_⟩⟩
      · rw [← filled_of_open (b := false) hopen, ← hself, Function.update_eq_self]
        exact Bool.eq_not_of_ne hbefore
      · rwa [filled_of_open hopen] at hhigh

/-- A pattern that shows a move shows one with some of its open inputs. -/
theorem Shows.exists_follows (hF : DependsOn F {i | i < p.values.size}) (h : p.Shows F i b) :
    ∃ j x, p.Open j ∧ p.Admits x ∧ follows F j b x = true := by
  apply exists_follows_of_raised (Nat.le_refl _) h.2.1
  rw [← h.2.2]
  exact hF fun i hi => raised_eq_filled hi

/-- If no other open input matters, every assignment that agrees with the pattern does as well as
the filled one. -/
theorem Admits.eq_filled (hx : p.Admits x) (hF : DependsOn F {i | i < p.values.size})
    (hopen : p.Open i) (honly : ∀ j, p.Open j → Sensitive F j → j = i) (b : Bool) :
    F (Function.update x i b) = F (p.filled b) := by
  have hdepends : DependsOn F {j | j < p.values.size ∧ (p.Open j → j = i)} := by
    apply dependsOn_of_sensitive (D := Finset.range p.values.size)
    · intro y z hyz
      exact hF fun j hj => hyz j (.inl (Finset.mem_coe.mpr (Finset.mem_range.mpr hj)))
    · intro j hj hsens
      exact ⟨Finset.mem_range.mp hj, fun h => honly j h hsens⟩
  apply hdepends
  rintro j ⟨hj, hji⟩
  by_cases heq : j = i
  · rw [heq, Function.update_self, filled_of_open hopen]
  · rw [Function.update_of_ne heq]
    exact hx.eq (admits_filled p b) hj fun h => heq (hji h)

theorem shows_iff (hF : DependsOn F {i | i < p.values.size})
    (honly : ∀ j, p.Open j → Sensitive F j → j = i) :
    p.Shows F i b ↔ p.Open i ∧ ∀ x, p.Admits x → follows F i b x = true := by
  refine and_congr_right fun hopen => ⟨fun hfilled x hx => ?_, fun hall => ?_⟩
  · rw [follows_eq_true_iff, hx.eq_filled hF hopen honly, hx.eq_filled hF hopen honly]
    exact hfilled
  · have hx := admits_filled p false
    have hfollows := follows_eq_true_iff.mp (hall _ hx)
    rwa [hx.eq_filled hF hopen honly, hx.eq_filled hF hopen honly] at hfollows

theorem fill_eq (hsize : p.values.size = g.numInputs) (b : Bool) :
    p.fill b = g.assignmentOf (p.filled b) := by
  apply Array.ext
  · rw [fill, Array.size_map, hsize, Graph.size_assignmentOf]
  · intro i hi hi'
    rw [fill, Array.size_map] at hi
    simp only [fill, Graph.assignmentOf, Array.getElem_map, Array.getElem_ofFn, filled,
      Array.getElem?_eq_getElem hi, Option.join_some]

/-- The check of a pattern compares the two filled assignments. -/
theorem reaches_eq (hout : output < g.numOutputs) (hsize : p.values.size = g.numInputs) :
    Verdict.reaches g output i p b =
      .ok (decide (p.Shows (g.truthFunction output) i b)) := by
  unfold Verdict.reaches
  split
  · rename_i hclosed
    rw [decide_eq_false fun h => hclosed h.1]
    rfl
  · rename_i hopen
    have hopen : p.Open i := not_not.mp hopen
    rw [fill_eq hsize, fill_eq hsize, outputValue_assignmentOf hout, outputValue_assignmentOf hout]
    refine congrArg Except.ok (Bool.eq_iff_iff.mpr ?_)
    rw [decide_eq_true_iff, Shows]
    cases g.truthFunction output (p.filled false) <;>
      cases g.truthFunction output (p.filled true) <;> cases b <;> simp [hopen]

end Pattern

namespace Verdict

variable {g : Graph} {w : Witness} {output input : Nat}

theorem check_binate_eq (hout : output < g.numOutputs)
    (hrising : w.rising.values.size = g.numInputs)
    (hfalling : w.falling.values.size = g.numInputs) :
    (binate output input w).check g =
      .ok (decide (w.rising.Shows (g.truthFunction output) input true ∧
        w.falling.Shows (g.truthFunction output) input false)) := by
  unfold check binate
  dsimp only
  rw [Pattern.reaches_eq hout hrising, Except.ok_bind, Pattern.reaches_eq hout hfalling]
  by_cases hshows : w.rising.Shows (g.truthFunction output) input true
  · simp [hshows]
  · simp [hshows]
    rfl

/-- The check of evidence for a dependence both ways always answers. If it passes, the output rises
with an open input of one pattern and falls with an open input of the other. If of all open inputs
only the one in question matters, it passes exactly if the output follows this input under the one
pattern, and its negation under the other, however the patterns are filled; and then the dependence
is both ways. -/
theorem check_binate_certifies (hout : output < g.numOutputs)
    (hrising : w.rising.values.size = g.numInputs)
    (hfalling : w.falling.values.size = g.numInputs) :
    ∃ passes, (binate output input w).check g = .ok passes ∧
      (passes = true →
        (∃ i x, w.rising.Open i ∧ w.rising.Admits x ∧ Rises (g.truthFunction output) i x) ∧
        ∃ i x, w.falling.Open i ∧ w.falling.Admits x ∧ Falls (g.truthFunction output) i x) ∧
      ((∀ i, w.rising.Open i ∨ w.falling.Open i → Sensitive (g.truthFunction output) i →
          i = input) →
        (passes = true ↔
          (w.rising.Open input ∧
            ∀ x, w.rising.Admits x → Rises (g.truthFunction output) input x) ∧
          w.falling.Open input ∧
            ∀ x, w.falling.Admits x → Falls (g.truthFunction output) input x) ∧
        (passes = true → Unateness.binate.Describes (g.truthFunction output) input)) := by
  have hF := g.dependsOn_truthFunction output
  have hFrising := hrising ▸ hF
  have hFfalling := hfalling ▸ hF
  refine ⟨_, check_binate_eq hout hrising hfalling, fun hpasses => ?_, fun honly => ?_⟩
  · obtain ⟨hrises, hfalls⟩ := of_decide_eq_true hpasses
    obtain ⟨i, x, hi, hx, hmoves⟩ := hrises.exists_follows hFrising
    obtain ⟨j, y, hj, hy, hmoves'⟩ := hfalls.exists_follows hFfalling
    exact ⟨⟨i, x, hi, hx, follows_true_iff.mp hmoves⟩, j, y, hj, hy, follows_false_iff.mp hmoves'⟩
  · have hpasses := and_congr
      (Pattern.shows_iff (b := true) hFrising fun i hi => honly i (.inl hi))
      (Pattern.shows_iff (b := false) hFfalling fun i hi => honly i (.inr hi))
    simp only [follows_true_iff, follows_false_iff] at hpasses
    rw [decide_eq_true_iff, hpasses]
    refine ⟨Iff.rfl, fun ⟨⟨_, hrises⟩, _, hfalls⟩ => ⟨⟨w.rising.filled false, ?_⟩,
      w.falling.filled false, ?_⟩⟩
    · exact hrises _ (w.rising.admits_filled false)
    · exact hfalls _ (w.falling.admits_filled false)

end Verdict

def Graph.comparing : Graph :=
  let g := ((Build.input (some "a")).run .empty).2
  let g := ((Build.input (some "b")).run g).2
  let g := ((Build.input (some "c")).run g).2
  let g := ((Build.gate ⟨2, false⟩ ⟨3, true⟩).run g).2
  let g := ((Build.gate ⟨2, true⟩ ⟨3, false⟩).run g).2
  let g := ((Build.gate ⟨4, true⟩ ⟨5, true⟩).run g).2
  ((Build.output ⟨6, false⟩ (some "y")).run g).2

theorem Graph.comparing_built : comparing.Built :=
  .output (.gate (.gate (.gate (.input (.input (.input .empty _) _) _) _ _) _ _) _ _) _ _

theorem Graph.truthFunction_comparing (x : Nat → Bool) :
    comparing.truthFunction 0 x = (x 1 == x 2) := by
  have htable : ∀ a b c : Bool,
      comparing.truthFunction 0 (fun i => #[a, b, c].getD i false) = (b == c) := by decide +kernel
  have hsize : comparing.numInputs = 3 := by decide +kernel
  rw [← htable (x 0) (x 1) (x 2)]
  apply comparing.dependsOn_truthFunction 0
  intro i hi
  rw [hsize] at hi
  match i, hi with
  | 0, _ => rfl
  | 1, _ => rfl
  | 2, _ => rfl

theorem Graph.eq_or_eq_of_sensitive_comparing {i : Nat}
    (h : Sensitive (comparing.truthFunction 0) i) : i = 1 ∨ i = 2 := by
  obtain ⟨x, hx⟩ := h
  rw [truthFunction_comparing, truthFunction_comparing] at hx
  by_contra hother
  obtain ⟨hb, hc⟩ := not_or.mp hother
  apply hx
  simp only [Function.update_of_ne (Ne.symm hb), Function.update_of_ne (Ne.symm hc)]

def Witness.comparing : Witness where
  rising := ⟨#[none, none, some true]⟩
  falling := ⟨#[none, none, some false]⟩

namespace Verdict

/-- The first two inputs are open together, but only the second one matters. -/
theorem check_binate_certifies_comparing :
    0 < Graph.comparing.numOutputs ∧
      Witness.comparing.rising.values.size = Graph.comparing.numInputs ∧
      Witness.comparing.falling.values.size = Graph.comparing.numInputs ∧
      (binate 0 1 Witness.comparing).check Graph.comparing = .ok true ∧
      Unateness.binate.Describes (Graph.comparing.truthFunction 0) 1 := by
  have hout : 0 < Graph.comparing.numOutputs := by decide +kernel
  have hrising : Witness.comparing.rising.values.size = Graph.comparing.numInputs := by
    decide +kernel
  have hfalling : Witness.comparing.falling.values.size = Graph.comparing.numInputs := by
    decide +kernel
  have hcheck : (binate 0 1 Witness.comparing).check Graph.comparing = .ok true :=
    Except.eq_ok_of_toOption (by decide +kernel)
  have hlast : ¬ (Witness.comparing.rising.Open 2 ∨ Witness.comparing.falling.Open 2) := by decide
  have honly : ∀ i, Witness.comparing.rising.Open i ∨ Witness.comparing.falling.Open i →
      Sensitive (Graph.comparing.truthFunction 0) i → i = 1 := by
    intro i hopen hsens
    apply (Graph.eq_or_eq_of_sensitive_comparing hsens).resolve_right
    rintro rfl
    exact hlast hopen
  obtain ⟨passes, hpasses, -, hexact⟩ := check_binate_certifies hout hrising hfalling
  rw [hcheck] at hpasses
  exact ⟨hout, hrising, hfalling, hcheck, (hexact honly).2 (Except.ok.inj hpasses).symm⟩

/-- With both of the first two inputs open, the first one passes for one that the output depends on
both ways, and it does not depend on it at all. -/
theorem not_check_binate_certifies : ¬ ∀ g : Graph, g.Built → ∀ (output input : Nat) (w : Witness),
    output < g.numOutputs → input < g.numInputs → w.rising.values.size = g.numInputs →
      w.falling.values.size = g.numInputs → (binate output input w).check g = .ok true →
        Unateness.binate.Describes (g.truthFunction output) input := by
  intro hall
  have hcheck : (binate 0 0 Witness.comparing).check Graph.comparing = .ok true :=
    Except.eq_ok_of_toOption (by decide +kernel)
  obtain ⟨⟨x, hx⟩, -⟩ := hall Graph.comparing Graph.comparing_built 0 0 Witness.comparing
    (by decide +kernel) (by decide +kernel) (by decide +kernel) (by decide +kernel) hcheck
  simp [Rises, Graph.truthFunction_comparing] at hx

end Verdict

end AndInverter
