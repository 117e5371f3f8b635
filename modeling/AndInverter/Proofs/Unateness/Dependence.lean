import AndInverter.Proofs.Graph.Cone
import AndInverter.Proofs.Graph.Simulation
import AndInverter.Unateness.Basic
import Mathlib.Logic.Function.Basic
import Mathlib.Logic.Function.DependsOn

/-!
# Dependence of a function on an input

What the four kinds of dependence say of a Boolean function, and the function that an output of a
graph computes. Raising one input and leaving the others as they are, a function `Rises` or `Falls`
under an assignment, and `dependence` goes by which of the two occurs.
-/

namespace AndInverter

def Rises (f : (Nat → Bool) → Bool) (i : Nat) (x : Nat → Bool) : Prop :=
  f (Function.update x i false) = false ∧ f (Function.update x i true) = true

def Falls (f : (Nat → Bool) → Bool) (i : Nat) (x : Nat → Bool) : Prop :=
  f (Function.update x i false) = true ∧ f (Function.update x i true) = false

/-- What a kind of dependence says of a function and an input. -/
def Unateness.Describes (f : (Nat → Bool) → Bool) (i : Nat) : Unateness → Prop
  | .independent => ∀ x, f (Function.update x i false) = f (Function.update x i true)
  | .positive =>
    (∀ x, f (Function.update x i false) = true → f (Function.update x i true) = true) ∧
      ∃ x, Rises f i x
  | .negative =>
    (∀ x, f (Function.update x i true) = true → f (Function.update x i false) = true) ∧
      ∃ x, Falls f i x
  | .binate => (∃ x, Rises f i x) ∧ ∃ x, Falls f i x

def Graph.truthFunction (g : Graph) (output : Nat) (x : Nat → Bool) : Bool :=
  match g.eval (Array.ofFn fun i : Fin g.numInputs => x i) with
  | .ok values => values[output]?.getD false
  | .error _ => false

/-- The verdict that a query about an input is to answer. -/
def Answers (g : Graph) (output i : Nat) (v : Verdict) : Prop :=
  v.output = output ∧ v.input = i ∧
    ∀ u, v.unateness = u ↔ u.Describes (g.truthFunction output) i

def Unateness.ofChanges : Bool → Bool → Unateness
  | false, false => .independent
  | true, false => .positive
  | false, true => .negative
  | true, true => .binate

variable {f : (Nat → Bool) → Bool} {i : Nat} {rises falls : Bool} {u : Unateness}

theorem not_exists_falls_iff : (¬ ∃ x, Falls f i x) ↔
    ∀ x, f (Function.update x i false) = true → f (Function.update x i true) = true := by
  simp [Falls]

theorem not_exists_rises_iff : (¬ ∃ x, Rises f i x) ↔
    ∀ x, f (Function.update x i true) = true → f (Function.update x i false) = true := by
  simp only [Rises, not_exists, not_and_or, Bool.not_eq_false, Bool.not_eq_true]
  refine forall_congr' fun x => ?_
  cases f (Function.update x i true) <;> simp

theorem forall_eq_iff : (∀ x, f (Function.update x i false) = f (Function.update x i true)) ↔
    (¬ ∃ x, Rises f i x) ∧ ¬ ∃ x, Falls f i x := by
  rw [not_exists_falls_iff, not_exists_rises_iff, ← forall_and]
  refine forall_congr' fun x => ?_
  cases f (Function.update x i true) <;> simp

/-- The kinds of dependence exclude each other, and one of them is the case. -/
theorem ofChanges_eq_iff (hrises : rises = true ↔ ∃ x, Rises f i x)
    (hfalls : falls = true ↔ ∃ x, Falls f i x) :
    Unateness.ofChanges rises falls = u ↔ u.Describes f i := by
  cases u with
  | independent =>
    rw [Unateness.Describes, forall_eq_iff, ← hrises, ← hfalls]
    cases rises <;> cases falls <;> simp [Unateness.ofChanges]
  | positive =>
    rw [Unateness.Describes, ← not_exists_falls_iff, ← hrises, ← hfalls]
    cases rises <;> cases falls <;> simp [Unateness.ofChanges]
  | negative =>
    rw [Unateness.Describes, ← not_exists_rises_iff, ← hrises, ← hfalls]
    cases rises <;> cases falls <;> simp [Unateness.ofChanges]
  | binate =>
    rw [Unateness.Describes, ← hrises, ← hfalls]
    cases rises <;> cases falls <;> simp [Unateness.ofChanges]

open Classical in
noncomputable def dependence (f : (Nat → Bool) → Bool) (i : Nat) : Unateness :=
  .ofChanges (decide (∃ x, Rises f i x)) (decide (∃ x, Falls f i x))

theorem dependence_eq_iff : dependence f i = u ↔ u.Describes f i := by
  classical
  apply ofChanges_eq_iff
  · exact decide_eq_true_iff
  · exact decide_eq_true_iff

theorem Answers.unateness_eq {g : Graph} {output : Nat} {v : Verdict} (h : Answers g output i v) :
    v.unateness = dependence (g.truthFunction output) i :=
  (h.2.2 _).mpr (dependence_eq_iff.mp rfl)

/-- What describes a dependence is determined by whether the function rises and falls. -/
theorem describes_congr {h : (Nat → Bool) → Bool} {j : Nat}
    (hrises : (∃ x, Rises f i x) ↔ ∃ x, Rises h j x)
    (hfalls : (∃ x, Falls f i x) ↔ ∃ x, Falls h j x) : u.Describes f i ↔ u.Describes h j := by
  rw [← dependence_eq_iff, ← dependence_eq_iff, dependence, dependence, decide_eq_decide.mpr hrises,
    decide_eq_decide.mpr hfalls]

/-- A function reads its inputs from variables. If every input it depends on can be told from its
variable, it depends on the input as on the variable. -/
theorem describes_relabel {R : Nat → Prop} {varOf inputOf : Nat → Nat}
    (hdepends : ∀ x y, (∀ j, R j → x j = y j) → f x = f y)
    (hinput : ∀ j, R j → inputOf (varOf j) = j) (hi : R i) :
    u.Describes (fun y => f fun j => y (varOf j)) (varOf i) ↔ u.Describes f i := by
  have hvar (y : Nat → Bool) (b : Bool) : f (fun j => Function.update y (varOf i) b (varOf j)) =
      f (Function.update (fun j => y (varOf j)) i b) := by
    refine hdepends _ _ fun j hj => ?_
    by_cases hji : j = i
    · subst hji
      rw [Function.update_self, Function.update_self]
    · have hne : varOf j ≠ varOf i := by
        intro h
        rw [← hinput j hj, h, hinput i hi] at hji
        exact hji rfl
      rw [Function.update_of_ne hji, Function.update_of_ne hne]
  have hback (x : Nat → Bool) (b : Bool) :
      f (fun j => Function.update (fun w => x (inputOf w)) (varOf i) b (varOf j)) =
        f (Function.update x i b) := by
    rw [hvar]
    refine hdepends _ _ fun j hj => ?_
    by_cases hji : j = i
    · subst hji
      rw [Function.update_self, Function.update_self]
    · rw [Function.update_of_ne hji, Function.update_of_ne hji, hinput j hj]
  refine describes_congr ⟨?_, ?_⟩ ⟨?_, ?_⟩
  · rintro ⟨y, hy⟩
    exact ⟨_, by rwa [Rises, hvar, hvar] at hy⟩
  · rintro ⟨x, hx⟩
    exact ⟨fun w => x (inputOf w), by rwa [Rises, hback, hback]⟩
  · rintro ⟨y, hy⟩
    exact ⟨_, by rwa [Falls, hvar, hvar] at hy⟩
  · rintro ⟨x, hx⟩
    exact ⟨fun w => x (inputOf w), by rwa [Falls, hback, hback]⟩

theorem independent_eq_iff
    (h : ∀ x, f (Function.update x i false) = f (Function.update x i true)) :
    .independent = u ↔ u.Describes f i := by
  obtain ⟨hrises, hfalls⟩ := forall_eq_iff.mp h
  exact @ofChanges_eq_iff f i false false u (by simpa using hrises) (by simpa using hfalls)

namespace Graph

variable {g : Graph} {e : Edge} {id output : Nat} {x y : Nat → Bool}

theorem truthFunction_eq (hg : g.WellFormed) (hid : g.outputs[output]? = some id)
    (hn : g.nodes[id]? = some (.output output e)) :
    g.truthFunction output x = g.edgeValueOf x e := by
  have hsize : (Array.ofFn fun i : Fin g.numInputs => x i).size = g.numInputs := Array.size_ofFn
  rw [truthFunction, eval, simulate, if_pos hsize]
  change ((g.outputs.map _)[output]?).getD false = _
  rw [Array.getElem?_map, hid, ← valueOf_output hg hn]
  refine Graph.valueOf_congr hg (P := fun _ => True) (fun _ _ _ _ _ _ => trivial)
    (fun id i _ hi => ?_) trivial
  have hlt := hg.index_lt_numInputs hi
  simp [hlt]

/-- An evaluation under an assignment of all inputs finds the function of the output. -/
theorem exists_eval (x : Nat → Bool) (hout : output < g.numOutputs) : ∃ outputs,
    g.eval (g.assignmentOf x) = .ok outputs ∧
      outputs[output]? = some (g.truthFunction output x) := by
  have heval := g.eval_eq (g.assignmentOf x)
  rw [if_pos (size_assignmentOf g x)] at heval
  refine ⟨_, heval, ?_⟩
  change g.eval (Array.ofFn fun i : Fin g.numInputs => x i) = _ at heval
  rw [truthFunction, heval]
  change _ = some (Option.getD _ false)
  rw [Array.getElem?_map, Array.getElem?_eq_getElem hout, Option.map_some, Option.getD_some]

/-- An output depends on the inputs of the graph. -/
theorem dependsOn_truthFunction (g : Graph) (output : Nat) :
    DependsOn (g.truthFunction output) {i | i < g.numInputs} := by
  intro x y hxy
  have hsame : (Array.ofFn fun i : Fin g.numInputs => x i) = .ofFn fun i : Fin g.numInputs => y i :=
    congrArg Array.ofFn (funext fun i => hxy i i.isLt)
  rw [truthFunction, truthFunction, hsame]

theorem truthFunction_eq_valueOf (hg : g.WellFormed) (hid : g.outputs[output]? = some id) :
    g.truthFunction output x = g.valueOf x id := by
  obtain ⟨e, hn⟩ := hg.output_iff.mp hid
  rw [truthFunction_eq hg hid hn, valueOf_output hg hn]

end Graph

end AndInverter
