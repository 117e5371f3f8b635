import AndInverter.Proofs.Diagram.Constancy
import AndInverter.Proofs.Diagram.Denotation
import AndInverter.Proofs.Diagram.Models

/-!
# What a reached store answers about its functions

In every store that operations lead to, whatever it remembers, the answers about a function depend
on the function alone: whether it implies another one, the variables it depends on, the number of
its subfunctions and its lowest model. A choice that is constant is recognized, except for some that
are false.
-/

namespace AndInverter.DiagramStore

variable {s : DiagramStore} {f g h : Ref}

/-- Whether a function implies another one is decided without fail, and adds no node. -/
theorem Reached.implies_exact (hs : Reached s) (hf : s.Holds f) (hg : s.Holds g) :
    Ensures (StoreM.implies f g) s
      (fun b s' => s'.nodes = s.nodes ∧ (b = true ↔ ∀ x, s.eval x f = true → s.eval x g = true))
      fun _ _ => False :=
  (StoreM.implies_decides hs.wellFormed hf hg).mono (fun _ _ ⟨hnodes, _, hb⟩ => ⟨hnodes, hb⟩)
    fun _ _ => id

theorem crossed_reached : Reached crossed := .step crossing_reached (by decide +kernel)

def compared : DiagramStore := ((Operation.ite ⟨6⟩ ⟨5⟩ .one).run.run crossed).2

theorem compared_reached : Reached compared := .step crossed_reached (by decide +kernel)

theorem Reached.implies_exact_compared :
    Reached compared ∧ compared.Holds ⟨6⟩ ∧ compared.Holds ⟨5⟩ ∧
      ((StoreM.implies ⟨6⟩ ⟨5⟩).run compared).1.toOption = some true ∧
      ∀ x, compared.eval x ⟨6⟩ = true → compared.eval x ⟨5⟩ = true := by
  have hconj : compared.Holds ⟨6⟩ := by decide +kernel
  have hdisj : compared.Holds ⟨5⟩ := by decide +kernel
  have hrun : ((StoreM.implies ⟨6⟩ ⟨5⟩).run compared).1.toOption = some true := by
    rw [StoreM.implies, StoreM.constantIte?, StoreM.constantChoice?]
    decide +kernel
  have hexact := (Reached.implies_exact compared_reached hconj hdisj).of_toOption_eq hrun
  exact ⟨compared_reached, hconj, hdisj, hrun, hexact.2.mp rfl⟩

/-- A choice that is true is recognized, and one that is false if it does not stumble. The decision
never fails, and adds no node. -/
theorem Reached.constantIte_recognizes (hs : Reached s) (hf : s.Holds f) (hg : s.Holds g)
    (hh : s.Holds h) :
    Ensures (StoreM.constantIte? f g h) s
      (fun b? s' => s'.nodes = s.nodes ∧
        (b? = some true ↔
          ∀ x, (s.eval x f && s.eval x g || !s.eval x f && s.eval x h) = true) ∧
        (b? = some false ↔
          (∀ x, (s.eval x f && s.eval x g || !s.eval x f && s.eval x h) = false) ∧
            ¬ s.Stumbles ⟨f, g, h⟩))
      fun _ _ => False := by
  refine (StoreM.constantIte?_decides hs.wellFormed hf hg hh).mono ?_ fun _ _ => id
  rintro b? s' ⟨hnodes, -, hb⟩
  have hdenote (x : Nat → Bool) : Choice.denote (s.eval x) ⟨f, g, h⟩ =
      (s.eval x f && s.eval x g || !s.eval x f && s.eval x h) := by
    rw [Choice.denote]
    cases s.eval x f
    · simp
    · simp
  simp only [← hdenote]
  exact ⟨hnodes, (hb.eq_some_iff true).trans evident_true_iff, hb.eq_some_iff false⟩

/-- A choice that is remembered as true is recognized. The choice between false and a variable, made
by the variable, is not. -/
theorem Reached.constantIte_recognizes_compared :
    Reached compared ∧ compared.Holds ⟨6⟩ ∧ compared.Holds ⟨5⟩ ∧ compared.Holds .one ∧
      ((StoreM.constantIte? ⟨6⟩ ⟨5⟩ .one).run compared).1.toOption = some (some true) ∧
      (∀ x, (compared.eval x ⟨6⟩ && compared.eval x ⟨5⟩ ||
        !compared.eval x ⟨6⟩ && compared.eval x .one) = true) ∧
      compared.Holds ⟨2⟩ ∧ compared.Holds .zero ∧
      ((StoreM.constantIte? ⟨2⟩ .zero ⟨2⟩).run compared).1.toOption = some none ∧
      compared.Stumbles ⟨⟨2⟩, .zero, ⟨2⟩⟩ := by
  have hconj : compared.Holds ⟨6⟩ := by decide +kernel
  have hdisj : compared.Holds ⟨5⟩ := by decide +kernel
  have hone : compared.Holds .one := by decide +kernel
  have hvar : compared.Holds ⟨2⟩ := by decide +kernel
  have hzero : compared.Holds .zero := by decide +kernel
  have htrue : ((StoreM.constantIte? ⟨6⟩ ⟨5⟩ .one).run compared).1.toOption =
      some (some true) := by
    rw [StoreM.constantIte?, StoreM.constantChoice?]
    decide +kernel
  have hnone : ((StoreM.constantIte? ⟨2⟩ .zero ⟨2⟩).run compared).1.toOption = some none := by
    rw [StoreM.constantIte?, StoreM.constantChoice?]
    decide +kernel
  obtain ⟨-, hiff, -⟩ :=
    (Reached.constantIte_recognizes compared_reached hconj hdisj hone).of_toOption_eq htrue
  obtain ⟨-, -, hiff'⟩ :=
    (Reached.constantIte_recognizes compared_reached hvar hzero hvar).of_toOption_eq hnone
  refine ⟨compared_reached, hconj, hdisj, hone, htrue, hiff.mp rfl, hvar, hzero, hnone, ?_⟩
  by_contra hstumbles
  have hfalse (x : Nat → Bool) : (compared.eval x ⟨2⟩ && compared.eval x .zero ||
      !compared.eval x ⟨2⟩ && compared.eval x ⟨2⟩) = false := by
    rw [eval_zero, Bool.and_false, Bool.false_or, Bool.not_and_self]
  cases hiff'.mpr ⟨hfalse, hstumbles⟩

/-- A choice between false and a variable, made by the variable, is always false; it is not
recognized. -/
theorem not_constantIte_recognizes : ¬ ∀ s : DiagramStore, Reached s → ∀ f g h : Ref, s.Holds f →
    s.Holds g → s.Holds h → ∀ b,
      ((StoreM.constantIte? f g h).run s).1.toOption = some (some b) ↔
        ∀ x, (s.eval x f && s.eval x g || !s.eval x f && s.eval x h) = b := by
  intro hall
  have hstart : ofBits? 4 = .ok (ofBits 4) := rfl
  have hreached : Reached single := .step (.start hstart) (by decide)
  have hvar : single.Holds ⟨2⟩ := by decide
  have hzero : single.Holds .zero := by decide
  have hrun : ((StoreM.constantIte? ⟨2⟩ .zero ⟨2⟩).run single).1.toOption = some none := by
    rw [StoreM.constantIte?, StoreM.constantChoice?]
    decide +kernel
  have hfalse (x : Nat → Bool) : (single.eval x ⟨2⟩ && single.eval x .zero ||
      !single.eval x ⟨2⟩ && single.eval x ⟨2⟩) = false := by
    rw [eval_zero, Bool.and_false, Bool.false_or, Bool.not_and_self]
  have hsome := (hall single hreached ⟨2⟩ .zero ⟨2⟩ hvar hzero hvar false).mpr hfalse
  rw [hrun] at hsome
  cases hsome

/-- A queue finds the nodes of a diagram. The variables that they test are those that the function
depends on, and the nodes stand for the subfunctions, up to the sign. -/
theorem Reached.support_and_size (hs : Reached s) (hf : s.Holds f) :
    s.queuedNodes [f] = s.reachableNodes [f] ∧
      (s.support f).Pairwise (· < ·) ∧
      (∀ v, v ∈ s.support f ↔ Sensitive (fun x => s.eval x f) v) ∧
      s.diagramSize f = (subfunctions fun x => s.eval x f).encard :=
  have hreduced := hs.wellFormed.toReduced
  ⟨hreduced.queuedNodes_eq (List.forall_mem_singleton.mpr hf), pairwise_support s f,
    fun _ => hreduced.mem_support_iff hf, (hreduced.encard_subfunctions hf).symm⟩

/-- The function that the erring choice left. -/
theorem Reached.support_and_size_crossed :
    Reached crossed ∧ crossed.Holds ⟨7⟩ ∧ crossed.support ⟨7⟩ = [1, 2, 3] ∧
      (∀ v, Sensitive (fun x => crossed.eval x ⟨7⟩) v ↔ v ∈ [1, 2, 3]) ∧
      (subfunctions fun x => crossed.eval x ⟨7⟩).encard = 4 := by
  have hheld : crossed.Holds ⟨7⟩ := by decide +kernel
  have hsupport : crossed.support ⟨7⟩ = [1, 2, 3] := by decide +kernel
  have hsize : crossed.diagramSize ⟨7⟩ = 4 := by decide +kernel
  obtain ⟨-, -, hmem, hcard⟩ := Reached.support_and_size crossed_reached hheld
  refine ⟨crossed_reached, hheld, hsupport, fun v => ?_, ?_⟩
  · rw [← hmem, hsupport]
  · rw [← hcard, hsize]
    rfl

/-- The path to true is found without fail, and is missing only for the function that is false. Its
variables ascend, every assignment that agrees with it is a model, and with all other variables
false it is the lowest one. -/
theorem Reached.findLowestPath_lowest (hs : Reached s) (hf : s.Holds f) :
    ∃ path?, s.findLowestPath f = .ok path? ∧ s.lowestPath f = path? ∧
      (path? = none ↔ ∀ x, s.eval x f = false) ∧
      ∀ path, path? = some path →
        path.Pairwise (fun k l => k.var.id < l.var.id) ∧
        (∀ x, (∀ l ∈ path, x l.var.id = !l.negated) → s.eval x f = true) ∧
        Lowest (fun x => s.eval x f) (pathModel path) := by
  have hreduced := hs.wellFormed.toReduced
  by_cases hne : f = .zero
  · subst hne
    exact ⟨none, findLowestPath_zero s, by rw [lowestPath, findLowestPath_zero]; rfl,
      iff_of_true rfl fun _ => eval_zero s _, nofun⟩
  · obtain ⟨path, hpath, h⟩ := hreduced.exists_findLowestPath hf hne
    have hmodel : s.eval (pathModel path) f = true := h.lowest.holds
    have hsome : ¬ ∀ x, s.eval x f = false := fun hall => by simp [hall] at hmodel
    refine ⟨some path, hpath, by rw [lowestPath, hpath]; rfl, iff_of_false nofun hsome, ?_⟩
    intro path' hpath'
    cases Option.some.inj hpath'
    exact ⟨h.ascending, fun _ => h.eval_eq_true, h.lowest⟩

/-- The function that the erring choice left is first true with the second variable. -/
theorem Reached.findLowestPath_lowest_crossed :
    Reached crossed ∧ crossed.Holds ⟨7⟩ ∧
      crossed.lowestPath ⟨7⟩ = some [⟨{ id := 1 }, true⟩, ⟨{ id := 2 }, false⟩] ∧
      Lowest (fun x => crossed.eval x ⟨7⟩)
        (pathModel [⟨{ id := 1 }, true⟩, ⟨{ id := 2 }, false⟩]) := by
  have hheld : crossed.Holds ⟨7⟩ := by decide +kernel
  have hvar : crossed.Holds ⟨3⟩ := by decide +kernel
  have hlow : crossed.child ⟨7⟩ false = ⟨3⟩ := by decide +kernel
  have hhigh : crossed.child ⟨3⟩ true = .one := by decide +kernel
  have hreduced := crossed_reached.wellFormed.toReduced
  have hpath : crossed.lowestPath ⟨7⟩ = some [⟨{ id := 1 }, true⟩, ⟨{ id := 2 }, false⟩] := by
    rw [lowestPath, findLowestPath, if_neg (by decide),
      hreduced.pathToTrue_eq (z := { id := 1 }) hheld (by decide +kernel),
      if_neg (by decide +kernel), hlow,
      hreduced.pathToTrue_eq (z := { id := 2 }) hvar (by decide +kernel),
      if_pos (by decide +kernel), hhigh, pathToTrue_one]
    rfl
  obtain ⟨path?, -, hfound, -, hmodels⟩ := Reached.findLowestPath_lowest crossed_reached hheld
  obtain ⟨-, -, hlowest⟩ := hmodels _ (hfound.symm.trans hpath)
  exact ⟨crossed_reached, hheld, hpath, hlowest⟩

end AndInverter.DiagramStore
