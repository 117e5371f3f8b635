import AndInverter.Proofs.Diagram.Reached
import AndInverter.Proofs.Diagram.Support

/-!
# What operations on a reached store denote

In every store that operations lead to, whatever it remembers, all operations but choices make the
function they ask for. A choice makes it except at the assignments where it errs: those that lead,
split after split, to a choice between false and a test that holds. A cofactor is the function that
it is taken of exactly if that does not depend on the variable.
-/

namespace AndInverter.DiagramStore

variable {s : DiagramStore} {op : Operation} {f g h : Ref} {v : Nat}

theorem Fails.size_eq_capacity_sub_one {s' : DiagramStore} {e : Halt} (hf : s.Fails e s') :
    s'.size = s'.capacity - 1 := by
  have := hf.size_eq
  omega

/-- Connectives, cofactors, cubes and nodes denote what they ask for, or fail on a full store. -/
theorem Reached.run_denotes (hs : Reached s) (hop : op.Admissible s)
    (hite : ∀ f g h, op ≠ .ite f g h) :
    Ensures op.run s (fun r s' => s'.Holds r ∧ ∀ x, s'.eval x r = op.denote s x)
      fun e s' => e = .full s.capacity ∧ s'.size = s'.capacity - 1 :=
  (Operation.run_grows_denotes hs.wellFormed hop hite).mono
    (fun _ _ ⟨_, _, hr⟩ => ⟨hr.holds, hr.eval_eq⟩)
    fun _ _ hf => ⟨hf.isFull, hf.size_eq_capacity_sub_one⟩

/-- A choice denotes what it asks for exactly where it does not err, or fails on a full store. -/
theorem Reached.ite_denotes_iff (hs : Reached s) (hf : s.Holds f) (hg : s.Holds g)
    (hh : s.Holds h) :
    Ensures (StoreM.ite f g h) s
      (fun r s' => s'.Holds r ∧ ∀ x,
        s'.eval x r = (s.eval x f && s.eval x g || !s.eval x f && s.eval x h) ↔
          ¬ s.Errs x ⟨f, g, h⟩)
      fun e s' => e = .full s.capacity ∧ s'.size = s'.capacity - 1 :=
  (Operation.ite_grows_denotes_iff hs.wellFormed ⟨hf, hg, hh⟩).mono
    (fun _ _ ⟨_, _, hr⟩ => hr) fun _ _ hf => ⟨hf.isFull, hf.size_eq_capacity_sub_one⟩

def crossing : DiagramStore :=
  ((Operation.and ⟨2⟩ ⟨4⟩).run.run ((Operation.or ⟨2⟩ ⟨3⟩).run.run ((Operation.var 3).run.run
    ((Operation.var 2).run.run ((Operation.var 1).run.run (ofBits 4)).2).2).2).2).2

theorem crossing_reached : Reached crossing := by
  have hstart : ofBits? 4 = .ok (ofBits 4) := rfl
  unfold crossing
  apply Reached.step
  · apply Reached.step
    · exact .step (.step (.step (.start hstart) (by decide)) (by decide)) (by decide)
    · decide +kernel
  · decide +kernel

/-- With the first variable false, the choice is split down to one between false and the second
variable, and errs if that variable is true. -/
theorem Reached.ite_denotes_iff_crossing :
    Reached crossing ∧ crossing.Holds ⟨5⟩ ∧ crossing.Holds ⟨6⟩ ∧ crossing.Holds ⟨3⟩ ∧
      ((StoreM.ite ⟨5⟩ ⟨6⟩ ⟨3⟩).run crossing).1.toOption = some ⟨7⟩ ∧
      crossing.Errs (· == 2) ⟨⟨5⟩, ⟨6⟩, ⟨3⟩⟩ ∧ ¬ crossing.Errs (· == 1) ⟨⟨5⟩, ⟨6⟩, ⟨3⟩⟩ := by
  have hdisj : crossing.Holds ⟨5⟩ := by decide +kernel
  have hconj : crossing.Holds ⟨6⟩ := by decide +kernel
  have hvar : crossing.Holds ⟨3⟩ := by decide +kernel
  have hrun : ((StoreM.ite ⟨5⟩ ⟨6⟩ ⟨3⟩).run crossing).1.toOption = some ⟨7⟩ := by decide +kernel
  have hiff := (Reached.ite_denotes_iff crossing_reached hdisj hconj hvar).of_toOption_eq hrun
  refine ⟨crossing_reached, hdisj, hconj, hvar, hrun, ?_, ?_⟩
  · by_contra herrs
    exact absurd ((hiff.2 _).mpr herrs) (by decide +kernel)
  · exact (hiff.2 _).mp (by decide +kernel)

def single : DiagramStore := ((Operation.var 1).run.run (ofBits 4)).2

/-- A choice between false and the variable, made by the variable, is always false; the store gives
the variable. -/
theorem not_ite_denotes : ¬ ∀ s : DiagramStore, Reached s → ∀ f g h : Ref, s.Holds f → s.Holds g →
    s.Holds h → ∀ r, ((StoreM.ite f g h).run s).1.toOption = some r → ∀ x,
      ((StoreM.ite f g h).run s).2.eval x r =
        (s.eval x f && s.eval x g || !s.eval x f && s.eval x h) := by
  intro hall
  have hstart : ofBits? 4 = .ok (ofBits 4) := rfl
  have hreached : Reached single := .step (.start hstart) (by decide)
  have hvar : single.Holds ⟨2⟩ := by decide
  have hzero : single.Holds .zero := by decide
  have hrun : ((StoreM.ite ⟨2⟩ .zero ⟨2⟩).run single).1.toOption = some ⟨2⟩ := by decide +kernel
  have heval := hall single hreached ⟨2⟩ .zero ⟨2⟩ hvar hzero hvar ⟨2⟩ hrun fun _ => true
  exact absurd heval (by decide +kernel)

def crossed : DiagramStore := ((Operation.ite ⟨5⟩ ⟨6⟩ ⟨3⟩).run.run crossing).2

theorem Reached.run_denotes_crossed :
    Reached crossed ∧ ((Operation.xor ⟨5⟩ ⟨6⟩).run.run crossed).1.toOption = some ⟨-8⟩ ∧
      ∀ x, ((Operation.xor ⟨5⟩ ⟨6⟩).run.run crossed).2.eval x ⟨-8⟩ =
        (crossed.eval x ⟨5⟩ ^^ crossed.eval x ⟨6⟩) := by
  have hreached : Reached crossed := .step crossing_reached (by decide +kernel)
  have hop : (Operation.xor ⟨5⟩ ⟨6⟩).Admissible crossed := by decide +kernel
  have hrun : ((Operation.xor ⟨5⟩ ⟨6⟩).run.run crossed).1.toOption = some ⟨-8⟩ := by
    decide +kernel
  have hdenotes := Reached.run_denotes hreached hop fun f g h => by simp
  exact ⟨hreached, hrun, (hdenotes.of_toOption_eq hrun).2⟩

/-- A cofactor denotes the function with the variable set. It neither depends on the variable nor
tests it, and it is the function itself exactly if that does not depend on the variable. -/
theorem Reached.restrict_fixes (hs : Reached s) (hf : s.Holds f) (hv : v ≠ 0) (b : Bool) :
    Ensures (StoreM.restrict f v b) s
      (fun r s' => s'.Holds r ∧ s.Preserves s' ∧
        (∀ x, s'.eval x r = s.eval (Function.update x v b) f) ∧
        ¬ Sensitive (fun x => s'.eval x r) v ∧ v ∉ s'.support r ∧
        (r = f ↔ ¬ Sensitive (fun x => s.eval x f) v))
      fun e s' => e = .full s.capacity ∧ s'.size = s'.capacity - 1 := by
  have hwf := hs.wellFormed
  refine (StoreM.restrict_grows hwf hf hv).mono ?_ fun _ _ hfail =>
    ⟨hfail.isFull, hfail.size_eq_capacity_sub_one⟩
  rintro r s' ⟨hext, hs', hr⟩
  have hkeeps := hext.preserves hwf.toReduced
  have hfixed : ¬ Sensitive (fun x => s'.eval x r) v := by
    rw [funext hr.eval_eq]
    exact not_sensitive_update (fun x => s.eval x f) v b
  refine ⟨hr.holds, hkeeps, hr.eval_eq, hfixed, ?_, ?_⟩
  · rwa [hs'.mem_support_iff hr.holds]
  · rw [← funext (hkeeps f hf).2]
    refine hs'.eq_iff_not_sensitive (b := b) hr.holds (hext.holds hf) fun x => ?_
    rw [hr.eval_eq, (hkeeps f hf).2]

/-- In the store that the erring choice leaves, a complemented disjunction with its first variable
false is the complement of the second, and setting the first variable in the second changes
nothing. -/
theorem Reached.restrict_fixes_crossed :
    Reached crossed ∧ crossed.Holds ⟨-5⟩ ∧ crossed.Holds ⟨3⟩ ∧
      ((StoreM.restrict ⟨-5⟩ 1 false).run crossed).1.toOption = some ⟨-3⟩ ∧
      Sensitive (fun x => crossed.eval x ⟨-5⟩) 1 ∧
      ((StoreM.restrict ⟨3⟩ 1 false).run crossed).1.toOption = some ⟨3⟩ ∧
      ¬ Sensitive (fun x => crossed.eval x ⟨3⟩) 1 := by
  have hreached : Reached crossed := .step crossing_reached (by decide +kernel)
  have hdisj : crossed.Holds ⟨-5⟩ := by decide +kernel
  have hvar : crossed.Holds ⟨3⟩ := by decide +kernel
  have hset : ((StoreM.restrict ⟨-5⟩ 1 false).run crossed).1.toOption = some ⟨-3⟩ := by
    rw [StoreM.restrict, StoreM.restrictNode]
    decide +kernel
  have hkept : ((StoreM.restrict ⟨3⟩ 1 false).run crossed).1.toOption = some ⟨3⟩ := by
    rw [StoreM.restrict, StoreM.restrictNode]
    decide +kernel
  obtain ⟨-, -, -, -, -, hiff⟩ :=
    (Reached.restrict_fixes hreached hdisj Nat.one_ne_zero false).of_toOption_eq hset
  obtain ⟨-, -, -, -, -, hiff'⟩ :=
    (Reached.restrict_fixes hreached hvar Nat.one_ne_zero false).of_toOption_eq hkept
  refine ⟨hreached, hdisj, hvar, hset, ?_, hkept, hiff'.mp rfl⟩
  by_contra hsens
  exact absurd (hiff.mpr hsens) (by decide)

end AndInverter.DiagramStore
