import AndInverter.Clausal.Formula

/-!
# Consequences

Clauses that are true in every model of some given clauses. Resolution leads from two of them to a
third.
-/

namespace AndInverter.Clausal

def Satisfies (m : Nat → Bool) (cs : List Clause) : Prop := ∀ c ∈ cs, Clause.eval m c = true

instance (m : Nat → Bool) (cs : List Clause) : Decidable (Satisfies m cs) :=
  inferInstanceAs (Decidable (∀ c ∈ cs, Clause.eval m c = true))

/-- A clause that is true in every model of the clauses `cs`. -/
structure Consequence (cs : List Clause) where
  clause : Clause
  eval_clause : ∀ m, Satisfies m cs → Clause.eval m clause = true

namespace Consequence

variable {cs : List Clause}

def given (cs : List Clause) : List (Consequence cs) :=
  cs.attach.map fun c => ⟨c.1, fun _ h => h c.1 c.2⟩

theorem eval_complement (m : Nat → Bool) (l : Literal) :
    l.complement.eval m = !l.eval m := by
  cases h : l.positive <;> simp [Literal.eval, Literal.complement, h]

/-- The resolvent: the literals of the first clause other than `l`, and those of the second other
than the complement of `l`. -/
def resolve (c d : Consequence cs) (l : Literal) : Consequence cs where
  clause :=
    let rest := c.clause.filter (· != l)
    (d.clause.filter fun k => k != l.complement && !rest.contains k) ++ rest
  eval_clause := by
    intro m h
    have hc := c.eval_clause m h
    have hd := d.eval_clause m h
    simp only [Clause.eval, List.any_eq_true] at hc hd ⊢
    obtain ⟨k, hk, hkm⟩ := hc
    obtain ⟨j, hj, hjm⟩ := hd
    by_cases hkl : k = l
    · have hjl : j ≠ l.complement := by
        intro e
        rw [e, eval_complement, ← hkl, hkm] at hjm
        cases hjm
      by_cases hr : j ∈ c.clause.filter (· != l)
      · exact ⟨j, List.mem_append_right _ hr, hjm⟩
      · refine ⟨j, List.mem_append_left _ (List.mem_filter.mpr ⟨hj, ?_⟩), hjm⟩
        simp only [List.contains_eq_mem, hr, bne_iff_ne.mpr hjl, decide_false, Bool.not_false,
          Bool.and_self]
    · exact ⟨k, List.mem_append_right _ (List.mem_filter.mpr ⟨hk, bne_iff_ne.mpr hkl⟩), hkm⟩

/-- No assignment satisfies clauses of which the empty clause is a consequence. -/
theorem not_satisfies {c : Consequence cs} (h : c.clause = []) (m : Nat → Bool) :
    ¬ Satisfies m cs := by
  intro hm
  have := c.eval_clause m hm
  rw [h] at this
  cases this

end Consequence

end AndInverter.Clausal
