import AndInverter.Clausal.Solver

/-!
# Search for models

A plain solver. It branches on a literal of a shortest clause, so that a clause of one literal
is settled at once and an empty clause ends the branch.
-/

namespace AndInverter.Clausal

def assign (l : Literal) : List Clause → List Clause
  | [] => []
  | c :: cs =>
    if c.contains l then assign l cs else c.filter (· != l.complement) :: assign l cs

def literalCount : List Clause → Nat
  | [] => 0
  | c :: cs => c.length + literalCount cs

def shortest? : List Clause → Option Clause
  | [] => none
  | c :: cs =>
    match shortest? cs with
    | none => some c
    | some d => if c.length ≤ d.length then some c else some d

theorem mem_of_shortest? {cs : List Clause} {c : Clause} (h : shortest? cs = some c) : c ∈ cs := by
  induction cs generalizing c with
  | nil => simp [shortest?] at h
  | cons d ds ih =>
    simp only [shortest?] at h
    split at h
    · simp_all
    · split at h
      · simp_all
      · rename_i heq _
        cases h
        exact List.mem_cons_of_mem _ (ih heq)

theorem literalCount_assign_le (l : Literal) (cs : List Clause) :
    literalCount (assign l cs) ≤ literalCount cs := by
  induction cs with
  | nil => exact Nat.le_refl _
  | cons c cs ih =>
    have := List.length_filter_le (· != l.complement) c
    simp only [assign]
    split <;> simp only [literalCount] <;> omega

theorem literalCount_assign_lt {l k : Literal} {c : Clause} {cs : List Clause} (hc : c ∈ cs)
    (hk : k ∈ c) (hl : l = k ∨ l = k.complement) :
    literalCount (assign l cs) < literalCount cs := by
  induction cs with
  | nil => cases hc
  | cons d ds ih =>
    have hle := literalCount_assign_le l ds
    have hf := List.length_filter_le (· != l.complement) d
    simp only [assign]
    rcases List.mem_cons.mp hc with rfl | hc
    · have hpos := List.length_pos_of_mem hk
      split
      · simp only [literalCount]
        omega
      · rename_i hm
        have hlt : (c.filter (· != l.complement)).length < c.length := by
          refine List.length_filter_lt_length_iff_exists.mpr ⟨k, hk, ?_⟩
          rcases hl with rfl | rfl
          · simp [hk] at hm
          · simp [Literal.complement]
        simp only [literalCount]
        omega
    · have := ih hc
      split <;> simp only [literalCount] <;> omega

def search (cs : List Clause) : Option (List Literal) :=
  match _h : shortest? cs with
  | none => some []
  | some [] => none
  | some (l :: _) =>
    match search (assign l cs) with
    | some ls => some (l :: ls)
    | none => (search (assign l.complement cs)).map (l.complement :: ·)
termination_by literalCount cs
decreasing_by
  · exact literalCount_assign_lt (mem_of_shortest? _h) (List.mem_cons_self ..) (.inl rfl)
  · exact literalCount_assign_lt (mem_of_shortest? _h) (List.mem_cons_self ..) (.inr rfl)

/-- The plain solver. Variables that no chosen literal mentions are false in its models. -/
def Solver.branching : Solver Unit where
  start := ()
  solve f assumptions := pure <|
    match search (assumptions.map ([·]) ++ f.clauses.toList) with
    | some ls => .satisfiable fun v => ls.contains ⟨v, true⟩
    | none => .unsatisfiable

end AndInverter.Clausal
