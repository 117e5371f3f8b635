import AndInverter.Clausal.Search
import AndInverter.Clausal.Trail

/-!
# Search with learning

A solver that learns from dead ends. Where the choices made so far leave a clause false, resolution
with the clauses that forced its literals yields a new consequence. It is remembered, and the search
resumes at the earliest level at which the new clause forces a literal.
-/

namespace AndInverter.Clausal

structure Lesson (cs : List Clause) where
  clause : Consequence cs
  /-- The variables at which resolution led to the clause. -/
  pivots : List Nat := []

structure Memory (cs : List Clause) where
  /-- The known consequences that contain a literal, by its index. -/
  occurrences : Array (List (Consequence cs))
  /-- The variables in the order of choice: those of the latest dead ends first, then all from the
  last down, since gates are numbered after their fanins. -/
  order : List Nat

def Literal.index (l : Literal) : Nat := 2 * l.var + l.positive.toNat

namespace Memory

variable {cs : List Clause}

def enter (occurrences : Array (List (Consequence cs))) (c : Consequence cs) :
    Array (List (Consequence cs)) :=
  c.clause.foldl (fun os l => os.modify l.index (c :: ·)) occurrences

def initial (cs : List Clause) (n : Nat) : Memory cs where
  occurrences := (Consequence.given cs).foldl enter (.replicate (2 * n) [])
  order := (List.range n).reverse

def learn : Memory cs → Lesson cs → Memory cs
  | ⟨occurrences, order⟩, ⟨c, pivots⟩ =>
    ⟨enter occurrences c, c.clause.map Literal.var ++ (pivots ++ order)⟩

def against (s : Memory cs) (l : Literal) : List (Consequence cs) :=
  s.occurrences[l.complement.index]?.getD []

end Memory

namespace Trail

variable {cs : List Clause}

structure Spread (cs : List Clause) where
  trail : Trail cs
  pending : List Literal
  conflict : Option (Consequence cs) := none

def visit (t : Trail cs) (pending : List Literal) : List (Consequence cs) → Spread cs
  | [] => { trail := t, pending }
  | c :: rest =>
    match t.status c.clause with
    | .falsified => { trail := t, pending, conflict := some c }
    | .forces l => (t.force l c).visit (l :: pending) rest
    | .idle => t.visit pending rest

theorem openCount_visit_add_le (t : Trail cs) (pending : List Literal)
    (ds : List (Consequence cs)) :
    (t.visit pending ds).trail.openCount + (t.visit pending ds).pending.length ≤
      t.openCount + pending.length := by
  induction ds generalizing t pending with
  | nil => exact Nat.le_refl _
  | cons c rest ih =>
    simp only [visit]
    split
    · exact Nat.le_refl _
    · rename_i l hl
      have := ih (t.force l c) (l :: pending)
      have := openCount_force_lt (value?_of_status_eq_forces hl) c
      simp only [List.length_cons] at *
      omega
    · exact ih t pending

theorem openCount_visit_le (t : Trail cs) (pending : List Literal) (ds : List (Consequence cs)) :
    (t.visit pending ds).trail.openCount ≤ t.openCount := by
  induction ds generalizing t pending with
  | nil => exact Nat.le_refl _
  | cons c rest ih =>
    simp only [visit]
    split
    · exact Nat.le_refl _
    · rename_i l hl
      have := ih (t.force l c) (l :: pending)
      have := openCount_force_lt (value?_of_status_eq_forces hl) c
      omega
    · exact ih t pending

def propagate (s : Memory cs) (t : Trail cs) : List Literal → Spread cs
  | [] => { trail := t, pending := [] }
  | l :: ls =>
    match _h : t.visit ls (s.against l) with
    | ⟨t', pending, none⟩ => t'.propagate s pending
    | ⟨t', pending, some c⟩ => ⟨t', pending, some c⟩
termination_by ls => t.openCount + ls.length
decreasing_by
  have := openCount_visit_add_le t ls (s.against l)
  simp only [_h, List.length_cons] at *
  omega

theorem openCount_propagate_le (s : Memory cs) (t : Trail cs) (ls : List Literal) :
    (t.propagate s ls).trail.openCount ≤ t.openCount := by
  fun_induction propagate s t ls with
  | case1 => exact Nat.le_refl _
  | case2 t l ls t' pending h ih =>
    have := openCount_visit_le t ls (s.against l)
    simp only [h] at this
    exact Nat.le_trans ih this
  | case3 t l ls t' pending c h =>
    have := openCount_visit_le t ls (s.against l)
    simpa only [h] using this

/-- Resolves a false clause with the reasons of its literals, the latest first, until only one of
them belongs to the present level. -/
def resolveRecent (t : Trail cs) : Lesson cs → List Literal → Lesson cs
  | s, [] => s
  | ⟨c, pivots⟩, l :: ls =>
    if c.clause.contains l.complement then
      if c.clause.countP (t.levelOf · == t.level) ≤ 1 then ⟨c, pivots⟩
      else
        match (t.entry? l).bind Entry.reason with
        | some r => t.resolveRecent ⟨c.resolve (t.dropRoot r) l.complement, l.var :: pivots⟩ ls
        | none => ⟨c, pivots⟩
    else t.resolveRecent ⟨c, pivots⟩ ls

def lesson (t : Trail cs) (c : Consequence cs) : Lesson cs :=
  let s : Lesson cs := { clause := t.dropRoot c }
  if t.level = 0 then s else t.resolveRecent s t.recent

/-- The literal that a clause forces at this level and at no earlier one. -/
def asserted? (t : Trail cs) (c : Consequence cs) : Option Literal :=
  match t.status c.clause with
  | .forces l =>
    if c.clause.foldl (fun n k => max n (t.levelOf k)) 0 = t.level then some l else none
  | _ => none

theorem value?_of_asserted? {t : Trail cs} {c : Consequence cs} {l : Literal}
    (h : t.asserted? c = some l) : t.value? l = none := by
  simp only [asserted?] at h
  split at h
  · rename_i hk
    split at h
    · cases h
      exact value?_of_status_eq_forces hk
    · cases h
  · cases h

def firstOpen? (t : Trail cs) : List Nat → Option (Nat × List Nat)
  | [] => none
  | v :: vs => if t.value? ⟨v, false⟩ = none then some (v, vs) else t.firstOpen? vs

theorem value?_of_firstOpen? {t : Trail cs} {vs ws : List Nat} {v : Nat}
    (h : t.firstOpen? vs = some (v, ws)) : t.value? ⟨v, false⟩ = none := by
  induction vs with
  | nil => cases h
  | cons u us ih =>
    simp only [firstOpen?] at h
    split at h
    · cases h
      assumption
    · exact ih h

end Trail

inductive Finding (cs : List Clause) where
  | complete (t : Trail cs)
  | deadEnd (c : Consequence cs)

def explore {cs : List Clause} (s : Memory cs) (t : Trail cs) (pending : List Literal)
    (order : List Nat) : Finding cs × Memory cs :=
  match _hp : t.propagate s pending with
  | ⟨t', _, some c⟩ =>
    let lesson := t'.lesson c
    (.deadEnd lesson.clause, s.learn lesson)
  | ⟨t', _, none⟩ =>
    match _hv : t'.firstOpen? order with
    | none => (.complete t', s)
    | some (v, rest) =>
      match explore s (t'.choose ⟨v, false⟩) [⟨v, false⟩] rest with
      | (.complete t, s') => (.complete t, s')
      | (.deadEnd c, s') =>
        match _hl : t'.asserted? c with
        | some l => explore s' (t'.force l c) [l] s'.order
        | none => (.deadEnd c, s')
termination_by t.openCount
decreasing_by
  all_goals
    have := Trail.openCount_propagate_le s t pending
    simp only [_hp] at this
  · exact Nat.lt_of_lt_of_le (Trail.openCount_choose_lt (Trail.value?_of_firstOpen? _hv)) this
  · exact Nat.lt_of_lt_of_le (Trail.openCount_force_lt (Trail.value?_of_asserted? _hl) c) this

def varCount (cs : List Clause) : Nat :=
  cs.foldl (fun n c => c.foldl (fun n l => max n (l.var + 1)) n) 0

def exploreAll (cs : List Clause) : Finding cs :=
  let n := varCount cs
  let s := Memory.initial cs n
  let t : Trail cs := { entries := .replicate n none }
  match t.visit [] (Consequence.given cs) with
  | ⟨t', _, some c⟩ => .deadEnd (t'.lesson c).clause
  | ⟨t', pending, none⟩ => (explore s t' pending s.order).1

/-- The solver that learns. A finding that settles nothing is left to the plain search. -/
def Solver.learning : Solver Unit where
  start := ()
  solve f assumptions :=
    let cs := assumptions.map ([·]) ++ f.clauses.toList
    match exploreAll cs with
    | .complete t =>
      let m v := t.value? ⟨v, true⟩ == some true
      if Satisfies m cs then pure (.satisfiable m) else Solver.branching.solve f assumptions
    | .deadEnd c =>
      if c.clause.isEmpty then pure .unsatisfiable else Solver.branching.solve f assumptions

end AndInverter.Clausal
