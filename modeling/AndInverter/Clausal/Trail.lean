import AndInverter.Clausal.Consequence
import AndInverter.Clausal.Table

/-!
# Trails

A partial assignment that grows literal by literal. Literals are chosen or forced by a clause; each
choice opens a new level, and what is forced before the first choice has level zero.
-/

namespace AndInverter.Clausal

/-- The value of a variable, and the clause that forced it unless it was chosen. -/
structure Entry (cs : List Clause) where
  value : Bool
  level : Nat
  reason : Option (Consequence cs)

structure Trail (cs : List Clause) where
  /-- The variables, `none` for one that is still open. -/
  entries : Table (Option (Entry cs))
  level : Nat := 0
  /-- The literals made true at the present level, the latest first. -/
  recent : List Literal := []

inductive Status where
  | falsified
  /-- All literals but this one are false. -/
  | forces (l : Literal)
  | idle

namespace Trail

variable {cs : List Clause}

/-- The value of a literal. A variable out of range counts as false. -/
def value? (t : Trail cs) (l : Literal) : Option Bool :=
  match t.entries.get? l.var with
  | some (some e) => some (e.value == l.positive)
  | some none => none
  | none => some false

def entry? (t : Trail cs) (l : Literal) : Option (Entry cs) := (t.entries.get? l.var).join

def levelOf (t : Trail cs) (l : Literal) : Nat := ((t.entry? l).map Entry.level).getD 0

def status (t : Trail cs) : Clause → Status
  | [] => .falsified
  | l :: ls =>
    match t.value? l with
    | some true => .idle
    | some false => t.status ls
    | none => if ls.all fun k => t.value? k == some false then .forces l else .idle

def dropRoot (t : Trail cs) (c : Consequence cs) : Consequence cs :=
  c.clause.foldl (fun c l =>
    match t.entry? l with
    | some ⟨_, 0, some r⟩ => c.resolve r l
    | _ => c) c

def push : Trail cs → Literal → Option (Consequence cs) → Trail cs
  | ⟨entries, level, recent⟩, l, reason =>
    ⟨entries.set l.var (some ⟨l.positive, level, reason⟩), level, l :: recent⟩

def force (t : Trail cs) (l : Literal) (c : Consequence cs) : Trail cs :=
  let reason := if t.level = 0 then t.dropRoot c else c
  t.push l (some reason)

def choose (t : Trail cs) (l : Literal) : Trail cs :=
  push ⟨t.entries, t.level + 1, []⟩ l none

def openCount (t : Trail cs) : Nat := t.entries.countP Option.isNone

theorem openCount_push_lt {t : Trail cs} {l : Literal} (h : t.value? l = none)
    (r : Option (Consequence cs)) : (t.push l r).openCount < t.openCount := by
  simp only [value?] at h
  split at h
  · cases h
  · rename_i he
    exact Table.countP_set_lt he rfl rfl
  · cases h

theorem openCount_force_lt {t : Trail cs} {l : Literal} (h : t.value? l = none)
    (c : Consequence cs) : (t.force l c).openCount < t.openCount :=
  openCount_push_lt h _

theorem openCount_choose_lt {t : Trail cs} {l : Literal} (h : t.value? l = none) :
    (t.choose l).openCount < t.openCount :=
  openCount_push_lt (t := ⟨t.entries, t.level + 1, []⟩) h none

theorem value?_of_status_eq_forces {t : Trail cs} {c : Clause} {l : Literal}
    (h : t.status c = .forces l) : t.value? l = none := by
  induction c with
  | nil => simp [status] at h
  | cons k ks ih =>
    simp only [status] at h
    split at h
    · cases h
    · exact ih h
    · rename_i hk
      split at h
      · cases h
        exact hk
      · cases h

end Trail

end AndInverter.Clausal
