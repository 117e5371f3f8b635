import AndInverter.Clausal.Consequence
import AndInverter.Clausal.Encoding
import AndInverter.Proofs.Contract

/-!
# Copies of clauses in a formula

A copy of clauses in a block of variables says of the block what the clauses say of their own
variables, and adds nothing else to the formula.
-/

namespace AndInverter.Clausal

variable {f : Formula} {c : Clause} {l : Literal} {b : Block} {m : Nat → Bool} {v : Nat}

theorem satisfies_nil (m : Nat → Bool) : Satisfies m [] := by simp [Satisfies]

theorem satisfies_cons {cs : List Clause} :
    Satisfies m (c :: cs) ↔ Clause.eval m c = true ∧ Satisfies m cs := List.forall_mem_cons

def Literal.shift (k : Nat) (l : Literal) : Literal := ⟨k + l.var, l.positive⟩

theorem Clause.eval_map_shift (k : Nat) (m : Nat → Bool) (c : Clause) :
    Clause.eval m (c.map (Literal.shift k)) = Clause.eval (fun v => m (k + v)) c := by
  simp only [Clause.eval, List.any_map]
  rfl

namespace Formula

theorem eval_addClause (m : Nat → Bool) (f : Formula) (c : Clause) :
    (f.addClause c).eval m = (f.eval m && c.eval m) := by
  simp [eval, addClause]

theorem foldl_max_eq {n : Nat} (h : ∀ l ∈ c, l.var < n) :
    c.foldl (fun n l => max n (l.var + 1)) n = n := by
  induction c with
  | nil => rfl
  | cons l c ih =>
    have hl := h l List.mem_cons_self
    rw [List.foldl_cons, Nat.max_eq_left hl]
    exact ih fun k hk => h k (List.mem_cons_of_mem l hk)

theorem numVars_addClause (h : ∀ l ∈ c, l.var < f.numVars) :
    (f.addClause c).numVars = f.numVars := foldl_max_eq h

end Formula

namespace Block

theorem place_eq_ok (h : v < b.count) : b.place v = .ok (b.base + v) := if_pos h

theorem placeLiteral_eq_ok (h : l.var < b.count) : b.placeLiteral l = .ok (l.shift b.base) := by
  rw [placeLiteral, place_eq_ok h]
  rfl

theorem mapM_placeLiteral_eq_ok (h : ∀ l ∈ c, l.var < b.count) :
    c.mapM b.placeLiteral = .ok (c.map (Literal.shift b.base)) := by
  induction c with
  | nil => rfl
  | cons l c ih =>
    rw [List.mapM_cons, placeLiteral_eq_ok (h l List.mem_cons_self)]
    change (c.mapM b.placeLiteral >>= fun ls => pure (l.shift b.base :: ls)) = _
    rw [ih fun k hk => h k (List.mem_cons_of_mem l hk)]
    rfl

end Block

def addCopies (b : Block) (f : Formula) (cs : List Clause) : Formula :=
  cs.foldl (fun f c => f.addClause (c.map (Literal.shift b.base))) f

theorem numVars_addCopies {cs : List Clause} (hf : b.base + b.count ≤ f.numVars)
    (h : ∀ c ∈ cs, ∀ l ∈ c, l.var < b.count) : (addCopies b f cs).numVars = f.numVars := by
  induction cs generalizing f with
  | nil => rfl
  | cons c cs ih =>
    have hc : (f.addClause (c.map (Literal.shift b.base))).numVars = f.numVars := by
      refine Formula.numVars_addClause fun l hl => ?_
      obtain ⟨k, hk, rfl⟩ := List.mem_map.mp hl
      have hlt := h c List.mem_cons_self k hk
      simp only [Literal.shift]
      omega
    change (addCopies b (f.addClause _) cs).numVars = f.numVars
    rw [ih (hc ▸ hf) fun d hd => h d (List.mem_cons_of_mem c hd), hc]

theorem eval_addCopies {cs : List Clause} : (addCopies b f cs).eval m = true ↔
    f.eval m = true ∧ Satisfies (fun v => m (b.base + v)) cs := by
  induction cs generalizing f with
  | nil => exact ⟨fun h => ⟨h, satisfies_nil _⟩, And.left⟩
  | cons c cs ih =>
    change (addCopies b (f.addClause _) cs).eval m = true ↔ _
    rw [ih, Formula.eval_addClause, Clause.eval_map_shift, Bool.and_eq_true, and_assoc,
      satisfies_cons]

theorem Encoding.addTo_eq_ok {e : Encoding} (hb : b.count = e.numVars)
    (h : ∀ c ∈ e.clauses, ∀ l ∈ c, l.var < e.numVars) :
    e.addTo f b = .ok (addCopies b f e.clauses) := by
  rw [addTo, if_pos hb]
  rw [← hb] at h
  generalize e.clauses = cs at h
  induction cs generalizing f with
  | nil => rfl
  | cons c cs ih =>
    rw [List.foldlM_cons, Block.mapM_placeLiteral_eq_ok (h c List.mem_cons_self)]
    exact ih fun d hd => h d (List.mem_cons_of_mem c hd)

end AndInverter.Clausal
