import AndInverter.Diagram.Cofactor
import AndInverter.Proofs.Contract

/-!
# The functions that references denote

A reference denotes a Boolean function of the variables: from a node on, the value of its variable
leads to one of its children, and each sign on the way complements the result. What a store holds
keeps its function while the store grows.
-/

namespace AndInverter

namespace Ref

variable {q r : Ref}

@[simp, grind =] theorem neg_neg (r : Ref) : - -r = r := by
  rcases r with ⟨c⟩
  change (⟨- -c⟩ : Ref) = ⟨c⟩
  rw [Int.neg_neg]

@[simp, grind =] theorem neg_one : -one = zero := rfl

@[simp, grind =] theorem neg_zero : -zero = one := rfl

@[grind =] theorem neg_inj : -q = -r ↔ q = r := by
  constructor
  · intro h
    rw [← neg_neg q, h, neg_neg]
  · rintro rfl
    rfl

theorem isNegated_neg (h : 0 < r.index) : (-r).IsNegated ↔ ¬ r.IsNegated := by
  rcases r with ⟨c⟩
  change -c < 0 ↔ ¬ c < 0
  simp only [index] at h
  omega

theorem not_isNegated_neg (h : r.IsNegated) : ¬ (-r).IsNegated := by
  rcases r with ⟨c⟩
  change c < 0 at h
  change ¬ -c < 0
  omega

theorem neg_ne_self (h : 0 < r.index) : -r ≠ r := by
  rcases r with ⟨c⟩
  change (⟨-c⟩ : Ref) ≠ ⟨c⟩
  rw [Ne, Ref.mk.injEq]
  simp only [index] at h
  omega

theorem ext_iff : q = r ↔ q.index = r.index ∧ (q.IsNegated ↔ r.IsNegated) := by
  rcases q with ⟨c⟩
  rcases r with ⟨d⟩
  rw [Ref.mk.injEq]
  simp only [index, IsNegated]
  omega

theorem eq_neg_of_isNegated (h : r.IsNegated) : r = -⟨r.index⟩ := by
  rcases r with ⟨c⟩
  change c < 0 at h
  change (⟨c⟩ : Ref) = ⟨-(c.natAbs : Int)⟩
  rw [Ref.mk.injEq]
  omega

theorem eq_of_not_isNegated (h : ¬ r.IsNegated) : r = ⟨r.index⟩ := by
  rcases r with ⟨c⟩
  change ¬ c < 0 at h
  change (⟨c⟩ : Ref) = ⟨(c.natAbs : Int)⟩
  rw [Ref.mk.injEq]
  omega

theorem eq_one_or_eq_zero (h : r.index = 1) : r = one ∨ r = zero := by
  rcases r with ⟨c⟩
  simp only [index] at h
  rw [one, zero, Ref.mk.injEq, Ref.mk.injEq]
  omega

theorem ofIndex_eq {i : Nat} (h : i < 2147483648) : ofIndex i = ⟨i⟩ := by
  rw [ofIndex, Int32.toInt_ofNat_of_lt (by omega)]

theorem negIf_not (r : Ref) (c : Bool) : r.negIf (!c) = -(r.negIf c) := by
  cases c
  · rfl
  · exact (neg_neg r).symm

theorem negIf_negIf (r : Ref) (c : Bool) : (r.negIf c).negIf c = r := by
  cases c
  · rfl
  · exact neg_neg r

@[simp] theorem index_regular (r : Ref) : r.regular.index = r.index := Int.natAbs_natCast _

theorem isNegated_negIf {c : Bool} (hr : ¬ r.IsNegated) (h : 0 < r.index) :
    (r.negIf c).IsNegated ↔ c = true := by
  cases c with
  | false => simpa [negIf] using hr
  | true => simpa [negIf] using (isNegated_neg h).mpr hr

theorem negIf_inj {c : Bool} : q.negIf c = r.negIf c ↔ q = r := by
  cases c with
  | false => rfl
  | true => exact neg_inj

/-- A sign shows in a reference whose plain form has none. -/
theorem eq_of_negIf_eq {c d : Bool} (hq : ¬ q.IsNegated) (hqpos : 0 < q.index)
    (hr : ¬ r.IsNegated) (hrpos : 0 < r.index) (h : q.negIf c = r.negIf d) : q = r ∧ c = d := by
  have hcd : c = d := by
    rw [Bool.eq_iff_iff, ← isNegated_negIf hq hqpos, h, isNegated_negIf hr hrpos]
  subst hcd
  exact ⟨negIf_inj.mp h, rfl⟩

end Ref

namespace DiagramStore

variable {s s' : DiagramStore} {x y : Nat → Bool} {q r : Ref} {b : Bool} {v w : Nat}

/-- The value of the function of a reference, where variable `v` has the value `x v`. -/
def eval (s : DiagramStore) (x : Nat → Bool) (r : Ref) : Bool :=
  if _h : s.topVar r = 0 then !decide r.IsNegated
  else s.eval x (s.child r (x (s.topVar r)))
termination_by r.index
decreasing_by exact index_child_lt (one_lt_index _h)

theorem eval_of_topVar_eq_zero (h : s.topVar r = 0) : s.eval x r = !decide r.IsNegated := by
  rw [eval, dif_pos h]

theorem eval_of_topVar_ne_zero (h : s.topVar r ≠ 0) :
    s.eval x r = s.eval x (s.child r (x (s.topVar r))) := by
  rw [eval, dif_neg h]

def Holds (s : DiagramStore) (r : Ref) : Prop := 0 < r.index ∧ r.index ≤ s.size

/-- The function tests only variables above `v`, if it tests any. -/
def Below (s : DiagramStore) (v : Nat) (r : Ref) : Prop := s.topVar r = 0 ∨ v < s.topVar r

instance : Decidable (s.Holds r) := inferInstanceAs (Decidable (_ ∧ _))

instance : Decidable (s.Below v r) := inferInstanceAs (Decidable (_ ∨ _))

theorem topVar_neg (s : DiagramStore) (r : Ref) : s.topVar (-r) = s.topVar r :=
  topVar_eq_of_index_eq (Ref.index_neg r)

@[simp] theorem holds_neg : s.Holds (-r) ↔ s.Holds r := by simp [Holds]

@[simp] theorem holds_regular : s.Holds r.regular ↔ s.Holds r := by simp [Holds]

@[simp] theorem holds_negIf {c : Bool} : s.Holds (r.negIf c) ↔ s.Holds r := by simp [Holds]

@[simp] theorem below_neg : s.Below v (-r) ↔ s.Below v r := by simp [Below, topVar_neg]

theorem below_one (s : DiagramStore) (v : Nat) : s.Below v .one := .inl rfl

theorem below_zero (s : DiagramStore) (v : Nat) : s.Below v .zero := .inl rfl

theorem Below.trans (hvw : v ≤ w) (h : s.Below w r) : s.Below v r := h.imp_right (by omega)

theorem eval_one (s : DiagramStore) (x : Nat → Bool) : s.eval x .one = true :=
  eval_of_topVar_eq_zero rfl

theorem eval_zero (s : DiagramStore) (x : Nat → Bool) : s.eval x .zero = false :=
  eval_of_topVar_eq_zero rfl

theorem child_neg (h : 0 < r.index) : s.child (-r) b = -(s.child r b) := by
  have hneg : decide (-r).IsNegated = !decide r.IsNegated := by
    rw [decide_eq_decide.mpr (Ref.isNegated_neg h), decide_not]
  simp only [child, Ref.index_neg, hneg, Ref.negIf_not]

theorem cofactor_neg (h : 0 < r.index) : s.cofactor v b (-r) = -(s.cofactor v b r) := by
  rw [cofactor, cofactor, topVar_neg]
  split
  · exact child_neg h
  · rfl

theorem cofactor_of_topVar_eq_zero (hv : v ≠ 0) (h : s.topVar r = 0) : s.cofactor v b r = r :=
  if_neg (by omega)

/-- A function takes the value of its cofactor at the value of the variable. -/
theorem eval_cofactor_self (hv : v ≠ 0) : s.eval x (s.cofactor v (x v) r) = s.eval x r := by
  rw [cofactor]
  split
  · rename_i h
    rw [eval_of_topVar_ne_zero (by omega : s.topVar r ≠ 0), h]
  · rfl

end DiagramStore

end AndInverter
