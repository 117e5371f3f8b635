import AndInverter.Proofs.Diagram.Denotation
import AndInverter.Proofs.Diagram.Models
import Mathlib.Order.Interval.Finset.Nat

/-!
# Counting models by halves

The models of a function can be counted by recursion: those of its two parts together, halved. Where
there are at least as many variables to count over as the function depends on, every halving is
exact, and the count is the number of models over these variables.
-/

namespace AndInverter.DiagramStore

variable {s : DiagramStore} {f r : Ref} {b : Bool} {D : Finset Nat} {k n v : Nat}

def half? (n : Nat) : Option Nat := if n % 2 = 0 then some (n / 2) else none

def signed? (total n : Nat) (f : Ref) : Option Nat :=
  if f.IsNegated then if n ≤ total then some (total - n) else none else some n

/-- The number of models of a function out of `total` assignments, with a memory of the functions
counted so far. There is none if a number that has to be halved is odd or a difference is
negative. -/
def countByHalves (s : DiagramStore) (total : Nat) (f : Ref) :
    StateT (Std.HashMap Ref Nat) Option Nat := do
  if f = .zero then return 0
  if f = .one then return total
  if let some n := (← get)[f]? then return n
  if _h : 1 < f.index then
    let low ← s.countByHalves total (s.child f.regular false)
    let high ← s.countByHalves total (s.child f.regular true)
    let n ← signed? total (← half? (low + high)) f
    modify (·.insert f n)
    return n
  else failure
termination_by f.index
decreasing_by all_goals exact index_child_lt (r := f.regular) _h

theorem half?_two_mul (n : Nat) : half? (2 * n) = some n := by
  rw [half?, if_pos (Nat.mul_mod_right 2 n), Nat.mul_div_cancel_left n Nat.two_pos]

theorem signed?_of_le {total : Nat} (h : f.IsNegated → n ≤ total) :
    signed? total n f = some (if f.IsNegated then total - n else n) := by
  unfold signed?
  split
  · rename_i hneg
    rw [if_pos (h hneg)]
  · rfl

def IsCount (s : DiagramStore) (D : Finset Nat) (k : Nat) (f : Ref) (n : Nat) : Prop :=
  n = 2 ^ k * countOn D fun x => s.eval x f

theorem support_congr {q : Ref} (h : q.index = r.index) : s.support q = s.support r := by
  simp only [support, reachableNodes, List.map_cons, List.map_nil, h]

theorem pow_mul_countOn_le (D : Finset Nat) (k : Nat) (F : (Nat → Bool) → Bool) :
    2 ^ k * countOn D F ≤ 2 ^ (k + D.card) := by
  rw [Nat.pow_add, ← countOn_add_countOn_not D F]
  exact Nat.mul_le_mul_left _ (Nat.le_add_right _ _)

namespace Reduced

theorem topVar_mem_support (hs : s.Reduced) (hf : s.Holds f) (h : 1 < f.index) :
    s.topVar f ∈ s.support f :=
  (hs.mem_support_iff hf).mpr (hs.sensitive_topVar hf (hs.topVar_ne_zero hf h))

/-- The parts of a node depend on no variable that the node does not depend on. -/
theorem mem_support_of_part (hs : s.Reduced) (hf : s.Holds f) (h : 1 < f.index)
    (hv : v ∈ s.support (s.child f.regular b)) : v ∈ s.support f := by
  have hregular := holds_regular.mpr hf
  have hindex : 1 < f.regular.index := by rwa [Ref.index_regular]
  rw [hs.mem_support_iff (hs.holds_child hregular hindex)] at hv
  rw [← support_congr (Ref.index_regular f)]
  exact (hs.mem_support_iff hregular).mpr
    (hs.sensitive_of_child hregular (hs.topVar_ne_zero hregular hindex) hv)

/-- The parts of a node have twice as many models as the node, so that halving is exact. -/
theorem add_eq_of_isCount (hs : s.Reduced) (hf : s.Holds f) (h : 1 < f.index)
    (hD : s.topVar f ∈ D) {m : Nat} (hn : s.IsCount D k (s.child f.regular false) n)
    (hm : s.IsCount D k (s.child f.regular true) m) :
    n + m = 2 * (2 ^ k * countOn D fun x => s.eval x ⟨f.index⟩) := by
  have hregular := holds_regular.mpr hf
  have hindex : 1 < f.regular.index := by rwa [Ref.index_regular]
  rw [topVar_eq h] at hD
  rw [hn, hm, ← Nat.mul_add, Nat.mul_left_comm, ← hs.countOn_children h hf.2 hD,
    hs.child_eq hregular hindex, hs.child_eq hregular hindex, Ref.index_regular]
  rfl

end Reduced

section Run

variable {total a c m : Nat} {memo memo₁ memo₂ : Std.HashMap Ref Nat}

theorem countByHalves_zero (s : DiagramStore) (total : Nat) :
    s.countByHalves total .zero = pure 0 := by
  rw [countByHalves, if_pos rfl]

theorem countByHalves_one (s : DiagramStore) (total : Nat) :
    s.countByHalves total .one = pure total := by
  rw [countByHalves, if_neg (by decide), if_pos rfl]

theorem run_countByHalves_of_found (hzero : f ≠ .zero) (hone : f ≠ .one) (h : memo[f]? = some n) :
    (s.countByHalves total f).run memo = some (n, memo) := by
  rw [countByHalves, if_neg hzero, if_neg hone]
  rw [StateT.run_bind, StateT.run_get, pure_bind, h]
  rfl

/-- A function that is not remembered has half of the models of its parts, complemented if it is
complemented. -/
theorem run_countByHalves_of_parts (hzero : f ≠ .zero) (hone : f ≠ .one) (h : memo[f]? = none)
    (hindex : 1 < f.index)
    (hlow : (s.countByHalves total (s.child f.regular false)).run memo = some (a, memo₁))
    (hhigh : (s.countByHalves total (s.child f.regular true)).run memo₁ = some (c, memo₂))
    (hsum : a + c = 2 * m) (hle : f.IsNegated → m ≤ total) :
    (s.countByHalves total f).run memo =
      some (if f.IsNegated then total - m else m,
        memo₂.insert f (if f.IsNegated then total - m else m)) := by
  rw [countByHalves, if_neg hzero, if_neg hone]
  rw [StateT.run_bind, StateT.run_get, pure_bind, h]
  have hhalf : half? (a + c) = some m := by rw [hsum, half?_two_mul]
  simp only [dif_pos hindex, StateT.run_bind, hlow, hhigh, Option.bind_eq_bind, Option.bind_some,
    hhalf, StateT.run_monadLift, StateT.run_modify, monadLift_self, signed?_of_le hle,
    Option.pure_def, StateT.run_pure]

/-- Where all variables of a diagram are counted over, every step of the recursion is exact. -/
theorem Reduced.run_countByHalves (hs : s.Reduced) (hf : s.Holds f) (hD : ∀ v ∈ s.support f, v ∈ D)
    (hmemo : Remembers (s.IsCount D k) memo) :
    ∃ n memo', (s.countByHalves (2 ^ (k + D.card)) f).run memo = some (n, memo') ∧
      s.IsCount D k f n ∧ Remembers (s.IsCount D k) memo' := by
  induction hi : f.index using Nat.strongRecOn generalizing f memo with
  | ind i ih =>
    by_cases hzero : f = .zero
    · subst hzero
      rw [countByHalves_zero]
      refine ⟨0, memo, rfl, ?_, hmemo⟩
      rw [IsCount, funext (eval_zero s), countOn_false, Nat.mul_zero]
    by_cases hone : f = .one
    · subst hone
      rw [countByHalves_one]
      refine ⟨_, memo, rfl, ?_, hmemo⟩
      rw [IsCount, funext (eval_one s), countOn_true, Nat.pow_add]
    cases hfound : memo[f]? with
    | some n =>
      exact ⟨n, memo, run_countByHalves_of_found hzero hone hfound, hmemo _ _ hfound, hmemo⟩
    | none =>
      have hindex : 1 < f.index := by
        have hpos := hf.1
        by_contra hle
        exact (Ref.eq_one_or_eq_zero (by omega)).elim hone hzero
      have hregular := holds_regular.mpr hf
      have hindex' : 1 < f.regular.index := by rwa [Ref.index_regular]
      have hparts (b : Bool) := hs.holds_child (b := b) hregular hindex'
      have hvars (b : Bool) : ∀ v ∈ s.support (s.child f.regular b), v ∈ D := fun v hv =>
        hD v (hs.mem_support_of_part hf hindex hv)
      have hlt (b : Bool) : (s.child f.regular b).index < i := by
        rw [← hi, ← Ref.index_regular f]
        exact index_child_lt hindex'
      obtain ⟨a, memo₁, hlow, ha, hmemo₁⟩ := ih _ (hlt false) (hparts false) (hvars false) hmemo rfl
      obtain ⟨c, memo₂, hhigh, hc, hmemo₂⟩ := ih _ (hlt true) (hparts true) (hvars true) hmemo₁ rfl
      have hsum := hs.add_eq_of_isCount hf hindex (hD _ (hs.topVar_mem_support hf hindex)) ha hc
      have hcount := (hs.countOn_eq (D := D) (k := k) hf).symm
      exact ⟨_, _, run_countByHalves_of_parts hzero hone hfound hindex hlow hhigh hsum
        fun _ => pow_mul_countOn_le D k _, hcount, hmemo₂.insert hcount⟩

/-- The recursion over a whole diagram, with nothing remembered at first, gives the number of
models. -/
theorem Reduced.countByHalves_eq (hs : s.Reduced) (hf : s.Holds f)
    (hle : (s.support f).length ≤ n) :
    (s.countByHalves (1 <<< n) f).run' ∅ = some (s.modelCount f n) := by
  obtain ⟨m, memo, hrun, hm, -⟩ := hs.run_countByHalves (k := n - (s.support f).length) hf
    (fun v hv => List.mem_toFinset.mpr hv) .empty
  rw [StateT.run'_eq, one_shiftLeft_eq hle, hrun, hs.modelCount_eq hf hle, ← hm]
  rfl

end Run

/-- The models of a function and of its complement are all assignments. -/
theorem Reduced.modelCount_add_neg (hs : s.Reduced) (hf : s.Holds f)
    (hle : (s.support f).length ≤ n) : s.modelCount f n + s.modelCount (-f) n = 2 ^ n := by
  have hindex : (-f).index = f.index := Ref.index_neg f
  have hsupport : s.support (-f) = s.support f := support_congr hindex
  have hneg : s.Holds (-f) := by rwa [Holds, hindex]
  rw [hs.modelCount_eq hf hle, hs.modelCount_eq hneg (by rwa [hsupport]), hsupport,
    funext fun x => hs.eval_neg hf, ← Nat.mul_add, countOn_add_countOn_not, card_support,
    ← Nat.pow_add, Nat.sub_add_cancel hle]

/-- The number of models over as many variables as the function depends on or more is the number of
its models over the variables it depends on, doubled for every further one. The recursion computes
it with every halving exact, and it complements that of the complemented function. -/
theorem Reached.modelCount_exact (hs : Reached s) (hf : s.Holds f)
    (hle : (s.support f).length ≤ n) :
    s.modelCount f n =
        2 ^ (n - (s.support f).length) * countOn (s.support f).toFinset (fun x => s.eval x f) ∧
      ((∀ v ∈ s.support f, v ≤ n) →
        s.modelCount f n = countOn (Finset.Icc 1 n) fun x => s.eval x f) ∧
      (s.countByHalves (1 <<< n) f).run' ∅ = some (s.modelCount f n) ∧
      s.modelCount f n + s.modelCount (-f) n = 2 ^ n := by
  have hred := hs.wellFormed.toReduced
  have hcount := hred.modelCount_eq hf hle
  refine ⟨hcount, ?_, hred.countByHalves_eq hf hle, hred.modelCount_add_neg hf hle⟩
  intro hbound
  have hsubset : (s.support f).toFinset ⊆ Finset.Icc 1 n := by
    intro v hv
    rw [List.mem_toFinset] at hv
    exact Finset.mem_Icc.mpr
      ⟨Nat.pos_of_ne_zero (mem_support_iff_exists.mp hv).1, hbound v hv⟩
  have hdepends : DependsOn (fun x => s.eval x f) ↑(s.support f).toFinset := by
    rw [List.coe_toFinset]
    exact hred.dependsOn_support hf
  rw [hcount, countOn_of_dependsOn hsubset hdepends, Nat.card_Icc, Nat.add_sub_cancel, card_support]

/-- The disjunction of the first two variables has six models over three variables, and its
complement has two. -/
theorem Reached.modelCount_exact_crossing :
    Reached crossing ∧ crossing.Holds ⟨5⟩ ∧ (crossing.support ⟨5⟩).length ≤ 3 ∧
      (∀ v ∈ crossing.support ⟨5⟩, v ≤ 3) ∧
      countOn (Finset.Icc 1 3) (fun x => crossing.eval x ⟨5⟩) = 6 ∧
      (crossing.countByHalves 8 ⟨5⟩).run' ∅ = some 6 ∧ crossing.modelCount (-⟨5⟩) 3 = 2 := by
  have hheld : crossing.Holds ⟨5⟩ := by decide +kernel
  have hle : (crossing.support ⟨5⟩).length ≤ 3 := by decide +kernel
  have hbound : ∀ v ∈ crossing.support ⟨5⟩, v ≤ 3 := by decide +kernel
  have hcount : crossing.modelCount ⟨5⟩ 3 = 6 := by decide +kernel
  obtain ⟨-, hover, hrun, hsum⟩ := Reached.modelCount_exact crossing_reached hheld hle
  refine ⟨crossing_reached, hheld, hle, hbound, (hover hbound).symm.trans hcount, ?_, ?_⟩
  · rwa [hcount] at hrun
  · rw [hcount] at hsum
    omega

end AndInverter.DiagramStore
