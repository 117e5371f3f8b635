import AndInverter.Proofs.Diagram.Evaluation
import AndInverter.Proofs.Diagram.UniqueTable
import Mathlib.Logic.Function.Basic

/-!
# Reduced stores

In a reduced store no node repeats another one, none has equal children, variables grow towards the
terminal and high children carry no sign. Two references then denote one function only if they are
the same reference.
-/

namespace AndInverter.DiagramStore

variable {s s' s'' : DiagramStore} {x y : Nat → Bool} {q r : Ref} {b : Bool} {i v w : Nat}

/-- A node that is reduced at its variable, with children of its own store before it. -/
structure Proper (s : DiagramStore) (i : Nat) (n : DiagramNode) : Prop where
  var_ne_zero : n.var ≠ 0
  high_regular : ¬ n.high.IsNegated
  low_ne_high : n.low ≠ n.high
  low_pos : 0 < n.low.index
  low_lt : n.low.index < i
  high_pos : 0 < n.high.index
  high_lt : n.high.index < i
  below_low : s.Below n.var n.low
  below_high : s.Below n.var n.high

theorem Proper.holds_low {n : DiagramNode} (hn : s.Proper i n) (hi : i ≤ s.size + 1) :
    s.Holds n.low := ⟨hn.low_pos, Nat.le_of_lt_succ (Nat.lt_of_lt_of_le hn.low_lt hi)⟩

theorem Proper.holds_high {n : DiagramNode} (hn : s.Proper i n) (hi : i ≤ s.size + 1) :
    s.Holds n.high := ⟨hn.high_pos, Nat.le_of_lt_succ (Nat.lt_of_lt_of_le hn.high_lt hi)⟩

structure Reduced (s : DiagramStore) : Prop where
  table : s.nodes.WellFormed
  capacity_le : s.capacity ≤ 2147483648
  size_pos : 0 < s.size
  terminal : (s.nodes.get 1).var = 0
  proper {i : Nat} : 1 < i → i ≤ s.size → s.Proper i (s.nodes.get i)
  found {i : Nat} : 1 < i → i ≤ s.size → s.nodes.search (s.nodes.get i) = .found i

theorem topVar_eq (h : 1 < r.index) : s.topVar r = (s.nodes.get r.index).var :=
  if_neg (by omega)

theorem holds_one (hs : s.Reduced) : s.Holds .one := ⟨Nat.one_pos, hs.size_pos⟩

theorem holds_zero (hs : s.Reduced) : s.Holds .zero := ⟨Nat.one_pos, hs.size_pos⟩

structure Includes (s s' : DiagramStore) : Prop where
  size_le : s.size ≤ s'.size
  get_eq {i : Nat} : 0 < i → i ≤ s.size → s'.nodes.get i = s.nodes.get i

/-- The second store has all nodes of the first one, among the same number of cells. -/
structure Extends (s s' : DiagramStore) : Prop extends s.Includes s' where
  capacity_eq : s'.capacity = s.capacity

namespace Includes

theorem trans (h : s.Includes s') (h' : s'.Includes s'') : s.Includes s'' where
  size_le := Nat.le_trans h.size_le h'.size_le
  get_eq hpos hle := (h'.get_eq hpos (Nat.le_trans hle h.size_le)).trans (h.get_eq hpos hle)

theorem holds (h : s.Includes s') (hr : s.Holds r) : s'.Holds r :=
  ⟨hr.1, Nat.le_trans hr.2 h.size_le⟩

theorem topVar_eq (h : s.Includes s') (hr : s.Holds r) : s'.topVar r = s.topVar r := by
  rw [topVar, topVar, h.get_eq hr.1 hr.2]

theorem below (h : s.Includes s') (hr : s.Holds r) : s'.Below v r ↔ s.Below v r := by
  rw [Below, Below, h.topVar_eq hr]

theorem child_eq (h : s.Includes s') (hr : s.Holds r) : s'.child r b = s.child r b := by
  rw [child, child, h.get_eq hr.1 hr.2]

theorem cofactor_eq (h : s.Includes s') (hr : s.Holds r) :
    s'.cofactor v b r = s.cofactor v b r := by
  rw [cofactor, cofactor, h.topVar_eq hr, h.child_eq hr]

theorem proper (h : s.Includes s') (hi : i ≤ s.size + 1) {n : DiagramNode} (hn : s.Proper i n) :
    s'.Proper i n :=
  { hn with
    below_low := (h.below (hn.holds_low hi)).mpr hn.below_low
    below_high := (h.below (hn.holds_high hi)).mpr hn.below_high }

end Includes

theorem includes_of_nodes_eq (h : s'.nodes = s.nodes) : s.Includes s' :=
  ⟨Nat.le_of_eq (by rw [size, size, h]), fun _ _ => by rw [h]⟩

theorem extends_of_nodes_eq (h : s'.nodes = s.nodes) : s.Extends s' :=
  ⟨includes_of_nodes_eq h, congrArg UniqueTable.capacity h⟩

namespace Extends

theorem refl (s : DiagramStore) : s.Extends s := ⟨⟨Nat.le_refl _, fun _ _ => rfl⟩, rfl⟩

theorem trans (h : s.Extends s') (h' : s'.Extends s'') : s.Extends s'' :=
  ⟨h.toIncludes.trans h'.toIncludes, h'.capacity_eq.trans h.capacity_eq⟩

end Extends

namespace Reduced

theorem child_eq (hs : s.Reduced) (hr : s.Holds r) (h : 1 < r.index) : s.child r b =
    (if b then (s.nodes.get r.index).high else (s.nodes.get r.index).low).negIf
      (decide r.IsNegated) := by
  have hn := hs.proper h hr.2
  cases b with
  | false => simp [child, hn.low_lt]
  | true => simp [child, hn.high_lt]

theorem topVar_ne_zero (hs : s.Reduced) (hr : s.Holds r) (h : 1 < r.index) : s.topVar r ≠ 0 := by
  rw [topVar_eq h]
  exact (hs.proper h hr.2).var_ne_zero

theorem holds_child (hs : s.Reduced) (hr : s.Holds r) (h : 1 < r.index) :
    s.Holds (s.child r b) := by
  have hn := hs.proper h hr.2
  have hle := Nat.le_succ_of_le hr.2
  rw [hs.child_eq hr h, Holds, Ref.index_negIf]
  cases b with
  | false => exact hn.holds_low hle
  | true => exact hn.holds_high hle

theorem below_negIf {c : Bool} : s.Below v (r.negIf c) ↔ s.Below v r := by
  cases c
  · rfl
  · exact below_neg

/-- Children test later variables than their parent. -/
theorem below_child (hs : s.Reduced) (hr : s.Holds r) (h : 1 < r.index) :
    s.Below (s.topVar r) (s.child r b) := by
  have hn := hs.proper h hr.2
  rw [hs.child_eq hr h, below_negIf, topVar_eq h]
  cases b with
  | false => exact hn.below_low
  | true => exact hn.below_high

theorem holds_cofactor (hs : s.Reduced) (hr : s.Holds r) (hv : v ≠ 0) :
    s.Holds (s.cofactor v b r) := by
  rw [cofactor]
  split
  · rename_i h
    exact hs.holds_child hr (one_lt_index (by omega : s.topVar r ≠ 0))
  · exact hr

/-- A cofactor at a variable no later than the first one does not test it any more. -/
theorem below_cofactor (hs : s.Reduced) (hr : s.Holds r) (hv : v ≠ 0)
    (h : s.topVar r = 0 ∨ v ≤ s.topVar r) : s.Below v (s.cofactor v b r) := by
  rw [cofactor]
  split
  · rename_i heq
    rw [← heq]
    exact hs.below_child hr (one_lt_index (by omega : s.topVar r ≠ 0))
  · exact h.imp_right (by omega)

/-- A cofactor tests no variable that the function did not test. -/
theorem below_cofactor_of_below (hs : s.Reduced) (hr : s.Holds r) (hv : v ≠ 0)
    (h : s.Below w r) : s.Below w (s.cofactor v b r) := by
  rw [cofactor]
  split
  · rename_i heq
    have hchild := hs.below_child (b := b) hr (one_lt_index (by omega : s.topVar r ≠ 0))
    exact hchild.trans (by have := h.resolve_left (by omega); omega)
  · exact h

theorem eval_neg (hs : s.Reduced) (hr : s.Holds r) : s.eval x (-r) = !s.eval x r := by
  induction hn : r.index using Nat.strongRecOn generalizing r with
  | ind n ih =>
    by_cases htop : s.topVar r = 0
    · rw [eval_of_topVar_eq_zero htop, eval_of_topVar_eq_zero (by rwa [topVar_neg]),
        decide_eq_decide.mpr (Ref.isNegated_neg hr.1), decide_not]
    · have hlt := one_lt_index htop
      rw [eval_of_topVar_ne_zero htop, eval_of_topVar_ne_zero (by rwa [topVar_neg]), topVar_neg,
        child_neg hr.1]
      exact ih _ (hn ▸ index_child_lt hlt) (hs.holds_child hr hlt) rfl

theorem eval_negIf (hs : s.Reduced) (hr : s.Holds r) (c : Bool) :
    s.eval x (r.negIf c) = (s.eval x r ^^ c) := by
  cases c with
  | false => rw [Bool.xor_false]; rfl
  | true => rw [Bool.xor_true]; exact hs.eval_neg hr

/-- A reference to a node is to its function, or to the complement. -/
theorem eval_index (hs : s.Reduced) (hr : s.Holds r) :
    s.eval x r = (s.eval x ⟨r.index⟩ ^^ decide r.IsNegated) := by
  have hnode : s.Holds ⟨r.index⟩ := hr
  by_cases hsign : r.IsNegated
  · conv_lhs => rw [Ref.eq_neg_of_isNegated hsign]
    rw [hs.eval_neg hnode, decide_eq_true hsign, Bool.xor_true]
  · conv_lhs => rw [Ref.eq_of_not_isNegated hsign]
    rw [decide_eq_false hsign, Bool.xor_false]

/-- A function does not depend on the variables before its first one. -/
theorem eval_congr (hs : s.Reduced) (hr : s.Holds r) (hv : s.Below v r)
    (hxy : ∀ w, v < w → x w = y w) : s.eval x r = s.eval y r := by
  induction hn : r.index using Nat.strongRecOn generalizing r with
  | ind n ih =>
    by_cases htop : s.topVar r = 0
    · rw [eval_of_topVar_eq_zero htop, eval_of_topVar_eq_zero htop]
    · have hlt := one_lt_index htop
      have hvr := hv.resolve_left htop
      rw [eval_of_topVar_ne_zero htop, eval_of_topVar_ne_zero htop, hxy _ hvr]
      exact ih _ (hn ▸ index_child_lt hlt) (hs.holds_child hr hlt)
        ((hs.below_child hr hlt).trans (Nat.le_of_lt hvr)) rfl

/-- A cofactor at a variable no later than the first one denotes the function with that variable
fixed. -/
theorem eval_cofactor (hs : s.Reduced) (hr : s.Holds r) (hv : v ≠ 0)
    (h : s.topVar r = 0 ∨ v ≤ s.topVar r) :
    s.eval x (s.cofactor v b r) = s.eval (Function.update x v b) r := by
  have hself := eval_cofactor_self (s := s) (x := Function.update x v b) (r := r) hv
  rw [Function.update_self] at hself
  rw [← hself]
  refine hs.eval_congr (hs.holds_cofactor hr hv) (hs.below_cofactor hr hv h) fun w hw => ?_
  rw [Function.update_of_ne (by omega)]

theorem cofactor_ne (hs : s.Reduced) (hr : s.Holds r) (htop : s.topVar r ≠ 0) :
    s.cofactor (s.topVar r) false r ≠ s.cofactor (s.topVar r) true r := by
  have hlt := one_lt_index htop
  have hn := hs.proper hlt hr.2
  rw [cofactor, cofactor, if_pos rfl, if_pos rfl, hs.child_eq hr hlt, hs.child_eq hr hlt]
  cases decide r.IsNegated with
  | false => exact hn.low_ne_high
  | true => exact fun h => hn.low_ne_high (Ref.neg_inj.mp h)

/-- Functions with equal cofactors at their first variable have one reference. -/
theorem eq_of_cofactor_eq (hs : s.Reduced) (hq : s.Holds q) (hr : s.Holds r)
    (htop : s.topVar q ≠ 0) (heq : s.topVar r = s.topVar q)
    (hcof : ∀ b, s.cofactor (s.topVar q) b q = s.cofactor (s.topVar q) b r) : q = r := by
  have hqlt := one_lt_index htop
  have hrlt := one_lt_index (heq ▸ htop)
  have hqn := hs.proper hqlt hq.2
  have hrn := hs.proper hrlt hr.2
  have hchild (b : Bool) : s.child q b = s.child r b := by
    have h := hcof b
    rwa [cofactor, cofactor, if_pos rfl, if_pos heq] at h
  have hlow := hchild false
  have hhigh := hchild true
  rw [hs.child_eq hq hqlt, hs.child_eq hr hrlt] at hlow hhigh
  simp only [if_true, Bool.false_eq_true, if_false] at hlow hhigh
  -- High children carry no sign, so the sign of a reference shows in its high cofactor.
  obtain ⟨hhigh, hsign⟩ := Ref.eq_of_negIf_eq hqn.high_regular hqn.high_pos hrn.high_regular
    hrn.high_pos hhigh
  rw [hsign, Ref.negIf_inj] at hlow
  have hnode : s.nodes.get q.index = s.nodes.get r.index := by
    rw [topVar_eq hqlt, topVar_eq hrlt] at heq
    rcases hqe : s.nodes.get q.index with ⟨v, low, high⟩
    rcases hre : s.nodes.get r.index with ⟨v', low', high'⟩
    rw [hqe, hre] at heq hlow hhigh
    rw [DiagramNode.mk.injEq]
    exact ⟨heq.symm, hlow, hhigh⟩
  have hindex := hs.found hqlt hq.2
  rw [hnode, hs.found hrlt hr.2, UniqueTable.Search.found.injEq] at hindex
  exact Ref.ext_iff.mpr ⟨hindex.symm, decide_eq_decide.mp hsign⟩

theorem eq_one_or_eq_zero (hs : s.Reduced) (hr : s.Holds r) (h : s.topVar r = 0) :
    r = .one ∨ r = .zero := by
  refine Ref.eq_one_or_eq_zero ?_
  have hpos := hr.1
  by_cases hlt : 1 < r.index
  · exact absurd h (hs.topVar_ne_zero hr hlt)
  · omega

theorem eq_of_topVar_eq_zero (hs : s.Reduced) (hq : s.Holds q) (hr : s.Holds r)
    (hq0 : s.topVar q = 0) (hr0 : s.topVar r = 0) (h : ∀ x, s.eval x q = s.eval x r) : q = r := by
  have hx := h fun _ => false
  rcases hs.eq_one_or_eq_zero hq hq0 with rfl | rfl
  · rcases hs.eq_one_or_eq_zero hr hr0 with rfl | rfl
    · rfl
    · rw [eval_one, eval_zero] at hx
      cases hx
  · rcases hs.eq_one_or_eq_zero hr hr0 with rfl | rfl
    · rw [eval_one, eval_zero] at hx
      cases hx
    · rfl

theorem eq_of_eval_eq (hs : s.Reduced) (hq : s.Holds q) (hr : s.Holds r)
    (h : ∀ x, s.eval x q = s.eval x r) : q = r := by
  induction hn : q.index + r.index using Nat.strongRecOn generalizing q r with
  | ind n ih =>
    by_cases hconst : s.topVar q = 0 ∧ s.topVar r = 0
    · exact hs.eq_of_topVar_eq_zero hq hr hconst.1 hconst.2 h
    · obtain ⟨v, hv, hvq, hvr, heither⟩ : ∃ v, v ≠ 0 ∧ (s.topVar q = 0 ∨ v ≤ s.topVar q) ∧
          (s.topVar r = 0 ∨ v ≤ s.topVar r) ∧ (s.topVar q = v ∨ s.topVar r = v) := by
        by_cases hfirst : s.topVar r = 0 ∨ s.topVar q ≠ 0 ∧ s.topVar q ≤ s.topVar r
        · exact ⟨s.topVar q, by omega, by omega, by omega, .inl rfl⟩
        · exact ⟨s.topVar r, by omega, by omega, by omega, .inr rfl⟩
      have hcof (b : Bool) : s.cofactor v b q = s.cofactor v b r := by
        refine ih _ ?_ (hs.holds_cofactor hq hv) (hs.holds_cofactor hr hv) (fun x => ?_) rfl
        · have hqle := index_cofactor_le (s := s) (b := b) (r := q) hv
          have hrle := index_cofactor_le (s := s) (b := b) (r := r) hv
          rcases heither with htop | htop
          · have := index_cofactor_lt (b := b) hv htop
            omega
          · have := index_cofactor_lt (b := b) hv htop
            omega
        · rw [hs.eval_cofactor hq hv hvq, hs.eval_cofactor hr hv hvr, h]
      by_cases hqv : s.topVar q = v
      · by_cases hrv : s.topVar r = v
        · subst hqv
          exact hs.eq_of_cofactor_eq hq hr hv hrv hcof
        · -- Both cofactors of `q` are `r`, but a reduced node has two different ones.
          have hskip (b : Bool) : s.cofactor v b q = r := by rw [hcof, cofactor, if_neg hrv]
          subst hqv
          exact absurd ((hskip false).trans (hskip true).symm) (hs.cofactor_ne hq hv)
      · have hrv := heither.resolve_left hqv
        have hskip (b : Bool) : s.cofactor v b r = q := by rw [← hcof, cofactor, if_neg hqv]
        subst hrv
        exact absurd ((hskip false).trans (hskip true).symm) (hs.cofactor_ne hr hv)

theorem eval_eq_iff (hs : s.Reduced) (hq : s.Holds q) (hr : s.Holds r) :
    (∀ x, s.eval x q = s.eval x r) ↔ q = r := by
  refine ⟨hs.eq_of_eval_eq hq hr, ?_⟩
  rintro rfl x
  rfl

end Reduced

theorem Includes.eval_eq (h : s.Includes s') (hs : s.Reduced) (hr : s.Holds r) :
    s'.eval x r = s.eval x r := by
  induction hn : r.index using Nat.strongRecOn generalizing r with
  | ind n ih =>
    have htop' := h.topVar_eq hr
    by_cases htop : s.topVar r = 0
    · rw [eval_of_topVar_eq_zero htop, eval_of_topVar_eq_zero (by rwa [htop'])]
    · have hlt := one_lt_index htop
      rw [eval_of_topVar_ne_zero htop, eval_of_topVar_ne_zero (by rwa [htop']), htop',
        h.child_eq hr]
      exact ih _ (hn ▸ index_child_lt hlt) (hs.holds_child hr hlt) rfl

end AndInverter.DiagramStore
