import AndInverter.Diagram.Models
import AndInverter.Proofs.Diagram.Nodes
import AndInverter.Proofs.Diagram.Support

/-!
# The lowest model of a diagram and the number of its models

The path to true that prefers low children exists unless the function is false, and it is the lowest
model. The number of models over some variables is the number over the variables that the diagram
tests, doubled for every variable more.
-/

namespace AndInverter.DiagramStore

variable {s s' : DiagramStore} {x y : Nat → Bool} {f r : Ref} {b : Bool} {i n v w : Nat}
  {path : List SignedVariable} {counts : Array Nat}

section Path

def pathModel (path : List SignedVariable) (v : Nat) : Bool :=
  path.any fun l => decide (l.var.id = v) && !l.negated

theorem pathModel_eq_true_iff :
    pathModel path v = true ↔ ∃ l ∈ path, l.var.id = v ∧ l.negated = false := by
  unfold pathModel
  simp only [List.any_eq_true, Bool.and_eq_true, decide_eq_true_eq, Bool.not_eq_true']

theorem pathModel_eq_false (h : ∀ l ∈ path, w < l.var.id) (hv : v ≤ w) :
    pathModel path v = false := by
  rw [Bool.eq_false_iff]
  intro htrue
  obtain ⟨l, hl, hlv, -⟩ := pathModel_eq_true_iff.mp htrue
  have := h l hl
  omega

theorem pathModel_negative (z : Variable) (path : List SignedVariable) :
    pathModel (z.negative :: path) = pathModel path := by
  funext v
  simp [pathModel, Variable.negative]

theorem pathModel_positive (z : Variable) (path : List SignedVariable) :
    pathModel (z.positive :: path) = Function.update (pathModel path) z.id true := by
  funext v
  by_cases hv : v = z.id
  · subst hv
    rw [Function.update_self]
    simp [pathModel, Variable.positive]
  · rw [Function.update_of_ne hv]
    simp [pathModel, Variable.positive, Ne.symm hv]

/-- A path of the diagram down to true, through variables in their order, that is the lowest
model. -/
structure IsLowestPath (s : DiagramStore) (f : Ref) (path : List SignedVariable) : Prop where
  below {w : Nat} : s.Below w f → ∀ l ∈ path, w < l.var.id
  ascending : path.Pairwise fun k l => k.var.id < l.var.id
  eval_eq_true {x : Nat → Bool} : (∀ l ∈ path, x l.var.id = !l.negated) → s.eval x f = true
  sensitive : ∀ l ∈ path, Sensitive (fun x => s.eval x f) l.var.id
  lowest : Lowest (fun x => s.eval x f) (pathModel path)

namespace IsLowestPath

theorem one (s : DiagramStore) : s.IsLowestPath .one [] where
  below _ _ h := absurd h List.not_mem_nil
  ascending := .nil
  eval_eq_true _ := eval_one s _
  sensitive _ h := absurd h List.not_mem_nil
  lowest := ⟨eval_one s _, fun _ _ _ h => by cases h⟩

theorem cons (hs : s.Reduced) (hf : s.Holds f) {l : SignedVariable} (hl : s.topVar f = l.var.id)
    (h : s.IsLowestPath (s.child f !l.negated) path)
    (hlowest : Lowest (fun x => s.eval x f) (pathModel (l :: path))) :
    s.IsLowestPath f (l :: path) := by
  have htop : s.topVar f ≠ 0 := hl ▸ Nat.pos_iff_ne_zero.mp l.var.id_pos
  have hfirst := h.below (hs.below_child hf (one_lt_index htop))
  constructor
  · intro w hw k hk
    have hwl := hw.resolve_left htop
    rcases List.mem_cons.mp hk with rfl | hk
    · omega
    · have := hfirst k hk
      omega
  · rw [List.pairwise_cons]
    exact ⟨fun k hk => hl ▸ hfirst k hk, h.ascending⟩
  · intro x hx
    obtain ⟨hxl, hpath⟩ := List.forall_mem_cons.mp hx
    rw [eval_of_topVar_ne_zero htop, hl, hxl]
    exact h.eval_eq_true hpath
  · intro k hk
    rcases List.mem_cons.mp hk with rfl | hk
    · exact hl ▸ hs.sensitive_topVar hf htop
    · exact hs.sensitive_of_child hf htop (h.sensitive k hk)
  · exact hlowest

variable {z : Variable}

/-- A path through the low child lets the first variable be false. -/
theorem low (hs : s.Reduced) (hf : s.Holds f) (hz : s.topVar f = z.id)
    (h : s.IsLowestPath (s.child f false) path) : s.IsLowestPath f (z.negative :: path) := by
  have htop : s.topVar f ≠ 0 := hz ▸ Nat.pos_iff_ne_zero.mp z.id_pos
  have hfirst := h.below (hs.below_child hf (one_lt_index htop))
  have hfalse : pathModel path (s.topVar f) = false := pathModel_eq_false hfirst (Nat.le_refl _)
  apply cons (l := z.negative) hs hf hz h
  rw [pathModel_negative]
  constructor
  · rw [eval_of_topVar_ne_zero htop, hfalse]
    exact h.lowest.holds
  · intro y hy v hbefore hv
    obtain ⟨l, hl, rfl, -⟩ := pathModel_eq_true_iff.mp hv
    rw [eval_of_topVar_ne_zero htop, hbefore _ (hfirst l hl), hfalse] at hy
    exact h.lowest.le hy hbefore hv

/-- A path through the high child is the lowest one if the low child is false. -/
theorem high (hs : s.Reduced) (hf : s.Holds f) (hz : s.topVar f = z.id)
    (hlow : s.child f false = .zero) (h : s.IsLowestPath (s.child f true) path) :
    s.IsLowestPath f (z.positive :: path) := by
  have htop : s.topVar f ≠ 0 := hz ▸ Nat.pos_iff_ne_zero.mp z.id_pos
  have hlt := one_lt_index htop
  have hbelow : s.Below (s.topVar f) (s.child f true) := hs.below_child hf hlt
  have hfirst := h.below hbelow
  -- The high child does not read the first variable.
  have heval (y : Nat → Bool) (b : Bool) :
      s.eval (Function.update y (s.topVar f) b) (s.child f true) = s.eval y (s.child f true) := by
    apply hs.eval_congr (hs.holds_child hf hlt) hbelow
    intro w hw
    rw [Function.update_of_ne (by omega)]
  apply cons (l := z.positive) hs hf hz h
  rw [pathModel_positive, ← hz]
  constructor
  · rw [eval_of_topVar_ne_zero htop, Function.update_self, heval]
    exact h.lowest.holds
  · intro y hy v hbefore hv
    rw [eval_of_topVar_ne_zero htop] at hy
    have hytop : y (s.topVar f) = true := by
      by_contra hfalse
      rw [Bool.not_eq_true] at hfalse
      rw [hfalse, hlow, eval_zero] at hy
      cases hy
    by_cases hvz : v = s.topVar f
    · rw [hvz, hytop]
    · rw [Function.update_of_ne hvz] at hv
      rw [hytop] at hy
      have hbefore' : ∀ w < v, Function.update y (s.topVar f) false w = pathModel path w := by
        intro w hw
        by_cases hwz : w = s.topVar f
        · rw [hwz, Function.update_self, pathModel_eq_false hfirst (Nat.le_refl _)]
        · rw [Function.update_of_ne hwz, hbefore w hw, Function.update_of_ne hwz]
      have hlowest := h.lowest.le ((heval y false).trans hy) hbefore' hv
      rwa [Function.update_of_ne hvz] at hlowest

end IsLowestPath

theorem findLowestPath_zero (s : DiagramStore) : s.findLowestPath .zero = .ok none := if_pos rfl

theorem pathToTrue_one (s : DiagramStore) : s.pathToTrue .one = .ok [] := by
  rw [pathToTrue, if_pos rfl]
  rfl

theorem Reduced.pathToTrue_zero (hs : s.Reduced) :
    s.pathToTrue .zero = .error .unnamedVariable := by
  rw [pathToTrue, if_neg (by decide), hs.check_eq_ok (holds_zero hs)]
  rfl

/-- A path from a node of the store goes on to one of its children. -/
theorem Reduced.pathToTrue_eq (hs : s.Reduced) (hf : s.Holds f) {z : Variable}
    (hz : s.topVar f = z.id) : s.pathToTrue f =
      if s.child f false = .zero then (s.pathToTrue (s.child f true)).map (z.positive :: ·)
      else (s.pathToTrue (s.child f false)).map (z.negative :: ·) := by
  have htop : s.topVar f ≠ 0 := hz ▸ Nat.pos_iff_ne_zero.mp z.id_pos
  have hone : f ≠ .one := by
    rintro rfl
    exact htop rfl
  obtain rfl : z = ⟨s.topVar f, Nat.pos_of_ne_zero htop⟩ := by
    cases z
    simp only [Variable.mk.injEq]
    exact hz.symm
  rw [pathToTrue, if_neg hone, hs.check_eq_ok hf]
  simp only [dif_neg htop]
  rfl

/-- A function other than false has a path to true, and the one that prefers low children is the
lowest model. -/
theorem Reduced.exists_pathToTrue (hs : s.Reduced) (hf : s.Holds f) (hne : f ≠ .zero) :
    ∃ path, s.pathToTrue f = .ok path ∧ s.IsLowestPath f path := by
  induction hn : f.index using Nat.strongRecOn generalizing f with
  | ind n ih =>
    by_cases htop : s.topVar f = 0
    · obtain rfl := (hs.eq_one_or_eq_zero hf htop).resolve_right hne
      exact ⟨[], pathToTrue_one s, .one s⟩
    · have hlt := one_lt_index htop
      let z : Variable := ⟨s.topVar f, Nat.pos_of_ne_zero htop⟩
      rw [hs.pathToTrue_eq hf (z := z) rfl]
      by_cases hlow : s.child f false = .zero
      · have hhigh : s.child f true ≠ .zero := by
          intro hhigh
          apply hs.cofactor_ne hf htop
          rw [cofactor, cofactor, if_pos rfl, if_pos rfl, hlow, hhigh]
        obtain ⟨path, hpath, h⟩ :=
          ih _ (hn ▸ index_child_lt hlt) (hs.holds_child hf hlt) hhigh rfl
        rw [if_pos hlow, hpath]
        exact ⟨z.positive :: path, rfl, h.high hs hf rfl hlow⟩
      · obtain ⟨path, hpath, h⟩ :=
          ih _ (hn ▸ index_child_lt hlt) (hs.holds_child hf hlt) hlow rfl
        rw [if_neg hlow, hpath]
        exact ⟨z.negative :: path, rfl, h.low hs hf rfl⟩

theorem Reduced.exists_findLowestPath (hs : s.Reduced) (hf : s.Holds f) (hne : f ≠ .zero) :
    ∃ path, s.findLowestPath f = .ok (some path) ∧ s.IsLowestPath f path := by
  obtain ⟨path, hpath, h⟩ := hs.exists_pathToTrue hf hne
  refine ⟨path, ?_, h⟩
  rw [findLowestPath, if_neg hne, hpath]
  rfl

end Path

section Count

variable {D : Finset Nat} {k : Nat}

def Counted (s : DiagramStore) (D : Finset Nat) (k : Nat) (counts : Array Nat) (i : Nat) : Prop :=
  counts[i]? = some (2 ^ k * countOn D fun x => s.eval x ⟨i⟩)

/-- The models of a complemented function are those assignments that are no models of its node. -/
theorem Reduced.countOn_eq (hs : s.Reduced) (hr : s.Holds r) :
    2 ^ k * countOn D (fun x => s.eval x r) =
      if r.IsNegated then 2 ^ (k + D.card) - 2 ^ k * countOn D fun x => s.eval x ⟨r.index⟩
      else 2 ^ k * countOn D fun x => s.eval x ⟨r.index⟩ := by
  split
  · rename_i hneg
    have heval : (fun x => s.eval x r) = fun x => !s.eval x ⟨r.index⟩ := by
      funext x
      rw [hs.eval_index hr, decide_eq_true hneg, Bool.xor_true]
    have hsum := countOn_add_countOn_not D fun x => s.eval x ⟨r.index⟩
    rw [heval, Nat.pow_add, ← hsum, Nat.mul_add, Nat.add_sub_cancel_left]
  · rename_i hneg
    rw [← Ref.eq_of_not_isNegated hneg]

theorem Counted.signedCount_eq (hs : s.Reduced) (hr : s.Holds r)
    (h : s.Counted D k counts r.index) :
    signedCount (2 ^ (k + D.card)) counts r = 2 ^ k * countOn D fun x => s.eval x r := by
  unfold signedCount
  rw [h, Option.getD_some]
  exact (hs.countOn_eq hr).symm

/-- The models of a node are half of those of its children together. -/
theorem Reduced.countOn_children (hs : s.Reduced) (hi : 1 < i) (hle : i ≤ s.size)
    (hvar : (s.nodes.get i).var ∈ D) :
    countOn D (fun x => s.eval x (s.nodes.get i).low) +
      countOn D (fun x => s.eval x (s.nodes.get i).high) =
        2 * countOn D fun x => s.eval x ⟨i⟩ := by
  have hn := hs.proper hi hle
  have hfree {r : Ref} (hr : s.Holds r) (hb : s.Below (s.nodes.get i).var r) :
      ¬ Sensitive (fun x => s.eval x r) (s.nodes.get i).var := by
    rintro ⟨x, hx⟩
    apply hx
    apply hs.eval_congr hr hb
    intro w hw
    rw [Function.update_of_ne (by omega), Function.update_of_ne (by omega)]
  apply countOn_add_countOn hvar (hs.tests_get hi hle).eval_eq
  · exact hfree (hn.holds_low (Nat.le_succ_of_le hle)) hn.below_low
  · exact hfree (hn.holds_high (Nat.le_succ_of_le hle)) hn.below_high

def nodeCount (s : DiagramStore) (total : Nat) (counts : Array Nat) (i : Nat) : Nat :=
  if i ≤ 1 then total
  else (signedCount total counts (s.nodes.get i).low +
    signedCount total counts (s.nodes.get i).high) / 2

theorem Reduced.nodeCount_eq (hs : s.Reduced) (hpos : 0 < i) (hle : i ≤ s.size)
    (hvar : 1 < i → (s.nodes.get i).var ∈ D)
    (hchildren : ∀ j ∈ s.childNodes i, s.Counted D k counts j) :
    s.nodeCount (2 ^ (k + D.card)) counts i = 2 ^ k * countOn D fun x => s.eval x ⟨i⟩ := by
  unfold nodeCount
  by_cases hi : 1 < i
  · have hn := hs.proper hi hle
    rw [childNodes_of_one_lt hi, List.forall_mem_cons, List.forall_mem_singleton] at hchildren
    have hsucc := Nat.le_succ_of_le hle
    rw [if_neg (by omega), hchildren.1.signedCount_eq hs (hn.holds_low hsucc),
      hchildren.2.signedCount_eq hs (hn.holds_high hsucc), ← Nat.mul_add,
      hs.countOn_children hi hle (hvar hi), Nat.mul_left_comm,
      Nat.mul_div_cancel_left _ Nat.two_pos]
  · obtain rfl : i = 1 := by omega
    have htrue : (fun x => s.eval x ⟨(1 : Nat)⟩) = fun _ => true := funext fun x => eval_one s x
    rw [if_pos (Nat.le_refl 1), htrue, countOn_true, Nat.pow_add]

/-- Counted from the terminal upwards, the children of a node come before it. -/
theorem Reduced.foldl_counted (hs : s.Reduced) (hf : s.Holds f)
    (hD : ∀ i ∈ s.reachableNodes [f], 1 < i → (s.nodes.get i).var ∈ D) {rest : List Nat}
    (hrest : ∀ i ∈ rest, i ∈ s.reachableNodes [f] ∧ i < counts.size)
    (hascending : rest.Pairwise (· < ·))
    (hcounts : ∀ i ∈ s.reachableNodes [f], i ∉ rest → s.Counted D k counts i) :
    ∀ i ∈ s.reachableNodes [f], s.Counted D k (rest.foldl (fun counts i =>
      counts.setIfInBounds i (s.nodeCount (2 ^ (k + D.card)) counts i)) counts) i := by
  induction rest generalizing counts with
  | nil => exact fun i hi => hcounts i hi List.not_mem_nil
  | cons j rest ih =>
    obtain ⟨hlast, hascending⟩ := List.pairwise_cons.mp hascending
    obtain ⟨⟨hj, hjsize⟩, hrest⟩ := List.forall_mem_cons.mp hrest
    obtain ⟨hpos, hle⟩ := hs.holds_of_mem_reachableNodes hf j hj
    have hchildren : ∀ c ∈ s.childNodes j, s.Counted D k counts c := by
      intro c hc
      have hlt := hs.childNodes_lt j c hc
      apply hcounts c (hs.child_mem_reachableNodes hj c hc)
      intro hmem
      rcases List.mem_cons.mp hmem with rfl | hmem
      · omega
      · have := hlast c hmem
        omega
    apply ih _ hascending
    · intro i hi hmem
      by_cases hij : i = j
      · subst hij
        unfold Counted
        rw [Array.getElem?_setIfInBounds_self_of_lt hjsize,
          hs.nodeCount_eq hpos hle (hD i hi) hchildren]
      · unfold Counted
        rw [Array.getElem?_setIfInBounds_ne (Ne.symm hij)]
        exact hcounts i hi fun h => (List.mem_cons.mp h).elim hij hmem
    · intro i hi
      rw [Array.size_setIfInBounds]
      exact hrest i hi

/-- As many variables as the diagram tests, and some more. -/
theorem one_shiftLeft_eq (hle : (s.support f).length ≤ n) :
    1 <<< n = 2 ^ (n - (s.support f).length + (s.support f).toFinset.card) := by
  rw [card_support, Nat.sub_add_cancel hle, Nat.one_shiftLeft]

/-- Models are counted over the variables that the diagram tests, and each further variable doubles
their number. -/
theorem Reduced.modelCount_eq (hs : s.Reduced) (hf : s.Holds f)
    (hle : (s.support f).length ≤ n) : s.modelCount f n =
      2 ^ (n - (s.support f).length) * countOn (s.support f).toFinset fun x => s.eval x f := by
  have htotal := one_shiftLeft_eq hle
  have hD : ∀ i ∈ s.reachableNodes [f], 1 < i → (s.nodes.get i).var ∈ (s.support f).toFinset := by
    intro i hi hone
    have hsize := (hs.holds_of_mem_reachableNodes hf i hi).2
    exact List.mem_toFinset.mpr
      (mem_support_iff_exists.mpr ⟨(hs.proper hone hsize).var_ne_zero, i, hi, rfl⟩)
  have hbound : ∀ i ∈ s.reachableNodes [f], i ≤ f.index := by
    apply reachableNodes_induction
    · exact hf.1
    · exact Nat.le_refl _
    · intro i hi j hj
      exact Nat.le_trans (Nat.le_of_lt (hs.childNodes_lt i j hj)) hi
  have hroom : ∀ i ∈ s.reachableNodes [f], i ∈ s.reachableNodes [f] ∧
      i < (Array.replicate (f.index + 1) 0).size := by
    intro i hi
    rw [Array.size_replicate]
    exact ⟨hi, Nat.lt_succ_of_le (hbound i hi)⟩
  have hcounted := hs.foldl_counted (k := n - (s.support f).length) hf hD hroom
    (pairwise_marked _) (fun i hi hmem => absurd hi hmem) _ (root_mem_reachableNodes hf)
  rw [← htotal] at hcounted
  unfold modelCount
  rw [← hcounted.signedCount_eq hs hf, ← htotal]
  rfl

end Count

namespace Includes

/-- The path to true is the same in every store that includes the diagram. -/
theorem pathToTrue_eq (h : s.Includes s') (hs : s.Reduced) (hs' : s'.Reduced) (hf : s.Holds f) :
    s'.pathToTrue f = s.pathToTrue f := by
  induction hn : f.index using Nat.strongRecOn generalizing f with
  | ind n ih =>
    by_cases htop : s.topVar f = 0
    · rcases hs.eq_one_or_eq_zero hf htop with rfl | rfl
      · rw [pathToTrue_one, pathToTrue_one]
      · rw [hs.pathToTrue_zero, hs'.pathToTrue_zero]
    · have hlt := one_lt_index htop
      have hchild (b : Bool) : s'.pathToTrue (s.child f b) = s.pathToTrue (s.child f b) :=
        ih _ (hn ▸ index_child_lt hlt) (hs.holds_child hf hlt) rfl
      let z : Variable := ⟨s.topVar f, Nat.pos_of_ne_zero htop⟩
      rw [hs'.pathToTrue_eq (h.holds hf) (z := z) (h.topVar_eq hf), h.child_eq hf, h.child_eq hf,
        hchild, hchild, hs.pathToTrue_eq hf (z := z) rfl]

theorem findLowestPath_eq (h : s.Includes s') (hs : s.Reduced) (hs' : s'.Reduced)
    (hf : s.Holds f) : s'.findLowestPath f = s.findLowestPath f := by
  rw [findLowestPath, findLowestPath, h.pathToTrue_eq hs hs' hf]

/-- A function has as many models in every store that includes its diagram. -/
theorem modelCount_eq (h : s.Includes s') (hs : s.Reduced) (hs' : s'.Reduced) (hf : s.Holds f)
    (numVars : Nat) : s'.modelCount f numVars = s.modelCount f numVars := by
  have hcounts : s'.nodeCounts (1 <<< numVars) f = s.nodeCounts (1 <<< numVars) f := by
    unfold nodeCounts
    rw [h.reachableNodes_eq hs hs' hf]
    apply List.foldl_ext
    intro counts i hi
    obtain ⟨hpos, hle⟩ := hs.holds_of_mem_reachableNodes hf i hi
    rw [h.get_eq hpos hle]
  rw [modelCount, modelCount, hcounts]

end Includes

end AndInverter.DiagramStore
