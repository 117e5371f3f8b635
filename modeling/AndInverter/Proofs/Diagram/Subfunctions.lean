import AndInverter.Proofs.Diagram.Support
import Mathlib.Data.Set.Card

/-!
# Nodes stand for subfunctions

Fixing the first variables of a function leaves a subfunction. The nodes of a diagram stand for the
subfunctions of its function, each for one of them and its complement, and the terminal for the
constants. So the number of nodes depends on the function alone.
-/

namespace AndInverter

def fixUpTo (n : Nat) (a x : Nat → Bool) (v : Nat) : Bool := if v ≤ n then a v else x v

def upToSign (F : (Nat → Bool) → Bool) : Set ((Nat → Bool) → Bool) := {F, fun x => !F x}

/-- What a function leaves when its variables up to some point are fixed, up to the sign. The
constants are always among them. -/
def subfunctions (F : (Nat → Bool) → Bool) : Set (Set ((Nat → Bool) → Bool)) :=
  insert (upToSign fun _ => true) {C | ∃ n a, C = upToSign fun x => F (fixUpTo n a x)}

section Fixing

variable {a a' x : Nat → Bool} {m n v : Nat}

theorem fixUpTo_of_le (h : v ≤ n) : fixUpTo n a x v = a v := if_pos h

theorem fixUpTo_of_lt (h : n < v) : fixUpTo n a x v = x v := if_neg (Nat.not_le_of_lt h)

/-- Of the variables fixed twice, the first ones keep their values. -/
theorem fixUpTo_fixUpTo (hnm : n ≤ m) (h : ∀ v ≤ n, a' v = a v) :
    fixUpTo n a (fixUpTo m a' x) = fixUpTo m a' x := by
  funext v
  by_cases hv : v ≤ n
  · rw [fixUpTo_of_le hv, fixUpTo_of_le (hv.trans hnm), h v hv]
  · exact fixUpTo_of_lt (Nat.lt_of_not_le hv)

end Fixing

section Signs

variable {F G : (Nat → Bool) → Bool}

theorem upToSign_not (F : (Nat → Bool) → Bool) : upToSign (fun x => !F x) = upToSign F := by
  simp only [upToSign, Bool.not_not]
  exact Set.pair_comm _ _

theorem eq_or_eq_not_of_upToSign_eq (h : upToSign F = upToSign G) :
    F = G ∨ F = fun x => !G x := by
  have hmem : F ∈ upToSign F := Set.mem_insert _ _
  rw [h] at hmem
  exact hmem

end Signs

namespace DiagramStore

variable {s : DiagramStore} {f r : Ref} {a x : Nat → Bool} {b : Bool} {n v : Nat}

def nodeFunctions (s : DiagramStore) (i : Nat) : Set ((Nat → Bool) → Bool) :=
  upToSign fun x => s.eval x ⟨i⟩

def Leaves (s : DiagramStore) (f r : Ref) : Prop :=
  ∃ n a, s.Below n r ∧ ∀ x, s.eval (fixUpTo n a x) f = s.eval x r

theorem nodeFunctions_one (s : DiagramStore) : s.nodeFunctions 1 = upToSign fun _ => true := by
  rw [nodeFunctions]
  congr
  funext x
  exact eval_one s x

theorem below_zero_var (s : DiagramStore) (r : Ref) : s.Below 0 r := Nat.eq_zero_or_pos _

namespace Reduced

/-- Variables before the first one may be fixed. -/
theorem eval_fixUpTo (hs : s.Reduced) (hr : s.Holds r) (h : s.Below n r) :
    s.eval (fixUpTo n a x) r = s.eval x r :=
  hs.eval_congr hr h fun _ hw => fixUpTo_of_lt hw

/-- A cofactor with some variables fixed is the function with the variable of the cofactor fixed as
well. -/
theorem eval_fixUpTo_cofactor (hs : s.Reduced) (hr : s.Holds r) (hv : v ≠ 0)
    (hle : s.topVar r = 0 ∨ v ≤ s.topVar r) :
    s.eval (fixUpTo n a x) (s.cofactor v b r) =
      s.eval (fixUpTo (max n v) (Function.update a v b) x) r := by
  rw [hs.eval_cofactor hr hv hle]
  have hbelow : s.Below (v - 1) r := hle.imp_right (by omega)
  apply hs.eval_congr hr hbelow
  intro w hw
  by_cases hwv : w = v
  · rw [hwv, Function.update_self, fixUpTo_of_le (Nat.le_max_right n v), Function.update_self]
  · rw [Function.update_of_ne hwv]
    by_cases hwn : w ≤ n
    · rw [fixUpTo_of_le hwn, fixUpTo_of_le (by omega), Function.update_of_ne hwv]
    · rw [fixUpTo_of_lt (by omega), fixUpTo_of_lt (by omega)]

theorem upToSign_eval (hs : s.Reduced) (hr : s.Holds r) :
    upToSign (fun x => s.eval x r) = s.nodeFunctions r.index := by
  have heval (x : Nat → Bool) := hs.eval_index (x := x) hr
  by_cases hsign : r.IsNegated
  · simp only [heval, decide_eq_true hsign, Bool.xor_true]
    exact upToSign_not _
  · simp only [heval, decide_eq_false hsign, Bool.xor_false]
    rfl

/-- No two nodes stand for the same functions. -/
theorem injOn_nodeFunctions (hs : s.Reduced) :
    Set.InjOn s.nodeFunctions {i | 0 < i ∧ i ≤ s.size} := by
  intro i hi j hj heq
  have hiheld : s.Holds ⟨i⟩ := hi
  have hjheld : s.Holds ⟨j⟩ := hj
  rcases eq_or_eq_not_of_upToSign_eq heq with h | h
  · exact congrArg Ref.index (hs.eq_of_eval_eq hiheld hjheld (congrFun h))
  · have hneg := hs.eq_of_eval_eq hiheld (holds_neg.mpr hjheld) fun x =>
      (congrFun h x).trans (hs.eval_neg hjheld).symm
    exact (congrArg Ref.index hneg).trans (Ref.index_neg _)

/-- Fixing the first variables leads down the diagram to one of its nodes. -/
theorem exists_eval_fixUpTo_eq (hs : s.Reduced) (hr : s.Holds r)
    (hmem : r.index ∈ s.reachableNodes [f]) (n : Nat) (a : Nat → Bool) :
    ∃ q, s.Holds q ∧ q.index ∈ s.reachableNodes [f] ∧
      ∀ x, s.eval (fixUpTo n a x) r = s.eval x q := by
  induction hm : r.index using Nat.strongRecOn generalizing r with
  | ind m ih =>
    by_cases hbelow : s.Below n r
    · exact ⟨r, hr, hmem, fun x => hs.eval_fixUpTo hr hbelow⟩
    · have htop : s.topVar r ≠ 0 := fun h => hbelow (.inl h)
      have hle : s.topVar r ≤ n := Nat.le_of_not_lt fun h => hbelow (.inr h)
      have hlt := one_lt_index htop
      have hchild : (s.child r (a (s.topVar r))).index ∈ s.reachableNodes [f] :=
        hs.child_mem_reachableNodes hmem _ (hs.index_child_mem_childNodes hr hlt)
      obtain ⟨q, hq, hqmem, heval⟩ :=
        ih _ (hm ▸ index_child_lt hlt) (hs.holds_child hr hlt) hchild rfl
      refine ⟨q, hq, hqmem, fun x => ?_⟩
      rw [← heval, eval_of_topVar_ne_zero htop, fixUpTo_of_le hle]

theorem leaves_self (hs : s.Reduced) (hf : s.Holds f) : s.Leaves f f :=
  ⟨0, fun _ => false, s.below_zero_var f, fun _ => hs.eval_fixUpTo hf (s.below_zero_var f)⟩

/-- With the variable that a node tests fixed as well, one of its children is left. -/
theorem leaves_child (hs : s.Reduced) (hr : s.Holds r) (hlt : 1 < r.index) (h : s.Leaves f r)
    (b : Bool) : s.Leaves f (s.child r b) := by
  obtain ⟨n, a, hbelow, hleft⟩ := h
  have htop := hs.topVar_ne_zero hr hlt
  have hnv : n < s.topVar r := hbelow.resolve_left htop
  have hchild := hs.below_child (b := b) hr hlt
  refine ⟨s.topVar r, Function.update a (s.topVar r) b, hchild, fun x => ?_⟩
  have hsame : ∀ w ≤ n, Function.update a (s.topVar r) b w = a w := by
    intro w hw
    exact Function.update_of_ne (by omega) _ _
  rw [← fixUpTo_fixUpTo (Nat.le_of_lt hnv) hsame, hleft, eval_of_topVar_ne_zero htop,
    fixUpTo_of_le (Nat.le_refl _), Function.update_self]
  exact hs.eval_fixUpTo (hs.holds_child hr hlt) hchild

/-- Each node besides the terminal is what fixing the first variables leaves. -/
theorem exists_leaves (hs : s.Reduced) (hf : s.Holds f) : ∀ i ∈ s.reachableNodes [f],
    i = 1 ∨ ∃ r, s.Holds r ∧ r.index = i ∧ s.Leaves f r := by
  apply reachableNodes_induction
  · exact .inl rfl
  · exact .inr ⟨f, hf, rfl, hs.leaves_self hf⟩
  · intro i hi j hj
    by_cases hlt : 1 < i
    · obtain ⟨r, hr, rfl, hleaves⟩ := hi.resolve_left (by omega)
      obtain ⟨b, rfl⟩ := hs.exists_index_child_eq hr hlt j hj
      exact .inr ⟨_, hs.holds_child hr hlt, rfl, hs.leaves_child hr hlt hleaves b⟩
    · rw [childNodes, if_pos (by omega)] at hj
      exact absurd hj List.not_mem_nil

/-- The subfunctions of a function are what the nodes of its diagram stand for. -/
theorem subfunctions_eq_image (hs : s.Reduced) (hf : s.Holds f) :
    subfunctions (fun x => s.eval x f) = s.nodeFunctions '' {i | i ∈ s.reachableNodes [f]} := by
  ext C
  constructor
  · intro hC
    rcases hC with rfl | ⟨n, a, rfl⟩
    · exact ⟨1, hs.one_mem_reachableNodes f, nodeFunctions_one s⟩
    · obtain ⟨q, hq, hmem, heval⟩ := hs.exists_eval_fixUpTo_eq hf (root_mem_reachableNodes hf) n a
      refine ⟨q.index, hmem, ?_⟩
      rw [funext heval, hs.upToSign_eval hq]
  · rintro ⟨i, hi, rfl⟩
    rcases hs.exists_leaves hf i hi with rfl | ⟨r, hr, rfl, n, a, -, hleft⟩
    · exact .inl (nodeFunctions_one s)
    · refine .inr ⟨n, a, ?_⟩
      rw [funext hleft, hs.upToSign_eval hr]

/-- A diagram has one node for each subfunction of its function, up to the sign. -/
theorem encard_subfunctions (hs : s.Reduced) (hf : s.Holds f) :
    (subfunctions fun x => s.eval x f).encard = s.diagramSize f := by
  have hinj : Set.InjOn s.nodeFunctions {i | i ∈ s.reachableNodes [f]} :=
    hs.injOn_nodeFunctions.mono (hs.holds_of_mem_reachableNodes hf)
  have hnodup : (s.reachableNodes [f]).Nodup := (pairwise_marked _).imp Nat.ne_of_lt
  rw [hs.subfunctions_eq_image hf, hinj.encard_image, ← List.coe_toFinset,
    Set.encard_coe_eq_coe_finsetCard, List.toFinset_card_of_nodup hnodup, diagramSize]

end Reduced

end DiagramStore

end AndInverter
