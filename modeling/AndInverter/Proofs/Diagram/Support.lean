import AndInverter.Diagram.Shape
import AndInverter.Proofs.Assignments
import AndInverter.Proofs.Diagram.Reduced
import AndInverter.Proofs.Exploration
import Mathlib.Data.List.Sort

/-!
# A diagram tests what its function is sensitive to

The nodes of a diagram are the least set with its root and the terminal that is closed under
children. In a reduced store the function of the diagram is sensitive to the variable of each of
them, and to no other variable.
-/

namespace AndInverter.DiagramStore

variable {s s' : DiagramStore} {x y : Nat → Bool} {fs : List Ref} {f r : Ref} {b : Bool} {i v : Nat}

def queuedNodes (s : DiagramStore) (fs : List Ref) : List Nat :=
  marked <| workOff s.childNodes (markAll (.replicate (s.size + 1) false) [1]) (fs.map Ref.index)

theorem get_of_size_lt (h : s.size < i) : s.nodes.get i = default := by
  have hsize : s.nodes.values.size - 1 < i := h
  rw [UniqueTable.get, Array.getD_eq_getD_getElem?, Array.getElem?_eq_none (by omega),
    Option.getD_none]

theorem childNodes_of_one_lt (h : 1 < i) :
    s.childNodes i = [(s.nodes.get i).low.index, (s.nodes.get i).high.index] :=
  if_neg (by omega)

/-- Every set with the terminal and the root that is closed under children has all nodes of the
diagram. -/
theorem reachableNodes_induction {P : Nat → Prop} (hone : P 1) (hroot : P f.index)
    (hclosed : ∀ i, P i → ∀ j ∈ s.childNodes i, P j) : ∀ i ∈ s.reachableNodes [f], P i := by
  intro i hi
  apply of_reachable hclosed _ (mem_marked.mp hi)
  intro j hj
  rcases List.mem_pair.mp hj with rfl | rfl
  · exact hone
  · exact hroot

theorem mem_support_iff_exists :
    v ∈ s.support f ↔ v ≠ 0 ∧ ∃ i ∈ s.reachableNodes [f], (s.nodes.get i).var = v := by
  unfold support
  rw [Ascending.mem_ofList, List.mem_filter, List.mem_map, decide_eq_true_eq, and_comm]

theorem pairwise_support (s : DiagramStore) (f : Ref) : (s.support f).Pairwise (· < ·) :=
  Ascending.pairwise_ofList _

theorem card_support (s : DiagramStore) (f : Ref) :
    (s.support f).toFinset.card = (s.support f).length :=
  List.toFinset_card_of_nodup ((pairwise_support s f).imp Nat.ne_of_lt)

namespace Reduced

theorem childNodes_lt (hs : s.Reduced) (i : Nat) : ∀ j ∈ s.childNodes i, j < i := by
  intro j hj
  by_cases hi : 1 < i
  · rw [childNodes_of_one_lt hi] at hj
    by_cases hle : i ≤ s.size
    · have hn := hs.proper hi hle
      rcases List.mem_pair.mp hj with rfl | rfl
      · exact hn.low_lt
      · exact hn.high_lt
    · rw [get_of_size_lt (by omega)] at hj
      rcases List.mem_pair.mp hj with rfl | rfl
      · exact Nat.lt_of_succ_lt hi
      · exact Nat.lt_of_succ_lt hi
  · rw [childNodes, if_pos (by omega)] at hj
    exact absurd hj List.not_mem_nil

theorem childNodes_le_size (hs : s.Reduced) (i : Nat) : ∀ j ∈ s.childNodes i, j ≤ s.size := by
  intro j hj
  by_cases hle : i ≤ s.size
  · exact Nat.le_trans (Nat.le_of_lt (hs.childNodes_lt i j hj)) hle
  · rw [childNodes, get_of_size_lt (Nat.lt_of_not_le hle)] at hj
    split at hj
    · exact absurd hj List.not_mem_nil
    · rcases List.mem_pair.mp hj with rfl | rfl
      · exact Nat.zero_le _
      · exact Nat.zero_le _

/-- A queue finds the nodes of the diagrams. -/
theorem queuedNodes_eq (hs : s.Reduced) (hfs : ∀ f ∈ fs, s.Holds f) :
    s.queuedNodes fs = s.reachableNodes fs := by
  have hbound (i c : Nat) (hc : c ∈ s.childNodes i) : c < s.size + 1 :=
    Nat.lt_succ_of_le (hs.childNodes_le_size i c hc)
  have hfirst : ∀ i ∈ [1], s.childNodes i = [] := by
    intro i hi
    rw [List.mem_singleton.mp hi]
    rfl
  have hroots : ∀ i ∈ [1] ++ fs.map Ref.index, i < s.size + 1 := by
    intro i hi
    rcases List.mem_cons.mp hi with rfl | hi
    · exact Nat.lt_succ_of_le hs.size_pos
    · obtain ⟨f, hf, rfl⟩ := List.mem_map.mp hi
      exact Nat.lt_succ_of_le (hfs f hf).2
  rw [queuedNodes, workOff_eq_reachable hs.childNodes_lt hbound hfirst hroots]
  rfl

theorem root_mem_reachableNodes (hf : s.Holds f) : f.index ∈ s.reachableNodes [f] := by
  have hlt := hf.2
  exact mem_marked.mpr (reachable_root (by simp) (by omega))

theorem child_mem_reachableNodes (hs : s.Reduced) (hi : i ∈ s.reachableNodes [f]) :
    ∀ j ∈ s.childNodes i, j ∈ s.reachableNodes [f] := by
  intro j hj
  exact mem_marked.mpr (reachable_closed hs.childNodes_lt (mem_marked.mp hi) j hj)

theorem index_child_mem_childNodes (hs : s.Reduced) (hr : s.Holds r) (h : 1 < r.index) :
    (s.child r b).index ∈ s.childNodes r.index := by
  rw [hs.child_eq hr h, Ref.index_negIf, childNodes_of_one_lt h, List.mem_pair]
  cases b with
  | false => exact .inl rfl
  | true => exact .inr rfl

theorem exists_index_child_eq (hs : s.Reduced) (hr : s.Holds r) (h : 1 < r.index) :
    ∀ j ∈ s.childNodes r.index, ∃ b, j = (s.child r b).index := by
  intro j hj
  rw [childNodes_of_one_lt h] at hj
  rcases List.mem_pair.mp hj with rfl | rfl
  · exact ⟨false, by rw [hs.child_eq hr h, Ref.index_negIf]; rfl⟩
  · exact ⟨true, by rw [hs.child_eq hr h, Ref.index_negIf]; rfl⟩

theorem holds_of_mem_reachableNodes (hs : s.Reduced) (hf : s.Holds f) :
    ∀ i ∈ s.reachableNodes [f], 0 < i ∧ i ≤ s.size := by
  apply reachableNodes_induction
  · exact ⟨Nat.one_pos, hs.size_pos⟩
  · exact hf
  · intro i hi j hj
    have hlt := hs.childNodes_lt i j hj
    by_cases hone : 1 < i
    · have hn := hs.proper hone hi.2
      rw [childNodes_of_one_lt hone] at hj
      rcases List.mem_pair.mp hj with rfl | rfl
      · exact ⟨hn.low_pos, by omega⟩
      · exact ⟨hn.high_pos, by omega⟩
    · rw [childNodes, if_pos (by omega)] at hj
      exact absurd hj List.not_mem_nil

theorem one_mem_reachableNodes (hs : s.Reduced) (f : Ref) : 1 ∈ s.reachableNodes [f] := by
  have hpos := hs.size_pos
  exact mem_marked.mpr (reachable_root List.mem_cons_self (by omega))

/-- The nodes of a diagram besides its root are those of its two parts. -/
theorem mem_reachableNodes_child (hs : s.Reduced) (hf : s.Holds f) (h : 1 < f.index) :
    ∀ i ∈ s.reachableNodes [f], i = f.index ∨ ∃ b, i ∈ s.reachableNodes [s.child f b] := by
  have hroot (b : Bool) : (s.child f b).index ∈ s.reachableNodes [s.child f b] :=
    root_mem_reachableNodes (hs.holds_child hf h)
  apply reachableNodes_induction
  · exact .inr ⟨false, hs.one_mem_reachableNodes _⟩
  · exact .inl rfl
  · intro i hi j hj
    rcases hi with rfl | ⟨b, hi⟩
    · obtain ⟨b, rfl⟩ := hs.exists_index_child_eq hf h j hj
      exact .inr ⟨b, hroot b⟩
    · exact .inr ⟨b, hs.child_mem_reachableNodes hi j hj⟩

/-- The function of a diagram depends on the variables that the diagram tests. -/
theorem dependsOn_support (hs : s.Reduced) (hf : s.Holds f) :
    DependsOn (fun x => s.eval x f) {v | v ∈ s.support f} := by
  intro x y hxy
  suffices hall : ∀ n r, r.index = n → s.Holds r → n ∈ s.reachableNodes [f] →
      s.eval x r = s.eval y r from
    hall f.index f rfl hf (root_mem_reachableNodes hf)
  intro n
  induction n using Nat.strongRecOn with
  | ind n ih =>
    intro r hn hr hmem
    by_cases htop : s.topVar r = 0
    · rw [eval_of_topVar_eq_zero htop, eval_of_topVar_eq_zero htop]
    · have hlt := one_lt_index htop
      have hvar : s.topVar r ∈ s.support f :=
        mem_support_iff_exists.mpr ⟨htop, n, hmem, by rw [topVar_eq hlt, hn]⟩
      rw [eval_of_topVar_ne_zero htop, eval_of_topVar_ne_zero htop, hxy _ hvar]
      apply ih _ (hn ▸ index_child_lt hlt) _ rfl (hs.holds_child hr hlt)
      exact hs.child_mem_reachableNodes hmem _ (hn ▸ hs.index_child_mem_childNodes hr hlt)

/-- What a part of a diagram is sensitive to, the whole is sensitive to. -/
theorem sensitive_of_child (hs : s.Reduced) (hf : s.Holds f) (htop : s.topVar f ≠ 0)
    (h : Sensitive (fun x => s.eval x (s.child f b)) v) : Sensitive (fun x => s.eval x f) v := by
  have hlt := one_lt_index htop
  have hchild : s.Holds (s.child f b) := hs.holds_child hf hlt
  have hbelow : s.Below (s.topVar f) (s.child f b) := hs.below_child hf hlt
  have hne : v ≠ s.topVar f := by
    rintro rfl
    obtain ⟨x, hx⟩ := h
    apply hx
    apply hs.eval_congr hchild hbelow
    intro w hw
    rw [Function.update_of_ne (by omega), Function.update_of_ne (by omega)]
  obtain ⟨x, hx⟩ := h
  refine ⟨Function.update x (s.topVar f) b, ?_⟩
  have hpart (a : Bool) :
      s.eval (Function.update (Function.update x (s.topVar f) b) v a) f =
        s.eval (Function.update x v a) (s.child f b) := by
    rw [eval_of_topVar_ne_zero htop, Function.update_of_ne (Ne.symm hne), Function.update_self]
    apply hs.eval_congr hchild hbelow
    intro w hw
    by_cases hwv : w = v
    · rw [hwv, Function.update_self, Function.update_self]
    · rw [Function.update_of_ne hwv, Function.update_of_ne hwv,
        Function.update_of_ne (by omega : w ≠ s.topVar f)]
  simp only [hpart]
  exact hx

theorem sensitive_topVar (hs : s.Reduced) (hf : s.Holds f) (htop : s.topVar f ≠ 0) :
    Sensitive (fun x => s.eval x f) (s.topVar f) := by
  by_contra hsens
  apply hs.cofactor_ne hf htop
  apply hs.eq_of_eval_eq (hs.holds_cofactor hf htop) (hs.holds_cofactor hf htop)
  intro x
  rw [hs.eval_cofactor hf htop (.inr (Nat.le_refl _)),
    hs.eval_cofactor hf htop (.inr (Nat.le_refl _))]
  have hsame := update_eq_of_not_sensitive hsens x
  exact (hsame false).trans (hsame true).symm

theorem sensitive_of_mem (hs : s.Reduced) (hf : s.Holds f) (hv : v ≠ 0)
    (hi : i ∈ s.reachableNodes [f]) (hvar : (s.nodes.get i).var = v) :
    Sensitive (fun x => s.eval x f) v := by
  induction hn : f.index using Nat.strongRecOn generalizing f with
  | ind n ih =>
    by_cases htop : s.topVar f = 0
    · -- The terminal alone is reached from a constant.
      have hindex : f.index = 1 := by
        rcases hs.eq_one_or_eq_zero hf htop with rfl | rfl
        · rfl
        · rfl
      have hone : i = 1 := by
        refine reachableNodes_induction (P := (· = 1)) rfl hindex (fun j hj k hk => ?_) i hi
        rw [childNodes, if_pos (by omega)] at hk
        exact absurd hk List.not_mem_nil
      rw [hone, hs.terminal] at hvar
      exact absurd hvar.symm hv
    · have hlt := one_lt_index htop
      rcases hs.mem_reachableNodes_child hf hlt i hi with rfl | ⟨b, hi⟩
      · rw [← hvar, ← topVar_eq hlt]
        exact hs.sensitive_topVar hf htop
      · apply hs.sensitive_of_child hf htop
        exact ih _ (hn ▸ index_child_lt hlt) (hs.holds_child hf hlt) hi rfl

theorem mem_support_iff (hs : s.Reduced) (hf : s.Holds f) :
    v ∈ s.support f ↔ Sensitive (fun x => s.eval x f) v := by
  constructor
  · intro hv
    obtain ⟨hne, i, hi, hvar⟩ := mem_support_iff_exists.mp hv
    exact hs.sensitive_of_mem hf hne hi hvar
  · intro hv
    exact mem_of_sensitive hv (hs.dependsOn_support hf)

/-- A reference to a function with a variable set is the reference to the function itself exactly if
the function is not sensitive to the variable. -/
theorem eq_iff_not_sensitive (hs : s.Reduced) (hr : s.Holds r) (hf : s.Holds f)
    (h : ∀ x, s.eval x r = s.eval (Function.update x v b) f) :
    r = f ↔ ¬ Sensitive (fun x => s.eval x f) v := by
  constructor
  · rintro rfl
    rw [funext h]
    exact not_sensitive_update (fun x => s.eval x r) v b
  · intro hsens
    exact hs.eq_of_eval_eq hr hf fun x => (h x).trans (update_eq_of_not_sensitive hsens x b)

end Reduced

namespace Includes

theorem childNodes_eq (h : s.Includes s') (hpos : 0 < i) (hle : i ≤ s.size) :
    s'.childNodes i = s.childNodes i := by
  rw [childNodes, childNodes, h.get_eq hpos hle]

/-- A diagram has the same nodes in every store that includes them. -/
theorem reachableNodes_eq (h : s.Includes s') (hs : s.Reduced) (hs' : s'.Reduced)
    (hf : s.Holds f) : s'.reachableNodes [f] = s.reachableNodes [f] := by
  let Shared (i : Nat) : Prop := i ∈ s.reachableNodes [f] ∧ i ∈ s'.reachableNodes [f]
  have hone : Shared 1 := ⟨hs.one_mem_reachableNodes f, hs'.one_mem_reachableNodes f⟩
  have hroot : Shared f.index :=
    ⟨Reduced.root_mem_reachableNodes hf, Reduced.root_mem_reachableNodes (h.holds hf)⟩
  have hchildren {i : Nat} (hi : Shared i) : s'.childNodes i = s.childNodes i := by
    obtain ⟨hpos, hle⟩ := hs.holds_of_mem_reachableNodes hf i hi.1
    exact h.childNodes_eq hpos hle
  have hclosed (i : Nat) (hi : Shared i) : ∀ j ∈ s.childNodes i, Shared j := fun j hj =>
    ⟨hs.child_mem_reachableNodes hi.1 j hj,
      hs'.child_mem_reachableNodes hi.2 j (hchildren hi ▸ hj)⟩
  refine (pairwise_marked _).eq_of_mem_iff (pairwise_marked _) fun i => ⟨fun hi => ?_, fun hi => ?_⟩
  · exact (reachableNodes_induction hone hroot
      (fun i hi j hj => hclosed i hi j (hchildren hi ▸ hj)) i hi).1
  · exact (reachableNodes_induction hone hroot hclosed i hi).2

theorem support_eq (h : s.Includes s') (hs : s.Reduced) (hs' : s'.Reduced) (hf : s.Holds f) :
    s'.support f = s.support f := by
  have hvars : (s.reachableNodes [f]).map (fun i => (s'.nodes.get i).var) =
      (s.reachableNodes [f]).map fun i => (s.nodes.get i).var := by
    apply List.map_congr_left
    intro i hi
    obtain ⟨hpos, hle⟩ := hs.holds_of_mem_reachableNodes hf i hi
    rw [h.get_eq hpos hle]
  rw [support, support, h.reachableNodes_eq hs hs' hf, hvars]

end Includes

end AndInverter.DiagramStore
