import AndInverter.Reach

/-!
# Marking what is reachable

Where children come before their parents, the marks hold of the least set of nodes that contains the
roots and is closed under children: it is closed, and it lies in every closed set that contains the
roots.
-/

namespace AndInverter

variable {children : Nat → List Nat} {marks : Array Bool} {roots is : List Nat} {n i : Nat}

theorem size_markAll (marks : Array Bool) (is : List Nat) :
    (markAll marks is).size = marks.size := by
  induction is generalizing marks with
  | nil => rfl
  | cons j is ih =>
    change (markAll (marks.setIfInBounds j true) is).size = marks.size
    rw [ih, Array.size_setIfInBounds]

theorem getElem?_markAll_eq_true : (markAll marks is)[i]? = some true ↔
    marks[i]? = some true ∨ i ∈ is ∧ i < marks.size := by
  induction is generalizing marks with
  | nil => simp [markAll]
  | cons j is ih =>
    change (markAll (marks.setIfInBounds j true) is)[i]? = some true ↔ _
    rw [ih, Array.size_setIfInBounds, Array.getElem?_setIfInBounds, List.mem_cons, or_and_right,
      ← or_assoc]
    refine or_congr_left ?_
    split
    · rename_i hj
      subst hj
      by_cases hlt : j < marks.size
      · simp [hlt]
      · simp [hlt]
    · rename_i hj
      simp [Ne.symm hj]

theorem getD_eq_true : marks.getD i false = true ↔ marks[i]? = some true := by
  rw [Array.getD_eq_getD_getElem?]
  cases marks[i]? with
  | none => simp
  | some b => simp

theorem sweep_of_marked (h : marks[i]? = some true) : (sweep children n marks)[i]? = some true := by
  induction n generalizing marks with
  | zero => exact h
  | succ n ih =>
    rw [sweep]
    apply ih
    split
    · exact getElem?_markAll_eq_true.mpr (.inl h)
    · exact h

theorem marked_of_sweep {P : Nat → Prop} (hclosed : ∀ i, P i → ∀ c ∈ children i, P c)
    (hmarks : ∀ i, marks[i]? = some true → P i) (h : (sweep children n marks)[i]? = some true) :
    P i := by
  induction n generalizing marks with
  | zero => exact hmarks i h
  | succ n ih =>
    rw [sweep] at h
    refine ih (fun j hj => ?_) h
    split at hj
    · rename_i hn
      rcases getElem?_markAll_eq_true.mp hj with hj | ⟨hj, -⟩
      · exact hmarks j hj
      · exact hclosed n (hmarks n (getD_eq_true.mp hn)) j hj
    · exact hmarks j hj

/-- A pass from the last node down closes the marks, since the children of a node come later. -/
theorem sweep_closed (hlt : ∀ i, ∀ c ∈ children i, c < i)
    (hmarks : ∀ i, n ≤ i → marks[i]? = some true → ∀ c ∈ children i, marks[c]? = some true)
    (h : (sweep children n marks)[i]? = some true) :
    ∀ c ∈ children i, (sweep children n marks)[c]? = some true := by
  -- Nodes from `n` on are closed, and stay so, since a pass over `n` marks only nodes below it.
  induction n generalizing marks with
  | zero => exact hmarks i (Nat.zero_le i) h
  | succ n ih =>
    rw [sweep] at h ⊢
    refine ih (fun j hj hjm c hc => ?_) h
    have hcj := hlt j c hc
    split at hjm
    · rename_i hn
      rw [if_pos hn]
      have hnm := getD_eq_true.mp hn
      have hsize : n < marks.size := (Array.getElem?_eq_some_iff.mp hnm).1
      rw [getElem?_markAll_eq_true] at hjm ⊢
      rcases Nat.eq_or_lt_of_le hj with rfl | hj
      · exact .inr ⟨hc, by omega⟩
      · rcases hjm with hjm | ⟨hjm, -⟩
        · exact .inl (hmarks j hj hjm c hc)
        · have := hlt n j hjm
          omega
    · rename_i hn
      rw [if_neg hn]
      rcases Nat.eq_or_lt_of_le hj with rfl | hj
      · exact absurd (getD_eq_true.mpr hjm) hn
      · exact hmarks j hj hjm c hc

theorem size_sweep (children : Nat → List Nat) (n : Nat) (marks : Array Bool) :
    (sweep children n marks).size = marks.size := by
  induction n generalizing marks with
  | zero => rfl
  | succ n ih =>
    rw [sweep, ih]
    split
    · exact size_markAll marks _
    · rfl

theorem size_reachable (children : Nat → List Nat) (n : Nat) (roots : List Nat) :
    (reachable children n roots).size = n := by
  rw [reachable, size_sweep, size_markAll, Array.size_replicate]

theorem reachable_root (hi : i ∈ roots) (hn : i < n) :
    (reachable children n roots)[i]? = some true :=
  sweep_of_marked (getElem?_markAll_eq_true.mpr (.inr ⟨hi, by rwa [Array.size_replicate]⟩))

theorem reachable_closed (hlt : ∀ i, ∀ c ∈ children i, c < i)
    (h : (reachable children n roots)[i]? = some true) :
    ∀ c ∈ children i, (reachable children n roots)[c]? = some true := by
  refine sweep_closed hlt (fun j hj hjm => ?_) h
  have hlt := (Array.getElem?_eq_some_iff.mp hjm).1
  rw [size_markAll, Array.size_replicate] at hlt
  omega

/-- Every closed set that contains the roots contains what is marked. -/
theorem of_reachable {P : Nat → Prop} (hclosed : ∀ i, P i → ∀ c ∈ children i, P c)
    (hroots : ∀ r ∈ roots, P r) (h : (reachable children n roots)[i]? = some true) : P i := by
  refine marked_of_sweep hclosed (fun j hj => ?_) h
  rcases getElem?_markAll_eq_true.mp hj with hj | ⟨hj, -⟩
  · rw [Array.getElem?_replicate] at hj
    split at hj
    · cases hj
    · cases hj
  · exact hroots j hj

theorem mem_collect : i ∈ collect marks n is ↔ i < n ∧ marks[i]? = some true ∨ i ∈ is := by
  induction n generalizing is with
  | zero => simp [collect]
  | succ n ih =>
    rw [collect, ih]
    have hlt : i < n + 1 ↔ i < n ∨ i = n := by omega
    rw [hlt, or_and_right, or_assoc]
    refine or_congr_right ?_
    split
    · rename_i hn
      rw [List.mem_cons]
      refine or_congr_left ⟨?_, And.left⟩
      rintro rfl
      exact ⟨rfl, getD_eq_true.mp hn⟩
    · rename_i hn
      refine ⟨.inr, fun h => h.resolve_left ?_⟩
      rintro ⟨rfl, hi⟩
      exact hn (getD_eq_true.mpr hi)

theorem pairwise_collect (his : is.Pairwise (· < ·)) (hn : ∀ i ∈ is, n ≤ i) :
    (collect marks n is).Pairwise (· < ·) := by
  induction n generalizing is with
  | zero => exact his
  | succ n ih =>
    rw [collect]
    split
    · refine ih (List.pairwise_cons.mpr ⟨hn, his⟩) fun i hi => ?_
      rcases List.mem_cons.mp hi with rfl | hi
      · exact Nat.le_refl i
      · exact Nat.le_of_succ_le (hn i hi)
    · exact ih his fun i hi => Nat.le_of_succ_le (hn i hi)

@[simp] theorem mem_marked : i ∈ marked marks ↔ marks[i]? = some true := by
  rw [marked, mem_collect]
  simp only [List.not_mem_nil, or_false, and_iff_right_iff_imp]
  exact fun h => (Array.getElem?_eq_some_iff.mp h).1

theorem pairwise_marked (marks : Array Bool) : (marked marks).Pairwise (· < ·) :=
  pairwise_collect .nil (by simp)

end AndInverter
