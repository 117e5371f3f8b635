import AndInverter.Proofs.Reachability

/-!
# Marking by a search

A search takes one node after the other from a stack, marks its children, and puts those that it has
not marked before on the stack. Every marked node waits on the stack or has all its children marked,
so the marks are closed when the stack is empty. A search with a queue marks a node only when it is
taken, and queues up all its children. Both end with the marks of the pass from the last node down.
-/

namespace AndInverter

/-- The nodes that a search has marked, and those of them that wait for their children. -/
structure Exploration where
  marks : Array Bool
  stack : List Nat

namespace Exploration

variable {children : Nat → List Nat} {e : Exploration} {marks : Array Bool} {stack is : List Nat}
  {i j n root : Nat}

def discover (e : Exploration) (i : Nat) : Exploration :=
  if e.marks[i]? = some false then ⟨e.marks.setIfInBounds i true, i :: e.stack⟩ else e

def ahead (e : Exploration) : Nat := e.stack.length + e.marks.countP (!·)

theorem ahead_discover_le (e : Exploration) (i : Nat) : (e.discover i).ahead ≤ e.ahead := by
  rw [discover]
  split
  · rename_i h
    have := countP_not_setIfInBounds_lt h
    simp only [ahead, List.length_cons]
    omega
  · exact Nat.le_refl _

theorem ahead_foldl_le (e : Exploration) (is : List Nat) :
    (is.foldl discover e).ahead ≤ e.ahead := by
  induction is generalizing e with
  | nil => exact Nat.le_refl _
  | cons i is ih => exact Nat.le_trans (ih (e.discover i)) (ahead_discover_le e i)

def run (children : Nat → List Nat) : Exploration → Array Bool
  | ⟨marks, []⟩ => marks
  | ⟨marks, i :: stack⟩ => run children ((children i).foldl discover ⟨marks, stack⟩)
termination_by e => e.ahead
decreasing_by
  refine Nat.lt_of_le_of_lt (ahead_foldl_le _ _) ?_
  simp only [ahead, List.length_cons]
  omega

def numTaken (children : Nat → List Nat) : Exploration → Nat
  | ⟨_, []⟩ => 0
  | ⟨marks, i :: stack⟩ => numTaken children ((children i).foldl discover ⟨marks, stack⟩) + 1
termination_by e => e.ahead
decreasing_by
  refine Nat.lt_of_le_of_lt (ahead_foldl_le _ _) ?_
  simp only [ahead, List.length_cons]
  omega

theorem numTaken_le (children : Nat → List Nat) (e : Exploration) :
    e.numTaken children ≤ e.ahead := by
  fun_induction numTaken children e with
  | case1 => exact Nat.zero_le _
  | case2 marks i stack ih =>
    have hle := ahead_foldl_le ⟨marks, stack⟩ (children i)
    simp only [ahead, List.length_cons] at ih hle ⊢
    omega

def start (n root : Nat) : Exploration := ⟨markAll (.replicate n false) [root], [root]⟩

/-- A search from a root takes no more nodes from the stack than there are. -/
theorem numTaken_start_le (children : Nat → List Nat) (hroot : root < n) :
    (start n root).numTaken children ≤ n := by
  have hfree : (Array.replicate n false)[root]? = some false := by
    rw [Array.getElem?_replicate, if_pos hroot]
  have hlt := countP_not_setIfInBounds_lt hfree
  have hle : (Array.replicate n false).countP (!·) ≤ (Array.replicate n false).size :=
    Array.countP_le_size
  rw [Array.size_replicate] at hle
  refine Nat.le_trans (numTaken_le children _) ?_
  change 1 + ((Array.replicate n false).setIfInBounds root true).countP (!·) ≤ n
  omega

theorem marks_discover (e : Exploration) (i : Nat) :
    (e.discover i).marks = e.marks.setIfInBounds i true := by
  rw [discover]
  split
  · rfl
  · rename_i h
    refine Array.ext_getElem? fun j => ?_
    rw [Array.getElem?_setIfInBounds]
    split
    · rename_i hij
      subst hij
      cases he : e.marks[i]? with
      | none => rw [if_neg (Nat.not_lt.mpr (Array.getElem?_eq_none_iff.mp he))]
      | some b =>
        rw [if_pos (Array.getElem?_eq_some_iff.mp he).1]
        cases b with
        | false => exact absurd he h
        | true => rfl
    · rfl

theorem marks_foldl (e : Exploration) (is : List Nat) :
    (is.foldl discover e).marks = markAll e.marks is := by
  induction is generalizing e with
  | nil => rfl
  | cons i is ih =>
    rw [List.foldl_cons, ih, marks_discover]
    rfl

theorem mem_stack_foldl : j ∈ (is.foldl discover e).stack ↔
    j ∈ e.stack ∨ j ∈ is ∧ e.marks[j]? = some false := by
  induction is generalizing e with
  | nil => simp
  | cons i is ih =>
    rw [List.foldl_cons, ih, marks_discover, Array.getElem?_setIfInBounds, List.mem_cons, discover]
    by_cases hij : i = j
    · subst hij
      split
      · rename_i h
        simp [h]
      · rename_i h
        simp [h]
    · rw [if_neg hij]
      split
      · simp [Ne.symm hij]
      · simp [Ne.symm hij]

def Closing (children : Nat → List Nat) (e : Exploration) : Prop :=
  ∀ i, e.marks[i]? = some true → i ∈ e.stack ∨ ∀ c ∈ children i, e.marks[c]? = some true

theorem closing_start (children : Nat → List Nat) (n root : Nat) :
    (start n root).Closing children := by
  intro i hi
  rcases getElem?_markAll_eq_true.mp hi with hi | ⟨hi, -⟩
  · rw [Array.getElem?_replicate] at hi
    split at hi <;> cases hi
  · exact .inl hi

/-- When a node has been taken from the stack, its children are marked. -/
theorem Closing.step (h : (Exploration.mk marks (i :: stack)).Closing children)
    (hbound : ∀ c ∈ children i, c < marks.size) :
    ((children i).foldl discover ⟨marks, stack⟩).Closing children := by
  intro j hj
  rw [marks_foldl] at hj ⊢
  simp only [mem_stack_foldl, getElem?_markAll_eq_true] at hj ⊢
  by_cases hold : marks[j]? = some true
  · rcases h j hold with hj | hj
    · rcases List.mem_cons.mp hj with rfl | hj
      · exact .inr fun c hc => .inr ⟨hc, hbound c hc⟩
      · exact .inl (.inl hj)
    · exact .inr fun c hc => .inl (hj c hc)
  · obtain ⟨hj, hlt⟩ := hj.resolve_left hold
    refine .inl (.inr ⟨hj, ?_⟩)
    rw [Array.getElem?_eq_getElem hlt] at hold ⊢
    simpa using hold

theorem Closing.closed_run (h : e.Closing children)
    (hbound : ∀ i, ∀ c ∈ children i, c < e.marks.size) :
    ∀ i, (e.run children)[i]? = some true → ∀ c ∈ children i, (e.run children)[c]? = some true := by
  fun_induction run children e with
  | case1 marks => exact fun i hi => (h i hi).resolve_left List.not_mem_nil
  | case2 marks i stack ih =>
    refine ih (h.step (hbound i)) fun j c hc => ?_
    rw [marks_foldl, size_markAll]
    exact hbound j c hc

theorem run_of_marked (h : e.marks[i]? = some true) : (e.run children)[i]? = some true := by
  fun_induction run children e with
  | case1 => exact h
  | case2 marks j stack ih =>
    refine ih ?_
    rw [marks_foldl]
    exact getElem?_markAll_eq_true.mpr (.inl h)

theorem of_run {P : Nat → Prop} (hclosed : ∀ i, P i → ∀ c ∈ children i, P c)
    (hmarks : ∀ i, e.marks[i]? = some true → P i) (hstack : ∀ i ∈ e.stack, P i)
    (h : (e.run children)[i]? = some true) : P i := by
  fun_induction run children e with
  | case1 => exact hmarks i h
  | case2 marks k stack ih =>
    have hk := hclosed k (hstack k List.mem_cons_self)
    refine ih (fun j hj => ?_) (fun j hj => ?_) h
    · rw [marks_foldl] at hj
      rcases getElem?_markAll_eq_true.mp hj with hj | ⟨hj, -⟩
      · exact hmarks j hj
      · exact hk j hj
    · rcases mem_stack_foldl.mp hj with hj | ⟨hj, -⟩
      · exact hstack j (List.mem_cons_of_mem k hj)
      · exact hk j hj

theorem size_run (children : Nat → List Nat) (e : Exploration) :
    (e.run children).size = e.marks.size := by
  fun_induction run children e with
  | case1 => rfl
  | case2 marks i stack ih => rw [ih, marks_foldl, size_markAll]

/-- Marks are settled by the indices that are marked. -/
theorem marks_ext {marks' : Array Bool} (hsize : marks.size = marks'.size)
    (h : ∀ i : Nat, marks[i]? = some true ↔ marks'[i]? = some true) : marks = marks' := by
  refine Array.ext hsize fun i hi hi' => Bool.eq_iff_iff.mpr ?_
  have hi_iff := h i
  rwa [Array.getElem?_eq_getElem hi, Array.getElem?_eq_getElem hi', Option.some.injEq,
    Option.some.injEq] at hi_iff

/-- Working off a stack marks the same nodes as a pass from the last node down. -/
theorem run_start (hlt : ∀ i, ∀ c ∈ children i, c < i) (hbound : ∀ i, ∀ c ∈ children i, c < n)
    (hroot : root < n) : (start n root).run children = reachable children n [root] := by
  have hsize : (start n root).marks.size = n := by
    rw [start, size_markAll, Array.size_replicate]
  have hmark : (start n root).marks[root]? = some true := by
    refine getElem?_markAll_eq_true.mpr (.inr ⟨List.mem_singleton_self root, ?_⟩)
    rwa [Array.size_replicate]
  refine marks_ext ?_ fun i => ⟨?_, ?_⟩
  · rw [size_run, hsize, size_reachable]
  · refine of_run (P := fun i => (reachable children n [root])[i]? = some true)
      (fun i hi c hc => reachable_closed hlt hi c hc) (fun i hi => sweep_of_marked hi)
      fun i hi => ?_
    rw [List.mem_singleton.mp hi]
    exact sweep_of_marked hmark
  · refine of_reachable (P := fun i => ((start n root).run children)[i]? = some true)
      ((closing_start children n root).closed_run (by rwa [hsize])) fun i hi => ?_
    rw [List.mem_singleton.mp hi]
    exact run_of_marked hmark

end Exploration

section Queue

variable {children : Nat → List Nat} {marks : Array Bool} {queue first rest : List Nat} {i n : Nat}

/-- Works off a queue. A node that is marked is dropped; any other one is marked, and its children
queue up. -/
def workOff (children : Nat → List Nat) (marks : Array Bool) : List Nat → Array Bool
  | [] => marks
  | i :: queue =>
    if _h : marks[i]? = some false then
      workOff children (marks.setIfInBounds i true) (queue ++ children i)
    else workOff children marks queue
termination_by queue => (marks.countP (!·), queue.length)
decreasing_by
  · exact .left _ _ (countP_not_setIfInBounds_lt _h)
  · exact .right _ (Nat.lt_succ_self _)

theorem size_workOff (children : Nat → List Nat) (marks : Array Bool) (queue : List Nat) :
    (workOff children marks queue).size = marks.size := by
  fun_induction workOff children marks queue with
  | case1 => rfl
  | case2 marks i queue h ih => rw [ih, Array.size_setIfInBounds]
  | case3 marks i queue h ih => exact ih

theorem getElem?_setIfInBounds_eq_true {j : Nat} (h : marks[i]? = some false) :
    (marks.setIfInBounds i true)[j]? = some true ↔ marks[j]? = some true ∨ j = i := by
  obtain ⟨hi, -⟩ := Array.getElem?_eq_some_iff.mp h
  rw [Array.getElem?_setIfInBounds]
  by_cases hij : i = j
  · subst hij
    simp [hi]
  · simp [hij, Ne.symm hij]

theorem getElem?_eq_true (hi : i < marks.size) (h : ¬ marks[i]? = some false) :
    marks[i]? = some true := by
  rw [Array.getElem?_eq_getElem hi] at h ⊢
  simpa using h

theorem workOff_of_marked (h : marks[i]? = some true) :
    (workOff children marks queue)[i]? = some true := by
  fun_induction workOff children marks queue with
  | case1 => exact h
  | case2 marks j queue hj ih => exact ih ((getElem?_setIfInBounds_eq_true hj).mpr (.inl h))
  | case3 marks j queue hj ih => exact ih h

theorem workOff_of_queued (h : i ∈ queue) (hi : i < marks.size) :
    (workOff children marks queue)[i]? = some true := by
  fun_induction workOff children marks queue with
  | case1 => exact absurd h List.not_mem_nil
  | case2 marks j queue hj ih =>
    rcases List.mem_cons.mp h with rfl | h
    · exact workOff_of_marked ((getElem?_setIfInBounds_eq_true hj).mpr (.inr rfl))
    · exact ih (List.mem_append_left _ h) (by rwa [Array.size_setIfInBounds])
  | case3 marks j queue hj ih =>
    rcases List.mem_cons.mp h with rfl | h
    · exact workOff_of_marked (getElem?_eq_true hi hj)
    · exact ih h hi

/-- Every closed set with the nodes that are marked or queue up has all nodes that get marked. -/
theorem of_workOff {P : Nat → Prop} (hclosed : ∀ i, P i → ∀ c ∈ children i, P c)
    (hmarks : ∀ i : Nat, marks[i]? = some true → P i) (hqueue : ∀ i ∈ queue, P i)
    (h : (workOff children marks queue)[i]? = some true) : P i := by
  fun_induction workOff children marks queue with
  | case1 => exact hmarks i h
  | case2 marks k queue hk ih =>
    obtain ⟨hPk, hqueue⟩ := List.forall_mem_cons.mp hqueue
    apply ih _ _ h
    · intro j hj
      rcases (getElem?_setIfInBounds_eq_true hk).mp hj with hj | rfl
      · exact hmarks j hj
      · exact hPk
    · intro j hj
      rcases List.mem_append.mp hj with hj | hj
      · exact hqueue j hj
      · exact hclosed k hPk j hj
  | case3 marks k queue hk ih => exact ih hmarks (List.forall_mem_cons.mp hqueue).2 h

/-- Where the children of marked nodes are marked or queue up, all of them get marked. -/
theorem workOff_closed (hbound : ∀ i, ∀ c ∈ children i, c < marks.size)
    (hpending : ∀ i : Nat, marks[i]? = some true →
      ∀ c ∈ children i, marks[c]? = some true ∨ c ∈ queue) :
    ∀ i : Nat, (workOff children marks queue)[i]? = some true →
      ∀ c ∈ children i, (workOff children marks queue)[c]? = some true := by
  fun_induction workOff children marks queue with
  | case1 => exact fun i hi c hc => (hpending i hi c hc).resolve_right List.not_mem_nil
  | case2 marks j queue hj ih =>
    apply ih
    · rwa [Array.size_setIfInBounds]
    · intro i hi c hc
      rw [getElem?_setIfInBounds_eq_true hj, List.mem_append]
      rcases (getElem?_setIfInBounds_eq_true hj).mp hi with hi | rfl
      · rcases hpending i hi c hc with hc | hc
        · exact .inl (.inl hc)
        · rcases List.mem_cons.mp hc with rfl | hc
          · exact .inl (.inr rfl)
          · exact .inr (.inl hc)
      · exact .inr (.inr hc)
  | case3 marks j queue hj ih =>
    apply ih hbound
    intro i hi c hc
    rcases hpending i hi c hc with hc' | hc'
    · exact .inl hc'
    · rcases List.mem_cons.mp hc' with rfl | hc'
      · exact .inl (getElem?_eq_true (hbound i c hc) hj)
      · exact .inr hc'

/-- Working off a queue marks the same nodes as a pass from the last node down, with some nodes
without children marked to begin with. -/
theorem workOff_eq_reachable (hlt : ∀ i, ∀ c ∈ children i, c < i)
    (hbound : ∀ i, ∀ c ∈ children i, c < n) (hfirst : ∀ i ∈ first, children i = [])
    (hroots : ∀ i ∈ first ++ rest, i < n) :
    workOff children (markAll (.replicate n false) first) rest =
      reachable children n (first ++ rest) := by
  have hsize : (markAll (.replicate n false) first).size = n := by
    rw [size_markAll, Array.size_replicate]
  have hmarks {i : Nat} : (markAll (.replicate n false) first)[i]? = some true ↔
      i ∈ first ∧ i < n := by
    rw [getElem?_markAll_eq_true, Array.size_replicate, Array.getElem?_replicate]
    split
    · simp
    · simp
  apply Exploration.marks_ext
  · rw [size_workOff, hsize, size_reachable]
  intro i
  constructor
  · apply of_workOff fun i hi c hc => reachable_closed hlt hi c hc
    · intro j hj
      obtain ⟨hj, hjn⟩ := hmarks.mp hj
      exact reachable_root (List.mem_append_left _ hj) hjn
    · intro j hj
      have hj := List.mem_append_right first hj
      exact reachable_root hj (hroots j hj)
  · apply of_reachable
    · apply workOff_closed
      · rwa [hsize]
      · intro j hj c hc
        rw [hfirst j (hmarks.mp hj).1] at hc
        exact absurd hc List.not_mem_nil
    · intro j hj
      rcases List.mem_append.mp hj with hj' | hj'
      · exact workOff_of_marked (hmarks.mpr ⟨hj', hroots j hj⟩)
      · exact workOff_of_queued hj' (by rw [hsize]; exact hroots j hj)

end Queue

end AndInverter
