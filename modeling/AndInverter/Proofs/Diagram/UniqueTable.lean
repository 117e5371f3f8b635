import AndInverter.Diagram.UniqueTable

/-!
# What a unique table finds

A value that has been found once is found at the same index for ever, and a new value is found at
the cell that it takes. So equal values have one index.
-/

namespace AndInverter.UniqueTable

variable {α : Type}

section Cells

variable {t : UniqueTable α} {j : Nat}

/-- The state of a table whose cells have been taken one by one. -/
structure WellFormed (t : UniqueTable α) : Prop where
  values_pos : 0 < t.values.size
  values_le : t.values.size ≤ t.capacity
  size_nexts : t.nexts.size = t.values.size
  next_lt (i : Nat) : t.nexts.getD i 0 < t.values.size
  head_lt (i : Nat) : t.heads.getD i 0 < t.values.size

theorem WellFormed.size_values (ht : t.WellFormed) : t.values.size = t.size + 1 :=
  (Nat.sub_add_cancel ht.values_pos).symm

theorem getD_push_zero (nexts : Array Nat) (i : Nat) :
    (nexts.push 0).getD i 0 = nexts.getD i 0 := by
  rw [Array.getD_eq_getD_getElem?, Array.getD_eq_getD_getElem?, Array.getElem?_push]
  split
  · rename_i hi
    rw [hi]
    simp
  · rfl

theorem getD_setIfInBounds {xs : Array Nat} {i k y : Nat} (hi : i < xs.size) :
    (xs.setIfInBounds i y).getD k 0 = if k = i then y else xs.getD k 0 := by
  rw [Array.getD_eq_getD_getElem?, Array.getD_eq_getD_getElem?, Array.getElem?_setIfInBounds]
  split
  · rename_i hk
    subst hk
    rw [if_pos rfl, Option.getD_some]
  · rename_i hk
    rw [if_neg (Ne.symm hk)]

theorem getD_replicate_zero (n i : Nat) : (Array.replicate n 0).getD i 0 = 0 := by
  rw [Array.getD_eq_getD_getElem?, Array.getElem?_replicate]
  split <;> rfl

theorem wellFormed_ofBits [Inhabited α] (bits : Nat) : (ofBits bits : UniqueTable α).WellFormed where
  values_pos := Nat.one_pos
  values_le := one_shiftLeft_pos bits
  size_nexts := rfl
  next_lt i := Nat.lt_of_le_of_lt (Nat.le_of_eq (getD_replicate_zero 1 i)) Nat.one_pos
  head_lt i := Nat.lt_of_le_of_lt (Nat.le_of_eq (getD_replicate_zero _ i)) Nat.one_pos

theorem WellFormed.add (ht : t.WellFormed) (hfree : t.values.size < t.capacity) (value : α) :
    (t.add value).WellFormed := by
  have hsize : (t.add value).values.size = t.values.size + 1 := Array.size_push value
  refine ⟨by omega, hsize ▸ hfree, ?_, fun i => ?_, fun i => ?_⟩
  · rw [hsize, ← ht.size_nexts]
    exact Array.size_push ..
  · have hnext : (t.add value).nexts.getD i 0 = t.nexts.getD i 0 := getD_push_zero t.nexts i
    rw [hsize, hnext]
    exact Nat.lt_succ_of_lt (ht.next_lt i)
  · rw [hsize]
    exact Nat.lt_succ_of_lt (ht.head_lt i)

theorem next_add (t : UniqueTable α) (value : α) (i : Nat) : (t.add value).next i = t.next i :=
  getD_push_zero t.nexts i

theorem next_extendChain (ht : t.WellFormed) (hj : j < t.values.size) (value : α) (i : Nat) :
    (t.extendChain value j).next i = if i = j then t.values.size else t.next i := by
  have hsize : j < (t.nexts.push 0).size := by
    rw [Array.size_push, ht.size_nexts]
    exact Nat.lt_succ_of_lt hj
  have hset : (t.extendChain value j).nexts = (t.nexts.push 0).setIfInBounds j t.values.size := rfl
  rw [next, hset, getD_setIfInBounds hsize, getD_push_zero, next]

variable [BucketKey α]

theorem next_startChain (t : UniqueTable α) (value : α) (i : Nat) :
    (t.startChain value).next i = t.next i :=
  getD_push_zero t.nexts i

def home (t : UniqueTable α) (value : α) : Nat := (word value).toUInt32.toNat % t.heads.size

def head (t : UniqueTable α) (value : α) : Nat := t.heads.getD (t.home value) 0

theorem home_lt (t : UniqueTable α) (value : α) : t.home value < t.heads.size :=
  Nat.mod_lt _ t.heads_pos

theorem size_heads_startChain (t : UniqueTable α) (value : α) :
    (t.startChain value).heads.size = t.heads.size :=
  Array.size_set (t.home_lt value)

theorem getD_heads_startChain (t : UniqueTable α) (value : α) (b : Nat) :
    (t.startChain value).heads.getD b 0 =
      if b = t.home value then t.values.size else t.heads.getD b 0 := by
  have hset : (t.startChain value).heads = t.heads.setIfInBounds (t.home value) t.values.size := by
    rw [Array.setIfInBounds, dif_pos (t.home_lt value)]
    rfl
  rw [hset, getD_setIfInBounds (t.home_lt value)]

theorem home_startChain (t : UniqueTable α) (value x : α) :
    (t.startChain value).home x = t.home x := by
  rw [home, home, size_heads_startChain]

end Cells

variable [BEq α] {values : Array α} {nexts nexts' : Array Nat} {value x : α} {index j k : Nat}

theorem walk_eq_found (h : walk values nexts value index = .found j) :
    index ≤ j ∧ ∃ y, values[j]? = some y ∧ value == y := by
  induction index using walk.induct values nexts value with
  | case1 i hi hv =>
    rw [walk, dif_pos hi, if_pos hv] at h
    cases h
    exact ⟨Nat.le_refl _, values[j], Array.getElem?_eq_getElem hi, hv⟩
  | case2 i hi hv next hlt ih =>
    rw [walk, dif_pos hi, if_neg hv, if_pos hlt] at h
    have hj := ih h
    exact ⟨Nat.le_of_lt (Nat.lt_of_lt_of_le hlt hj.1), hj.2⟩
  | case3 i hi hv next hlt =>
    rw [walk, dif_pos hi, if_neg hv, if_neg hlt] at h
    cases h
  | case4 i hi =>
    rw [walk, dif_neg hi] at h
    cases h

theorem walk_ne_empty : walk values nexts value index ≠ .empty := by
  induction index using walk.induct values nexts value with
  | case1 i hi hv =>
    rw [walk, dif_pos hi, if_pos hv]
    exact Search.noConfusion
  | case2 i hi hv next hlt ih =>
    rw [walk, dif_pos hi, if_neg hv, if_pos hlt]
    exact ih
  | case3 i hi hv next hlt =>
    rw [walk, dif_pos hi, if_neg hv, if_neg hlt]
    exact Search.noConfusion
  | case4 i hi =>
    rw [walk, dif_neg hi]
    exact Search.noConfusion

/-- A walk that finds nothing ends at a cell without a successor. -/
theorem walk_eq_last (hindex : index < values.size) (hnexts : ∀ i, nexts.getD i 0 < values.size)
    (h : walk values nexts value index = .last j) :
    index ≤ j ∧ j < values.size ∧ nexts.getD j 0 ≤ j := by
  induction index using walk.induct values nexts value with
  | case1 i hi hv =>
    rw [walk, dif_pos hi, if_pos hv] at h
    cases h
  | case2 i hi hv next hlt ih =>
    rw [walk, dif_pos hi, if_neg hv, if_pos hlt] at h
    have hj := ih (hnexts i) h
    exact ⟨Nat.le_of_lt (Nat.lt_of_lt_of_le hlt hj.1), hj.2⟩
  | case3 i hi hv next hlt =>
    rw [walk, dif_pos hi, if_neg hv, if_neg hlt] at h
    cases h
    exact ⟨Nat.le_refl _, hi, Nat.le_of_not_lt hlt⟩
  | case4 i hi => exact absurd hindex hi

/-- Links from cells that had none do not divert a walk. -/
theorem walk_push_of_found (h : walk values nexts value index = .found k)
    (hnexts : ∀ i, i < values.size → i < nexts.getD i 0 → nexts'.getD i 0 = nexts.getD i 0) :
    walk (values.push x) nexts' value index = .found k := by
  induction index using walk.induct values nexts value with
  | case1 i hi hv =>
    rw [walk, dif_pos hi, if_pos hv] at h
    have hi' : i < (values.push x).size := by rw [Array.size_push]; omega
    rw [walk, dif_pos hi', if_pos (by rwa [Array.getElem_push_lt hi]), h]
  | case2 i hi hv next hlt ih =>
    rw [walk, dif_pos hi, if_neg hv, if_pos hlt] at h
    have hi' : i < (values.push x).size := by rw [Array.size_push]; omega
    have hlt' : i < nexts'.getD i 0 := by
      rw [hnexts i hi hlt]
      exact hlt
    rw [walk, dif_pos hi', if_neg (by rw [Array.getElem_push_lt hi]; exact hv), if_pos hlt',
      hnexts i hi hlt]
    exact ih h
  | case3 i hi hv next hlt =>
    rw [walk, dif_pos hi, if_neg hv, if_neg hlt] at h
    cases h
  | case4 i hi =>
    rw [walk, dif_neg hi] at h
    cases h

/-- A walk that ended at a cell goes on to the cell that has been linked to it. -/
theorem walk_push_of_last [ReflBEq α] (hindex : index < values.size)
    (hbound : ∀ i, nexts.getD i 0 < values.size)
    (h : walk values nexts value index = .last j)
    (hnexts : ∀ i, i < values.size → i < nexts.getD i 0 → nexts'.getD i 0 = nexts.getD i 0)
    (hj : nexts'.getD j 0 = values.size) :
    walk (values.push value) nexts' value index = .found values.size := by
  have hnew : walk (values.push value) nexts' value values.size = .found values.size := by
    rw [walk, dif_pos (by simp), if_pos (by simp)]
  induction index using walk.induct values nexts value with
  | case1 i hi hv =>
    rw [walk, dif_pos hi, if_pos hv] at h
    cases h
  | case2 i hi hv next hlt ih =>
    rw [walk, dif_pos hi, if_neg hv, if_pos hlt] at h
    have hi' : i < (values.push value).size := by rw [Array.size_push]; omega
    have hlt' : i < nexts'.getD i 0 := by
      rw [hnexts i hi hlt]
      exact hlt
    rw [walk, dif_pos hi', if_neg (by rw [Array.getElem_push_lt hi]; exact hv), if_pos hlt',
      hnexts i hi hlt]
    exact ih (hbound i) h
  | case3 index hi hv next hlt =>
    rw [walk, dif_pos hi, if_neg hv, if_neg hlt] at h
    cases h
    have hi' : j < (values.push value).size := by rw [Array.size_push]; omega
    rw [walk, dif_pos hi', if_neg (by rw [Array.getElem_push_lt hi]; exact hv), hj, if_pos hi]
    exact hnew
  | case4 i hi => exact absurd hindex hi

variable [BucketKey α] {t t' : UniqueTable α}

theorem search_def (t : UniqueTable α) (value : α) : t.search value =
    if t.head value = 0 then .empty else walk t.values t.nexts value (t.head value) := by
  have hhead : t.heads[bucket t.heads_pos value] = t.head value := by
    have hlt : t.home value < t.heads.size := Nat.mod_lt _ t.heads_pos
    rw [head, Array.getD_eq_getD_getElem?, Array.getElem?_eq_getElem hlt]
    rfl
  simp only [search, hhead]

theorem search_eq_found (h : t.search value = .found j) :
    0 < j ∧ ∃ y, t.values[j]? = some y ∧ value == y := by
  rw [search_def] at h
  split at h
  · cases h
  · rename_i hhead
    have hj := walk_eq_found h
    exact ⟨by omega, hj.2⟩

/-- A value that is found stands at the index where it is found. -/
theorem get_of_search_eq_found [LawfulBEq α] [Inhabited α] (h : t.search value = .found j) :
    0 < j ∧ j < t.values.size ∧ t.get j = value := by
  obtain ⟨hpos, y, hj, heq⟩ := search_eq_found h
  obtain rfl := eq_of_beq heq
  refine ⟨hpos, (Array.getElem?_eq_some_iff.mp hj).1, ?_⟩
  rw [get, Array.getD_eq_getD_getElem?, hj, Option.getD_some]

structure Adds (t t' : UniqueTable α) (value : α) : Prop where
  wellFormed : t'.WellFormed
  capacity_eq : t'.capacity = t.capacity
  values_eq : t'.values = t.values.push value
  search_new : t'.search value = .found t.values.size
  search_old {x : α} {k : Nat} : t.search x = .found k → t'.search x = .found k

theorem head_eq_zero_of_search_eq_empty (h : t.search value = .empty) : t.head value = 0 := by
  rw [search_def] at h
  split at h
  · assumption
  · exact absurd h walk_ne_empty

theorem startChain_adds [ReflBEq α] (ht : t.WellFormed) (hfree : t.values.size < t.capacity)
    (hempty : t.search value = .empty) : t.Adds (t.startChain value) value := by
  have hhead := head_eq_zero_of_search_eq_empty hempty
  have hvalues : (t.startChain value).values = t.values.push value := rfl
  have hnexts : ∀ i, (t.startChain value).nexts.getD i 0 = t.nexts.getD i 0 := t.next_startChain value
  have hnew (x : α) : (t.startChain value).head x =
      if t.home x = t.home value then t.values.size else t.head x := by
    rw [head, head, home_startChain, getD_heads_startChain]
  refine ⟨⟨?_, ?_, ?_, fun i => ?_, fun i => ?_⟩, rfl, rfl, ?_, fun {x k} h => ?_⟩
  · simp [hvalues]
  · rw [hvalues, Array.size_push]
    exact hfree
  · rw [hvalues, Array.size_push, ← ht.size_nexts]
    exact Array.size_push ..
  · rw [hvalues, hnexts, Array.size_push]
    exact Nat.lt_succ_of_lt (ht.next_lt i)
  · rw [hvalues, getD_heads_startChain, Array.size_push]
    split
    · exact Nat.lt_succ_self _
    · exact Nat.lt_succ_of_lt (ht.head_lt i)
  · have hpos := ht.values_pos
    rw [search_def, hnew, if_pos rfl, if_neg (by omega), hvalues, walk, dif_pos (by simp),
      if_pos (by simp)]
  · rw [search_def] at h ⊢
    split at h
    · cases h
    · rename_i hx
      have hne : t.home x ≠ t.home value := by
        intro heq
        rw [head, heq] at hx
        exact hx hhead
      rw [hnew, if_neg hne, if_neg hx]
      exact walk_push_of_found h fun i _ _ => hnexts i

theorem extendChain_adds [ReflBEq α] (ht : t.WellFormed) (hfree : t.values.size < t.capacity)
    (hlast : t.search value = .last j) : t.Adds (t.extendChain value j) value := by
  have hhead : t.head value ≠ 0 := by
    intro hzero
    rw [search_def, if_pos hzero] at hlast
    cases hlast
  rw [search_def, if_neg hhead] at hlast
  obtain ⟨-, hj, hend⟩ := walk_eq_last (ht.head_lt _) ht.next_lt hlast
  have hnexts : ∀ i, (t.extendChain value j).nexts.getD i 0 =
      if i = j then t.values.size else t.nexts.getD i 0 := next_extendChain ht hj value
  have hlinks (i : Nat) (_ : i < t.values.size) (hi : i < t.nexts.getD i 0) :
      (t.extendChain value j).nexts.getD i 0 = t.nexts.getD i 0 := by
    rw [hnexts, if_neg]
    rintro rfl
    omega
  have hvalues : (t.extendChain value j).values = t.values.push value := rfl
  have hheads (x : α) : (t.extendChain value j).head x = t.head x := rfl
  refine ⟨⟨?_, ?_, ?_, fun i => ?_, fun i => ?_⟩, rfl, rfl, ?_, fun {x k} h => ?_⟩
  · simp [hvalues]
  · rw [hvalues, Array.size_push]
    exact hfree
  · rw [hvalues, Array.size_push, ← ht.size_nexts, ← Array.size_push 0]
    exact Array.size_setIfInBounds
  · rw [hvalues, hnexts, Array.size_push]
    split
    · exact Nat.lt_succ_self _
    · exact Nat.lt_succ_of_lt (ht.next_lt i)
  · rw [hvalues, Array.size_push]
    exact Nat.lt_succ_of_lt (ht.head_lt i)
  · rw [search_def, hheads, if_neg hhead]
    exact walk_push_of_last (ht.head_lt _) ht.next_lt hlast hlinks (by rw [hnexts, if_pos rfl])
  · rw [search_def] at h ⊢
    rw [hheads]
    split at h
    · cases h
    · rename_i hx
      rw [if_neg hx]
      exact walk_push_of_found h hlinks

/-- A value is found, or the table is full, or the value takes the next free cell. -/
theorem intern_cases [ReflBEq α] (ht : t.WellFormed) (value : α) :
    (∃ j, t.search value = .found j ∧ t.intern value = (some j, t)) ∨
    (t.capacity = t.values.size ∧ t.intern value = (none, t)) ∨
    ∃ t', t.intern value = (some t.values.size, t') ∧ t.Adds t' value ∧
      ∀ j, t.search value ≠ .found j := by
  have hle := ht.values_le
  cases hs : t.search value with
  | found j =>
    refine .inl ⟨j, rfl, ?_⟩
    simp only [intern, hs]
  | empty =>
    by_cases hfree : t.values.size < t.capacity
    · refine .inr (.inr ⟨_, ?_, startChain_adds ht hfree hs, fun _ => Search.noConfusion⟩)
      simp only [intern, hs, if_pos hfree]
    · refine .inr (.inl ⟨by omega, ?_⟩)
      simp only [intern, hs, if_neg hfree]
  | last j =>
    by_cases hfree : t.values.size < t.capacity
    · refine .inr (.inr ⟨_, ?_, extendChain_adds ht hfree hs, fun _ => Search.noConfusion⟩)
      simp only [intern, hs, if_pos hfree]
    · refine .inr (.inl ⟨by omega, ?_⟩)
      simp only [intern, hs, if_neg hfree]

end AndInverter.UniqueTable
