/-!
# Ascending lists

Finite sets of numbers as strictly ascending lists, so that equal sets are equal lists.
-/

namespace AndInverter.Ascending

def insert (x : Nat) : List Nat → List Nat
  | [] => [x]
  | y :: ys => if x < y then x :: y :: ys else if x = y then y :: ys else y :: insert x ys

def union (xs ys : List Nat) : List Nat := xs.foldr insert ys

def ofList (xs : List Nat) : List Nat := union xs []

def isSubset : List Nat → List Nat → Bool
  | [], _ => true
  | _ :: _, [] => false
  | x :: xs, y :: ys =>
    if y < x then isSubset (x :: xs) ys
    else if y = x then isSubset xs ys
    else false

/-- The elements of two ascending lists, by one pass over both. The pass is given up when there is
one element more than `k`. -/
def unionWithin : Nat → List Nat → List Nat → Option (List Nat)
  | _, [], [] => some []
  | 0, _, _ => none
  | k + 1, x :: xs, y :: ys =>
    if x = y then (unionWithin k xs ys).map (x :: ·)
    else if x < y then (unionWithin k xs (y :: ys)).map (x :: ·)
    else (unionWithin k (x :: xs) ys).map (y :: ·)
  | k + 1, x :: xs, [] => (unionWithin k xs []).map (x :: ·)
  | k + 1, [], y :: ys => (unionWithin k [] ys).map (y :: ·)

/-- An element with the given key in a list whose keys ascend, by bisection. -/
def search {α : Type} (key : α → Nat) (x : Nat) (xs : List α) : Option α :=
  match _h : xs.drop (xs.length / 2) with
  | [] => none
  | y :: ys =>
    if key y < x then search key x ys
    else if x < key y then search key x (xs.take (xs.length / 2))
    else some y
termination_by xs.length
decreasing_by
  all_goals have := congrArg List.length _h
  all_goals simp only [List.length_drop, List.length_take, List.length_cons] at *
  all_goals omega

theorem mem_insert {x y : Nat} {ys : List Nat} : y ∈ insert x ys ↔ y = x ∨ y ∈ ys := by
  induction ys with
  | nil => simp [insert]
  | cons z zs ih =>
    simp only [insert]
    split
    · simp
    · split
      · rename_i h
        subst h
        simp
      · simp only [List.mem_cons, ih]
        constructor <;> rintro (h | h | h) <;> simp [h]

theorem pairwise_insert {x : Nat} {ys : List Nat} (h : ys.Pairwise (· < ·)) :
    (insert x ys).Pairwise (· < ·) := by
  induction ys with
  | nil => simp [insert]
  | cons z zs ih =>
    have hz := List.pairwise_cons.mp h
    simp only [insert]
    split
    · rename_i hxz
      refine List.pairwise_cons.mpr ⟨fun a ha => ?_, h⟩
      rcases List.mem_cons.mp ha with rfl | ha
      · exact hxz
      · exact Nat.lt_trans hxz (hz.1 a ha)
    · split
      · exact h
      · refine List.pairwise_cons.mpr ⟨fun a ha => ?_, ih hz.2⟩
        rcases mem_insert.mp ha with rfl | ha
        · omega
        · exact hz.1 a ha

theorem mem_union {x : Nat} {xs ys : List Nat} : x ∈ union xs ys ↔ x ∈ xs ∨ x ∈ ys := by
  induction xs with
  | nil => simp [union]
  | cons y zs ih =>
    have : union (y :: zs) ys = insert y (union zs ys) := rfl
    rw [this, mem_insert, ih, List.mem_cons, or_assoc]

theorem pairwise_union {xs ys : List Nat} (h : ys.Pairwise (· < ·)) :
    (union xs ys).Pairwise (· < ·) := by
  induction xs with
  | nil => exact h
  | cons _ _ ih => exact pairwise_insert ih

theorem mem_ofList {x : Nat} {xs : List Nat} : x ∈ ofList xs ↔ x ∈ xs := by
  simp [ofList, mem_union]

theorem pairwise_ofList (xs : List Nat) : (ofList xs).Pairwise (· < ·) :=
  pairwise_union .nil

theorem search_eq_some_iff {α : Type} {key : α → Nat} {x : Nat} {xs : List α} {z : α}
    (h : xs.Pairwise (key · < key ·)) : search key x xs = some z ↔ z ∈ xs ∧ key z = x := by
  -- The middle element stands between two halves, and only one of them can hold the key.
  have halves {xs ys : List α} {y : α} (h : xs.Pairwise (key · < key ·))
      (hdrop : xs.drop (xs.length / 2) = y :: ys) :
      (z ∈ xs ↔ z ∈ xs.take (xs.length / 2) ∨ z = y ∨ z ∈ ys) ∧
        (z ∈ xs.take (xs.length / 2) → key z < key y) ∧ (z ∈ ys → key y < key z) := by
    rw [← List.take_append_drop (xs.length / 2) xs, hdrop] at h
    obtain ⟨-, hy, hlt⟩ := List.pairwise_append.mp h
    refine ⟨?_, fun hz => hlt z hz y List.mem_cons_self, (List.pairwise_cons.mp hy).1 z⟩
    rw [← List.mem_cons, ← hdrop, ← List.mem_append, List.take_append_drop]
  fun_induction search key x xs with
  | case1 xs hdrop =>
    have hnil : xs = [] := by
      have := List.drop_eq_nil_iff.mp hdrop
      exact List.eq_nil_of_length_eq_zero (by omega)
    simp [hnil]
  | case2 xs y ys hdrop hlt ih =>
    obtain ⟨hmem, hleft, -⟩ := halves h hdrop
    have hasc : ys.Pairwise (key · < key ·) := (List.pairwise_cons.mp (hdrop ▸ h.drop)).2
    refine (ih hasc).trans ?_
    rw [hmem]
    refine and_congr_left fun hz => ⟨fun hys => .inr (.inr hys), ?_⟩
    rintro (htake | rfl | hys)
    · have := hleft htake
      omega
    · omega
    · exact hys
  | case3 xs y ys hdrop hlt hgt ih =>
    obtain ⟨hmem, -, hright⟩ := halves h hdrop
    refine (ih h.take).trans ?_
    rw [hmem]
    refine and_congr_left fun hz => ⟨.inl, ?_⟩
    rintro (htake | rfl | hys)
    · exact htake
    · omega
    · have := hright hys
      omega
  | case4 xs y ys hdrop hlt hgt =>
    obtain ⟨hmem, hleft, hright⟩ := halves h hdrop
    rw [Option.some.injEq, hmem]
    constructor
    · rintro rfl
      exact ⟨.inr (.inl rfl), by omega⟩
    · rintro ⟨htake | rfl | hys, hz⟩
      · have := hleft htake
        omega
      · rfl
      · have := hright hys
        omega

/-- Ascending lists with the same elements are equal. -/
theorem eq_of_mem_iff {xs ys : List Nat} (hx : xs.Pairwise (· < ·)) (hy : ys.Pairwise (· < ·))
    (h : ∀ z, z ∈ xs ↔ z ∈ ys) : xs = ys :=
  List.Perm.eq_of_pairwise (fun _ _ _ _ hlt hgt => absurd hlt (Nat.lt_asymm hgt)) hx hy
    ((List.perm_ext_iff_of_nodup (hx.imp Nat.ne_of_lt) (hy.imp Nat.ne_of_lt)).mpr h)

theorem isSubset_iff {xs ys : List Nat} (hx : xs.Pairwise (· < ·)) (hy : ys.Pairwise (· < ·)) :
    isSubset xs ys = true ↔ ∀ x ∈ xs, x ∈ ys := by
  induction ys generalizing xs with
  | nil =>
    cases xs with
    | nil => simp [isSubset]
    | cons x xs => exact iff_of_false (by simp [isSubset]) fun h => by simpa using h x
  | cons y ys ih =>
    cases xs with
    | nil => simp [isSubset]
    | cons x xs =>
      have hxs := List.pairwise_cons.mp hx
      have hys := List.pairwise_cons.mp hy
      rw [isSubset]
      split
      · rename_i hlt
        rw [ih hx hys.2]
        refine forall_congr' fun z => imp_congr_right fun hz => ?_
        have hxz : x ≤ z := by
          rcases List.mem_cons.mp hz with rfl | hz
          · exact Nat.le_refl _
          · exact Nat.le_of_lt (hxs.1 z hz)
        rw [List.mem_cons, or_iff_right (by omega)]
      · split
        · rename_i heq
          subst heq
          rw [ih hxs.2 hys.2, List.forall_mem_cons, and_iff_right List.mem_cons_self]
          refine forall_congr' fun z => imp_congr_right fun hz => ?_
          have := hxs.1 z hz
          rw [List.mem_cons, or_iff_right (by omega)]
        · rename_i hlt hne
          refine iff_of_false (by simp) fun hall => ?_
          rcases List.mem_cons.mp (hall x List.mem_cons_self) with rfl | hmem
          · exact hne rfl
          · have := hys.1 x hmem
            omega

/-- What lies below the first element of an ascending list lies below all of them. -/
theorem lt_of_lt_head {x y : Nat} {ys : List Nat} (h : (y :: ys).Pairwise (· < ·)) (hlt : x < y) :
    ∀ w ∈ y :: ys, x < w := by
  intro w hw
  rcases List.mem_cons.mp hw with rfl | hw
  · exact hlt
  · exact Nat.lt_trans hlt ((List.pairwise_cons.mp h).1 w hw)

/-- The union begins with an element that is smaller than all others. -/
theorem union_eq_cons {z : Nat} {xs ys xs' ys' : List Nat} (hy : ys.Pairwise (· < ·))
    (hy' : ys'.Pairwise (· < ·)) (hxlt : ∀ w ∈ xs', z < w) (hylt : ∀ w ∈ ys', z < w)
    (h : ∀ w, w ∈ xs ∨ w ∈ ys ↔ w = z ∨ w ∈ xs' ∨ w ∈ ys') :
    union xs ys = z :: union xs' ys' := by
  have hlt : ∀ w ∈ union xs' ys', z < w := by
    intro w hw
    rcases mem_union.mp hw with hw | hw
    · exact hxlt w hw
    · exact hylt w hw
  refine eq_of_mem_iff (pairwise_union hy) (List.pairwise_cons.mpr ⟨hlt, pairwise_union hy'⟩) ?_
  intro w
  rw [mem_union, List.mem_cons, mem_union, h]

theorem unionWithin_eq {k : Nat} {xs ys : List Nat} (hx : xs.Pairwise (· < ·))
    (hy : ys.Pairwise (· < ·)) : unionWithin k xs ys =
      if (union xs ys).length ≤ k then some (union xs ys) else none := by
  -- One step sets the smallest element aside, and the bound falls by one.
  have step {k z : Nat} {xs ys us : List Nat} (hus : us = z :: union xs ys)
      (ih : unionWithin k xs ys =
        if (union xs ys).length ≤ k then some (union xs ys) else none) :
      (unionWithin k xs ys).map (z :: ·) = if us.length ≤ k + 1 then some us else none := by
    rw [ih, hus, List.length_cons]
    simp only [Nat.add_le_add_iff_right]
    split
    · rfl
    · rfl
  fun_induction unionWithin k xs ys with
  | case1 => simp [union]
  | case2 xs ys hne =>
    rw [if_neg]
    intro hlen
    have hnil := List.eq_nil_of_length_eq_zero (Nat.le_zero.mp hlen)
    have hempty (z : Nat) : ¬ (z ∈ xs ∨ z ∈ ys) := by
      rw [← mem_union, hnil]
      exact List.not_mem_nil
    cases xs with
    | cons x xs => exact hempty x (.inl List.mem_cons_self)
    | nil =>
      cases ys with
      | cons y ys => exact hempty y (.inr List.mem_cons_self)
      | nil => exact hne rfl rfl
  | case3 k xs x ys ih =>
    have hxs := List.pairwise_cons.mp hx
    have hys := List.pairwise_cons.mp hy
    refine step (union_eq_cons hy hys.2 hxs.1 hys.1 fun w => ?_) (ih hxs.2 hys.2)
    rw [List.mem_cons, List.mem_cons, or_or_or_comm, or_self]
  | case4 k x xs y ys hne hlt ih =>
    have hxs := List.pairwise_cons.mp hx
    refine step (union_eq_cons hy hy hxs.1 (lt_of_lt_head hy hlt) fun w => ?_) (ih hxs.2 hy)
    rw [List.mem_cons (b := x), or_assoc]
  | case5 k x xs y ys hne hlt ih =>
    have hys := List.pairwise_cons.mp hy
    have hyx : y < x := by omega
    refine step (union_eq_cons hy hys.2 (lt_of_lt_head hx hyx) hys.1 fun w => ?_) (ih hx hys.2)
    rw [List.mem_cons (b := y), or_left_comm]
  | case6 k x xs ih =>
    have hxs := List.pairwise_cons.mp hx
    refine step (union_eq_cons hy hy hxs.1 (by simp) fun w => ?_) (ih hxs.2 hy)
    rw [List.mem_cons, or_assoc]
  | case7 k y ys ih =>
    have hys := List.pairwise_cons.mp hy
    refine step (union_eq_cons hy hys.2 (by simp) hys.1 fun w => ?_) (ih hx hys.2)
    rw [List.mem_cons, or_left_comm]

theorem unionWithin_eq_some_iff {k : Nat} {xs ys zs : List Nat} (hx : xs.Pairwise (· < ·))
    (hy : ys.Pairwise (· < ·)) :
    unionWithin k xs ys = some zs ↔ zs = union xs ys ∧ zs.length ≤ k := by
  rw [unionWithin_eq hx hy]
  split
  · rename_i hlen
    rw [Option.some.injEq]
    exact ⟨fun h => h ▸ ⟨rfl, hlen⟩, fun h => h.1.symm⟩
  · rename_i hlen
    refine iff_of_false (by simp) ?_
    rintro ⟨rfl, h⟩
    exact hlen h

end AndInverter.Ascending
