import AndInverter.Proofs.Diagram.Models
import AndInverter.Proofs.Unateness.Patterns
import AndInverter.Unateness.Cofactors

/-!
# Reading diagrams back

A frame numbers the inputs that a function depends on, in their order. The lowest model of a diagram
is then the lowest pattern of inputs, and its models are counted as assignments of inputs.
-/

namespace AndInverter.VariableFrame

open DiagramStore

variable {frame : VariableFrame} {F : (Nat → Bool) → Bool} {s : DiagramStore} {f r : Ref}
  {path : List SignedVariable} {x y z : Nat → Bool} {b : Bool} {i j n v input : Nat}

theorem varOf_eq_zero_iff : frame.varOf input = 0 ↔ input ∉ frame.inputs := by
  rw [varOf]
  split
  · rename_i j hj
    have hmem := Array.isSome_idxOf?.mp (by rw [hj]; rfl : (frame.inputs.idxOf? input).isSome)
    simpa using hmem
  · rename_i hnone
    simpa using Array.idxOf?_eq_none_iff.mp hnone

theorem getElem?_varOf (h : input ∈ frame.inputs) :
    frame.inputs[frame.varOf input - 1]? = some input := by
  rw [varOf]
  split
  · rename_i j hj
    rw [← @Array.toArray_toList _ frame.inputs, List.idxOf?_toArray,
      List.idxOf?_eq_some_iff] at hj
    obtain ⟨hlt, hget, -⟩ := hj
    rw [Nat.add_sub_cancel, ← Array.getElem?_toList, List.getElem?_eq_getElem hlt, hget]
  · rename_i hnone
    exact absurd h (Array.idxOf?_eq_none_iff.mp hnone)

def read (frame : VariableFrame) (F : (Nat → Bool) → Bool) (y : Nat → Bool) : Bool :=
  F fun i => y (frame.varOf i)

/-- There is a variable for every input that the function depends on, in the order of the inputs. -/
structure Covers (frame : VariableFrame) (F : (Nat → Bool) → Bool) : Prop where
  ascending : frame.inputs.toList.Pairwise (· < ·)
  lt_numInputs {i : Nat} : i ∈ frame.inputs → i < frame.numInputs
  dependsOn : DependsOn F {i | i ∈ frame.inputs}

def domain (frame : VariableFrame) : Finset Nat := frame.inputs.toList.toFinset

theorem mem_domain : i ∈ frame.domain ↔ i ∈ frame.inputs := by
  rw [domain, List.mem_toFinset, Array.mem_toList_iff]

theorem varOf_pos (h : i ∈ frame.inputs) : 0 < frame.varOf i :=
  Nat.pos_of_ne_zero fun hzero => varOf_eq_zero_iff.mp hzero h

namespace Covers

theorem strictMonoOn (h : frame.Covers F) : StrictMonoOn frame.varOf (frame.domain : Set Nat) := by
  intro i hi j hj hij
  have hi := mem_domain.mp hi
  have hj := mem_domain.mp hj
  by_contra hle
  have hipos := varOf_pos hi
  have hjpos := varOf_pos hj
  obtain ⟨hilt, higet⟩ := Array.getElem?_eq_some_iff.mp (getElem?_varOf hi)
  obtain ⟨hjlt, hjget⟩ := Array.getElem?_eq_some_iff.mp (getElem?_varOf hj)
  by_cases heq : frame.varOf j = frame.varOf i
  · simp only [heq] at hjget
    omega
  · have hlt := List.pairwise_iff_getElem.mp h.ascending (frame.varOf j - 1) (frame.varOf i - 1)
      hjlt hilt (by omega)
    simp only [Array.getElem_toList] at hlt
    omega

theorem varOf_inj (h : frame.Covers F) (hi : i ∈ frame.inputs) (hj : j ∈ frame.inputs)
    (heq : frame.varOf i = frame.varOf j) : i = j :=
  h.strictMonoOn.injOn (mem_domain.mpr hi) (mem_domain.mpr hj) heq

theorem read_eq (h : frame.Covers F) (hxy : ∀ i ∈ frame.inputs, y (frame.varOf i) = x i) :
    frame.read F y = F x :=
  h.dependsOn hxy

theorem read_update (h : frame.Covers F) (hi : i ∈ frame.inputs)
    (hxy : ∀ j ∈ frame.inputs, j ≠ i → y (frame.varOf j) = x j) (b : Bool) :
    frame.read F (Function.update y (frame.varOf i) b) = F (Function.update x i b) := by
  apply h.read_eq
  intro j hj
  by_cases hji : j = i
  · rw [hji, Function.update_self, Function.update_self]
  · have hne : frame.varOf j ≠ frame.varOf i := fun heq => hji (h.varOf_inj hj hi heq)
    rw [Function.update_of_ne hji, Function.update_of_ne hne, hxy j hj hji]

/-- The function of the variables follows a variable as the function follows its input. -/
theorem follows_read (h : frame.Covers F) (hi : i ∈ frame.inputs)
    (hxy : ∀ j ∈ frame.inputs, j ≠ i → y (frame.varOf j) = x j) (b : Bool) :
    follows (frame.read F) (frame.varOf i) b y = follows F i b x := by
  unfold follows
  rw [h.read_update hi hxy, h.read_update hi hxy]

theorem describes_read (h : frame.Covers F) (hi : i ∈ frame.inputs) {u : Unateness} :
    u.Describes (frame.read F) (frame.varOf i) ↔ u.Describes F i := by
  have hinput : ∀ j, j ∈ frame.inputs → frame.inputs[frame.varOf j - 1]?.getD 0 = j := by
    intro j hj
    rw [getElem?_varOf hj, Option.getD_some]
  exact @describes_relabel F i u (· ∈ frame.inputs) frame.varOf
    (fun v => frame.inputs[v - 1]?.getD 0) h.dependsOn hinput hi

theorem sensitive_read (h : frame.Covers F) (hi : i ∈ frame.inputs) :
    Sensitive (frame.read F) (frame.varOf i) ↔ Sensitive F i := by
  rw [sensitive_iff_not_independent, sensitive_iff_not_independent, h.describes_read hi]

/-- The function of the variables depends on the variables of inputs. -/
theorem dependsOn_read (h : frame.Covers F) :
    DependsOn (frame.read F) (frame.domain.image frame.varOf : Finset Nat) := by
  intro y z hyz
  apply h.dependsOn
  intro i hi
  apply hyz
  exact Finset.mem_coe.mpr (Finset.mem_image_of_mem _ (mem_domain.mpr hi))

theorem relevant_subset (h : frame.Covers F) : relevant n F ⊆ frame.domain := by
  intro i hi
  exact mem_domain.mpr (mem_of_sensitive (mem_relevant.mp hi).2 h.dependsOn)

theorem injOn_relevant (h : frame.Covers F) :
    Set.InjOn frame.varOf (relevant frame.numInputs F : Set Nat) :=
  h.strictMonoOn.injOn.mono (Finset.coe_subset.mpr h.relevant_subset)

/-- A diagram of the function tests the variables of the inputs that the function is sensitive
to. -/
theorem support_eq (h : frame.Covers F) (hs : s.Reduced) (hf : s.Denotes (frame.read F) f) :
    (s.support f).toFinset = (relevant frame.numInputs F).image frame.varOf := by
  have heval : (fun y => s.eval y f) = frame.read F := funext hf.eval_eq
  ext v
  rw [List.mem_toFinset, hs.mem_support_iff hf.holds, heval, Finset.mem_image]
  constructor
  · intro hv
    obtain ⟨i, hi, rfl⟩ := Finset.mem_image.mp (mem_of_sensitive hv h.dependsOn_read)
    have hi := mem_domain.mp hi
    exact ⟨i, mem_relevant.mpr ⟨h.lt_numInputs hi, (h.sensitive_read hi).mp hv⟩, rfl⟩
  · rintro ⟨i, hi, rfl⟩
    exact (h.sensitive_read (mem_domain.mp (h.relevant_subset hi))).mpr (mem_relevant.mp hi).2

theorem length_support (h : frame.Covers F) (hs : s.Reduced) (hf : s.Denotes (frame.read F) f) :
    (s.support f).length = (relevant frame.numInputs F).card := by
  rw [← Finset.card_image_of_injOn h.injOn_relevant, ← h.support_eq hs hf, card_support]

theorem card_relevant_le (h : frame.Covers F) : (relevant n F).card ≤ frame.numVars :=
  (Finset.card_le_card h.relevant_subset).trans (List.toFinset_card_le _)

/-- The cofactors of a diagram leave free what the function is not sensitive to. -/
theorem numFree_eq (h : frame.Covers F) (hs : s.Reduced) (hf : s.Denotes (frame.read F) f) :
    frame.numFree s f = .ok (frame.numVars - (relevant frame.numInputs F).card + 1) := by
  unfold numFree
  rw [h.length_support hs hf]
  exact if_pos h.card_relevant_le

theorem dependsOn_relevant (h : frame.Covers F) :
    DependsOn F {i | i ∈ relevant frame.numInputs F} := by
  apply dependsOn_of_sensitive (D := frame.domain)
  · apply h.dependsOn.mono
    intro i hi
    exact Set.mem_union_left _ (Finset.mem_coe.mpr (mem_domain.mpr hi))
  · intro i hi hsens
    exact mem_relevant.mpr ⟨h.lt_numInputs (mem_domain.mp hi), hsens⟩

/-- The variables of the relevant inputs but one. -/
theorem image_erase (h : frame.Covers F) (hi : i ∈ relevant frame.numInputs F) :
    ((relevant frame.numInputs F).erase i).image frame.varOf =
      ((relevant frame.numInputs F).image frame.varOf).erase (frame.varOf i) := by
  ext v
  rw [Finset.mem_erase, Finset.mem_image, Finset.mem_image]
  constructor
  · rintro ⟨j, hj, rfl⟩
    obtain ⟨hne, hj⟩ := Finset.mem_erase.mp hj
    exact ⟨fun heq => hne (h.injOn_relevant hj hi heq), j, hj, rfl⟩
  · rintro ⟨hne, j, hj, rfl⟩
    exact ⟨j, Finset.mem_erase.mpr ⟨fun heq => hne (heq ▸ rfl), hj⟩, rfl⟩

theorem support_subset (h : frame.Covers F) (hs : s.Reduced) (hf : s.Denotes (frame.read F) f)
    (hi : i ∈ relevant frame.numInputs F)
    (hr : s.Denotes (follows (frame.read F) (frame.varOf i) b) r) :
    (s.support r).toFinset ⊆ ((relevant frame.numInputs F).erase i).image frame.varOf := by
  have hreads : DependsOn (frame.read F) {v | v ∈ s.support f} := by
    have hdepends := hs.dependsOn_support hf.holds
    rwa [funext hf.eval_eq] at hdepends
  intro v hv
  rw [List.mem_toFinset, hs.mem_support_iff hr.holds, funext hr.eval_eq] at hv
  obtain ⟨hmem, hne⟩ := mem_of_sensitive hv (dependsOn_follows hreads)
  rw [h.image_erase hi, ← h.support_eq hs hf]
  exact Finset.mem_erase.mpr ⟨hne, List.mem_toFinset.mpr hmem⟩

theorem countOn_follows (h : frame.Covers F) (hi : i ∈ relevant frame.numInputs F) (b : Bool) :
    countOn (((relevant frame.numInputs F).erase i).image frame.varOf)
        (follows (frame.read F) (frame.varOf i) b) =
      countOn ((relevant frame.numInputs F).erase i) (follows F i b) := by
  apply countOn_image (h.injOn_relevant.mono (Finset.coe_subset.mpr (Finset.erase_subset _ _)))
  intro x y hxy
  -- Inputs that are not relevant need not agree with their variables.
  have hpart (a : Bool) : frame.read F (Function.update y (frame.varOf i) a) =
      F (Function.update x i a) := by
    apply h.dependsOn_relevant
    intro j hj
    by_cases hji : j = i
    · rw [hji, Function.update_self, Function.update_self]
    · have hne : frame.varOf j ≠ frame.varOf i := fun heq => hji (h.injOn_relevant hj hi heq)
      rw [Function.update_of_ne hji, Function.update_of_ne hne]
      exact hxy j (Finset.mem_erase.mpr ⟨hji, hj⟩)
  unfold follows
  rw [hpart, hpart]

/-- Models of a function that does not read the variable of the input are counted over the other
relevant inputs, and once more for each value of what is left free. -/
theorem modelCount_eq (h : frame.Covers F) (hs : s.Reduced) (hf : s.Denotes (frame.read F) f)
    (hi : i ∈ relevant frame.numInputs F)
    (hr : s.Denotes (follows (frame.read F) (frame.varOf i) b) r) :
    s.modelCount r frame.numVars =
      countOn ((relevant frame.numInputs F).erase i) (follows F i b) <<<
        (frame.numVars - (relevant frame.numInputs F).card + 1) := by
  have hsub := h.support_subset hs hf hi hr
  have hle := Finset.card_le_card hsub
  have hcard := Finset.card_image_of_injOn
    (h.injOn_relevant.mono (Finset.coe_subset.mpr (Finset.erase_subset i _)))
  have herase := Finset.card_erase_add_one hi
  have hvars := h.card_relevant_le (n := frame.numInputs)
  have hsupport := card_support s r
  have hdepends : DependsOn (fun y => s.eval y r) ((s.support r).toFinset : Set Nat) := by
    rw [List.coe_toFinset]
    exact hs.dependsOn_support hr.holds
  have hcount := countOn_of_dependsOn hsub hdepends
  rw [funext hr.eval_eq, h.countOn_follows hi] at hcount
  have hsplit : frame.numVars - (s.support r).length =
      frame.numVars - (relevant frame.numInputs F).card + 1 +
        ((((relevant frame.numInputs F).erase i).image frame.varOf).card -
          (s.support r).toFinset.card) := by
    omega
  rw [hs.modelCount_eq hr.holds (by omega), funext hr.eval_eq, Nat.shiftLeft_eq, hcount, hsplit,
    Nat.pow_add, Nat.mul_assoc, Nat.mul_comm]

/-- Once what is left free is taken out, the models are counted over the other relevant inputs. -/
theorem shiftRight_modelCount (h : frame.Covers F) (hs : s.Reduced)
    (hf : s.Denotes (frame.read F) f) (hi : i ∈ relevant frame.numInputs F)
    (hr : s.Denotes (follows (frame.read F) (frame.varOf i) b) r) :
    s.modelCount r frame.numVars >>> (frame.numVars - (relevant frame.numInputs F).card + 1) =
      countOn ((relevant frame.numInputs F).erase i) (follows F i b) := by
  rw [h.modelCount_eq hs hf hi hr, Nat.shiftLeft_shiftRight]

end Covers

section Pattern

namespace Covers

theorem enter_patternOf (h : frame.Covers F) (hi : i ∈ frame.inputs) {l : SignedVariable}
    (hvar : frame.varOf i = l.var.id) :
    frame.enter (patternOf frame.numInputs z) l =
      .ok (patternOf frame.numInputs (Function.update z i !l.negated)) := by
  rw [enter, ← hvar, getElem?_varOf hi]
  exact assign_some_patternOf (h.lt_numInputs hi) _

/-- An entry at a low input adds the first variable of a path to what the rest of it gives. -/
theorem update_or_pathModel (h : frame.Covers F) (hi : i ∈ frame.inputs) {l : SignedVariable}
    (hvar : frame.varOf i = l.var.id) (hzi : z i = false) (j : Nat) :
    (Function.update z i (!l.negated) j ||
        (decide (j ∈ frame.domain) && pathModel path (frame.varOf j))) =
      (z j || (decide (j ∈ frame.domain) && pathModel (l :: path) (frame.varOf j))) := by
  have hmodel : pathModel (l :: path) (frame.varOf j) =
      (decide (l.var.id = frame.varOf j) && !l.negated || pathModel path (frame.varOf j)) :=
    List.any_cons
  rw [hmodel]
  by_cases hji : j = i
  · rw [hji, Function.update_self, hzi, decide_eq_true (mem_domain.mpr hi), Bool.true_and,
      Bool.true_and, Bool.false_or, decide_eq_true hvar.symm, Bool.true_and]
  · rw [Function.update_of_ne hji]
    by_cases hj : j ∈ frame.inputs
    · have hne : l.var.id ≠ frame.varOf j := fun heq =>
        hji (h.varOf_inj hj hi (heq.symm.trans hvar.symm))
      rw [decide_eq_false hne, Bool.false_and, Bool.false_or]
    · rw [decide_eq_false (mt mem_domain.mp hj), Bool.false_and, Bool.false_and]

/-- A path through variables of inputs is entered variable by variable. -/
theorem foldlM_enter (h : frame.Covers F)
    (hascending : path.Pairwise fun k l => k.var.id < l.var.id)
    (hpath : ∀ l ∈ path, ∃ i ∈ frame.inputs, frame.varOf i = l.var.id)
    (hz : ∀ l ∈ path, ∀ i, frame.varOf i = l.var.id → z i = false) :
    path.foldlM frame.enter (patternOf frame.numInputs z) =
      .ok (patternOf frame.numInputs fun i =>
        z i || (decide (i ∈ frame.domain) && pathModel path (frame.varOf i))) := by
  induction path generalizing z with
  | nil =>
    have hsame (i : Nat) :
        (z i || (decide (i ∈ frame.domain) && pathModel [] (frame.varOf i))) = z i := by
      rw [pathModel, List.any_nil, Bool.and_false, Bool.or_false]
    simp only [hsame]
    rfl
  | cons l path ih =>
    obtain ⟨hfirst, hascending⟩ := List.pairwise_cons.mp hascending
    obtain ⟨⟨i, hi, hvar⟩, hpath⟩ := List.forall_mem_cons.mp hpath
    have hzi : z i = false := hz l List.mem_cons_self i hvar
    rw [List.foldlM_cons, h.enter_patternOf hi hvar, Except.ok_bind, ih hascending hpath,
      funext (h.update_or_pathModel hi hvar hzi)]
    intro k hk j hj
    have hlt := hfirst k hk
    have hji : j ≠ i := by
      rintro rfl
      omega
    rw [Function.update_of_ne hji]
    exact hz k (List.mem_cons_of_mem _ hk) j hj

/-- The lowest pattern of a function other than false that follows the input. -/
theorem lowestPattern_eq (h : frame.Covers F) (hs : s.Reduced) (hi : i ∈ frame.inputs)
    (hr : s.Denotes (follows (frame.read F) (frame.varOf i) b) r) (hne : r ≠ .zero) :
    ∃ x, Lowest (follows F i b) x ∧
      frame.lowestPattern s i r = .ok (.leaving frame.numInputs i x) := by
  obtain ⟨path, hpath, hlowest⟩ := hs.exists_findLowestPath hr.holds hne
  have heval : (fun y => s.eval y r) = follows (frame.read F) (frame.varOf i) b :=
    funext hr.eval_eq
  have hvars : ∀ l ∈ path, ∃ j ∈ frame.inputs, frame.varOf j = l.var.id := by
    intro l hl
    have hsens := hlowest.sensitive l hl
    rw [heval] at hsens
    obtain ⟨hmem, -⟩ := mem_of_sensitive hsens (dependsOn_follows h.dependsOn_read)
    obtain ⟨j, hj, hjl⟩ := Finset.mem_image.mp (Finset.mem_coe.mp hmem)
    exact ⟨j, mem_domain.mp hj, hjl⟩
  refine ⟨fun j => decide (j ∈ frame.domain) && pathModel path (frame.varOf j), ?_, ?_⟩
  · apply Lowest.rename (G := follows (frame.read F) (frame.varOf i) b) (y := pathModel path)
      (heval ▸ hlowest.lowest) h.strictMonoOn
    intro x y hxy
    exact h.follows_read hi (fun j hj _ => hxy j (mem_domain.mpr hj)) b
  · rw [lowestPattern, hpath, Except.ok_bind, Option.getD_some, pattern, ← patternOf_false,
      h.foldlM_enter hlowest.ascending hvars fun _ _ _ _ => rfl, Except.ok_bind]
    simp only [Bool.false_or]
    exact assign_none_patternOf (h.lt_numInputs hi)

end Covers

end Pattern

end AndInverter.VariableFrame
