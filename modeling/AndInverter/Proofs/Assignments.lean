import Mathlib.Algebra.Order.Group.Nat
import Mathlib.Data.Finset.Powerset
import Mathlib.Logic.Function.DependsOn

/-!
# Functions of assignments

The variables that a Boolean function is sensitive to, the number of assignments of some variables
that make it true, and the lowest assignment that does. A renaming of the variables keeps the
number, and keeps the lowest assignment if it keeps the order of the variables.
-/

namespace AndInverter

def Sensitive (F : (Nat → Bool) → Bool) (v : Nat) : Prop :=
  ∃ x, F (Function.update x v false) ≠ F (Function.update x v true)

def trueOn (T : Finset Nat) (v : Nat) : Bool := decide (v ∈ T)

/-- The number of assignments of the variables of a set that make a function true, with all other
variables false. -/
def countOn (D : Finset Nat) (F : (Nat → Bool) → Bool) : Nat :=
  (D.powerset.filter fun T => F (trueOn T) = true).card

/-- The assignment makes the function true, and no other one that does is below it at the first
variable where the two differ. -/
structure Lowest (F : (Nat → Bool) → Bool) (x : Nat → Bool) : Prop where
  holds : F x = true
  le {y : Nat → Bool} (hy : F y = true) {v : Nat} (hbefore : ∀ w < v, y w = x w) :
    x v = true → y v = true

variable {F G : (Nat → Bool) → Bool} {D E : Finset Nat} {S : Set Nat} {φ : Nat → Nat}
  {x y : Nat → Bool} {v w : Nat}

section Sensitive

theorem mem_of_sensitive (h : Sensitive F v) (hF : DependsOn F S) : v ∈ S := by
  by_contra hv
  obtain ⟨x, hx⟩ := h
  apply hx
  apply hF
  intro w hw
  have hne : w ≠ v := fun heq => hv (heq ▸ hw)
  rw [Function.update_of_ne hne, Function.update_of_ne hne]

theorem update_eq_of_not_sensitive (h : ¬ Sensitive F v) (x : Nat → Bool) (b : Bool) :
    F (Function.update x v b) = F x := by
  have hflip (a b : Bool) : F (Function.update x v a) = F (Function.update x v b) := by
    by_contra hne
    apply h
    cases a with
    | false =>
      cases b with
      | false => exact absurd rfl hne
      | true => exact ⟨x, hne⟩
    | true =>
      cases b with
      | false => exact ⟨x, fun heq => hne heq.symm⟩
      | true => exact absurd rfl hne
  rw [hflip b (x v), Function.update_eq_self]

/-- Once the variable has been set, flipping it changes nothing. -/
theorem not_sensitive_update (F : (Nat → Bool) → Bool) (v : Nat) (b : Bool) :
    ¬ Sensitive (fun x => F (Function.update x v b)) v := by
  rintro ⟨x, hx⟩
  apply hx
  simp only [Function.update_idem]

/-- A variable that a function is not sensitive to can be left out of those that it depends on. -/
theorem dependsOn_of_insert (hF : DependsOn F (insert v S)) (h : ¬ Sensitive F v) :
    DependsOn F S := by
  intro x y hxy
  rw [← update_eq_of_not_sensitive h x (y v)]
  apply hF
  intro w hw
  by_cases hwv : w = v
  · rw [hwv, Function.update_self]
  · rw [Function.update_of_ne hwv]
    exact hxy w (hw.resolve_left hwv)

/-- A function that depends on finitely many variables depends on those it is sensitive to. -/
theorem dependsOn_of_sensitive (hF : DependsOn F (↑D ∪ S)) (hS : ∀ v ∈ D, Sensitive F v → v ∈ S) :
    DependsOn F S := by
  induction D using Finset.induction_on with
  | empty =>
    rw [Finset.coe_empty, Set.empty_union] at hF
    exact hF
  | insert v D _ ih =>
    apply ih
    · rw [Finset.coe_insert, Set.insert_union] at hF
      by_cases hv : Sensitive F v
      · have hmem := hS v (Finset.mem_insert_self v D) hv
        rwa [Set.insert_eq_of_mem (Set.mem_union_right _ hmem)] at hF
      · exact dependsOn_of_insert hF hv
    · intro w hw
      exact hS w (Finset.mem_insert_of_mem hw)

end Sensitive

section Counting

theorem update_trueOn_false (h : v ∉ D) : Function.update (trueOn D) v false = trueOn D := by
  rw [← decide_eq_false h]
  exact Function.update_eq_self v (trueOn D)

theorem trueOn_insert (v : Nat) (D : Finset Nat) :
    trueOn (insert v D) = Function.update (trueOn D) v true := by
  funext w
  by_cases hw : w = v
  · subst hw
    rw [Function.update_self, trueOn, decide_eq_true_eq]
    exact Finset.mem_insert_self w D
  · rw [Function.update_of_ne hw, trueOn, trueOn, decide_eq_decide, Finset.mem_insert]
    exact or_iff_right hw

theorem countOn_empty (F : (Nat → Bool) → Bool) :
    countOn ∅ F = if F (trueOn ∅) = true then 1 else 0 := by
  unfold countOn
  rw [Finset.powerset_empty, Finset.filter_singleton]
  split
  · exact Finset.card_singleton _
  · exact Finset.card_empty

/-- Each assignment of the other variables is counted once with the variable false and once with it
true. -/
theorem countOn_insert (hv : v ∉ D) (F : (Nat → Bool) → Bool) : countOn (insert v D) F =
    countOn D (fun x => F (Function.update x v false)) +
      countOn D (fun x => F (Function.update x v true)) := by
  have hsub {T : Finset Nat} (hT : T ∈ D.powerset) : v ∉ T := fun h =>
    hv (Finset.mem_powerset.mp hT h)
  have hdisjoint : Disjoint D.powerset (D.powerset.image (insert v)) := by
    rw [Finset.disjoint_left]
    intro T hT himage
    obtain ⟨U, -, rfl⟩ := Finset.mem_image.mp himage
    exact hsub hT (Finset.mem_insert_self v U)
  have hinj : Set.InjOn (insert v) (D.powerset : Set (Finset Nat)) := by
    intro T hT U hU heq
    rw [← Finset.erase_insert (hsub hT), heq, Finset.erase_insert (hsub hU)]
  unfold countOn
  rw [Finset.powerset_insert, Finset.filter_union,
    Finset.card_union_of_disjoint (Finset.disjoint_filter_filter hdisjoint), Finset.filter_image,
    Finset.card_image_of_injOn (hinj.mono (Finset.coe_subset.mpr (Finset.filter_subset _ _)))]
  congr 2
  · apply Finset.filter_congr
    intro T hT
    change _ ↔ F (Function.update (trueOn T) v false) = true
    rw [update_trueOn_false (hsub hT)]
  · apply Finset.filter_congr
    intro T _
    rw [trueOn_insert]

theorem countOn_add_countOn_not (D : Finset Nat) (F : (Nat → Bool) → Bool) :
    countOn D F + countOn D (fun x => !F x) = 2 ^ D.card := by
  unfold countOn
  simp only [Bool.not_eq_true', Bool.eq_false_iff]
  rw [Finset.card_filter_add_card_filter_not, Finset.card_powerset]

theorem countOn_true (D : Finset Nat) : countOn D (fun _ => true) = 2 ^ D.card := by
  unfold countOn
  rw [Finset.filter_true_of_mem fun _ _ => rfl, Finset.card_powerset]

theorem countOn_false (D : Finset Nat) : countOn D (fun _ => false) = 0 := by
  have hsum := countOn_add_countOn_not D fun _ => false
  rw [Bool.not_false, countOn_true] at hsum
  exact Nat.add_eq_right.mp hsum

/-- A function of the renamed variables is counted as often as the function itself. -/
theorem countOn_image (hφ : Set.InjOn φ (D : Set Nat))
    (h : ∀ x y, (∀ v ∈ D, y (φ v) = x v) → G y = F x) : countOn (D.image φ) G = countOn D F := by
  induction D using Finset.induction_on generalizing F G with
  | empty => rw [Finset.image_empty, countOn_empty, countOn_empty, h _ _ (by simp)]
  | insert v D hv ih =>
    rw [Finset.coe_insert] at hφ
    have hne {w : Nat} (hw : w ∈ D) : φ w ≠ φ v := by
      intro heq
      have hwv := hφ (Set.mem_insert_of_mem v hw) (Set.mem_insert v _) heq
      exact hv (hwv ▸ hw)
    have himage : φ v ∉ D.image φ := by
      intro hmem
      obtain ⟨w, hw, heq⟩ := Finset.mem_image.mp hmem
      exact hne hw heq
    have hpart (b : Bool) : countOn (D.image φ) (fun y => G (Function.update y (φ v) b)) =
        countOn D fun x => F (Function.update x v b) := by
      apply ih (hφ.mono (Set.subset_insert v _))
      intro x y hxy
      apply h
      intro w hw
      by_cases hwv : w = v
      · rw [hwv, Function.update_self, Function.update_self]
      · have hwD := (Finset.mem_insert.mp hw).resolve_left hwv
        rw [Function.update_of_ne hwv, Function.update_of_ne (hne hwD), hxy w hwD]
    rw [Finset.image_insert, countOn_insert himage, countOn_insert hv, hpart, hpart]

/-- A function that goes on with one of two others, as the variable says, is true half as often as
the two together. -/
theorem countOn_add_countOn {L H : (Nat → Bool) → Bool} (hv : v ∈ D)
    (hF : ∀ x, F x = if x v then H x else L x) (hL : ¬ Sensitive L v) (hH : ¬ Sensitive H v) :
    countOn D L + countOn D H = 2 * countOn D F := by
  have hupdate (b : Bool) : (fun x => F (Function.update x v b)) = if b then H else L := by
    funext x
    rw [hF, Function.update_self]
    cases b with
    | false => exact update_eq_of_not_sensitive hL x false
    | true => exact update_eq_of_not_sensitive hH x true
  have hsame {G : (Nat → Bool) → Bool} (hG : ¬ Sensitive G v) (b : Bool) :
      (fun x => G (Function.update x v b)) = G := funext fun x => update_eq_of_not_sensitive hG x b
  have hinsert := countOn_insert (Finset.notMem_erase v D)
  rw [Finset.insert_erase hv] at hinsert
  rw [hinsert F, hinsert L, hinsert H, hupdate, hupdate, hsame hL, hsame hL, hsame hH, hsame hH,
    if_pos rfl, if_neg Bool.false_ne_true]
  omega

/-- A variable that does not matter doubles the count. -/
theorem countOn_of_dependsOn (hDE : D ⊆ E) (hF : DependsOn F ↑D) :
    countOn E F = 2 ^ (E.card - D.card) * countOn D F := by
  obtain ⟨U, hU, rfl⟩ : ∃ U, Disjoint D U ∧ E = D ∪ U :=
    ⟨E \ D, Finset.disjoint_sdiff, (Finset.union_sdiff_of_subset hDE).symm⟩
  rw [Finset.card_union_of_disjoint hU, Nat.add_sub_cancel_left]
  clear hDE
  induction U using Finset.induction_on with
  | empty => rw [Finset.union_empty, Finset.card_empty, Nat.pow_zero, Nat.one_mul]
  | insert v U hv ih =>
    obtain ⟨hvD, hU⟩ := Finset.disjoint_insert_right.mp hU
    have hconst (b : Bool) : (fun x => F (Function.update x v b)) = F := by
      funext x
      apply hF
      intro w hw
      have hne : w ≠ v := fun heq => hvD (heq ▸ hw)
      rw [Function.update_of_ne hne]
    have hmem : v ∉ D ∪ U := by
      rw [Finset.mem_union]
      exact fun h => h.elim hvD hv
    rw [Finset.union_insert, countOn_insert hmem, hconst, hconst, ih hU,
      Finset.card_insert_of_notMem hv, Nat.pow_succ, ← Nat.two_mul,
      Nat.mul_comm _ 2, Nat.mul_assoc]

end Counting

namespace Lowest

theorem eq (hx : Lowest F x) (hy : Lowest F y) : x = y := by
  funext v
  induction v using Nat.strongRecOn with
  | ind v ih =>
    have hxy := hx.le hy.holds (v := v) fun w hw => (ih w hw).symm
    have hyx := hy.le hx.holds (v := v) fun w hw => ih w hw
    exact Bool.eq_iff_iff.mpr ⟨hxy, hyx⟩

/-- The lowest assignment of renamed variables is that of the variables, if the renaming keeps their
order. Variables that the function does not read are false in it. -/
theorem rename (hy : Lowest G y) (hφ : StrictMonoOn φ (D : Set Nat))
    (h : ∀ x y, (∀ v ∈ D, y (φ v) = x v) → G y = F x) :
    Lowest F fun v => decide (v ∈ D) && y (φ v) := by
  constructor
  · rw [← h _ y fun v hv => by rw [decide_eq_true hv, Bool.true_and]]
    exact hy.holds
  · intro z hz v hbefore hv
    obtain ⟨hvD, hyv⟩ := Bool.and_eq_true_iff.mp hv
    have hvD := of_decide_eq_true hvD
    -- The assignment of the renamed variables that reads as `z`, and as `y` where `D` has no say.
    let z' (w : Nat) : Bool := if hw : ∃ u ∈ D, φ u = w then z hw.choose else y w
    have hz' : ∀ u ∈ D, z' (φ u) = z u := by
      intro u hu
      have hw : ∃ u' ∈ D, φ u' = φ u := ⟨u, hu, rfl⟩
      have hchoose : hw.choose = u := hφ.injOn hw.choose_spec.1 hu hw.choose_spec.2
      simp only [z', dif_pos hw, hchoose]
    have hbefore' : ∀ w < φ v, z' w = y w := by
      intro w hw
      by_cases hmem : ∃ u ∈ D, φ u = w
      · obtain ⟨u, hu, rfl⟩ := hmem
        rw [hz' u hu, hbefore u ((hφ.lt_iff_lt hu hvD).mp hw), decide_eq_true hu, Bool.true_and]
      · simp only [z', dif_neg hmem]
    have hlow := hy.le ((h z z' hz').trans hz) hbefore' hyv
    rwa [hz' v hvD] at hlow

end Lowest

end AndInverter
