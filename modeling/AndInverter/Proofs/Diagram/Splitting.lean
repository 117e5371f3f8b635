import AndInverter.Proofs.Diagram.NormalForm
import AndInverter.Proofs.Diagram.Reduced

/-!
# Splits of choices

A choice is split at the first variable that its operands test, and denotes there what its part for
the value of that variable denotes. Split after split, an assignment leads to a choice that is
known. It is known for what it denotes, unless it is a choice between false and its own test: this
one is known for the test, and errs where the test holds. The splits of a connective are
connectives, so they never lead there.
-/

namespace AndInverter

namespace Choice

variable {P Q : Ref → Prop} {s : DiagramStore} {c : Choice} {φ : Ref → Ref} {w : Nat}

theorem All.map (h : c.All P) (hφ : ∀ r, P r → Q (φ r)) : (c.map φ).All Q :=
  ⟨hφ _ h.1, hφ _ h.2.1, hφ _ h.2.2⟩

theorem IsConnective.map (h : c.IsConnective) (hone : φ .one = .one) (hzero : φ .zero = .zero)
    (hneg : φ (-c.high) = -(φ c.high)) : (c.map φ).IsConnective := by
  rcases h with h | h | h | h
  · exact .inl (by rw [Choice.map, h, hzero])
  · exact .inr (.inl (by rw [Choice.map, h, hone]))
  · exact .inr (.inr (.inl (by rw [Choice.map, h, hone])))
  · exact .inr (.inr (.inr (by rw [Choice.map, h, hneg])))

end Choice

namespace DiagramStore

variable {s s' : DiagramStore} {x : Nat → Bool} {c d : Choice} {r : Ref} {b n : Bool} {v w : Nat}

namespace Reduced

theorem stable_holds (hs : s.Reduced) : Ref.Stable s.Holds :=
  ⟨holds_one hs, holds_zero hs, holds_neg.mpr⟩

theorem valuation (hs : s.Reduced) (x : Nat → Bool) : Ref.Valuation s.Holds (s.eval x) :=
  ⟨eval_one s x, eval_zero s x, hs.eval_neg⟩

end Reduced

theorem stable_below (s : DiagramStore) (v : Nat) : Ref.Stable (s.Below v) :=
  ⟨below_one s v, below_zero s v, below_neg.mpr⟩

theorem Includes.all_holds (h : s.Includes s') (hc : c.All s.Holds) : c.All s'.Holds :=
  ⟨h.holds hc.1, h.holds hc.2.1, h.holds hc.2.2⟩

theorem Includes.all_below (h : s.Includes s') (hc : c.All s.Holds) :
    c.All (s'.Below w) ↔ c.All (s.Below w) :=
  and_congr (h.below hc.1) (and_congr (h.below hc.2.1) (h.below hc.2.2))

theorem splitVar_le (s : DiagramStore) (c : Choice) :
    c.All fun r => s.topVar r = 0 ∨ s.splitVar c ≤ s.topVar r := by
  simp only [Choice.All, splitVar, firstVar]
  split <;> split <;> omega

theorem Reduced.check_eq_ok (hs : s.Reduced) (hr : s.Holds r) : s.nodes.check r.index = .ok () := by
  have hpos := hr.1
  have hle := hr.2
  have hcells := hs.table.values_le
  rw [UniqueTable.check, if_neg (by omega), if_neg]
  change s.nodes.values.size - 1 ≥ r.index at hle
  omega

theorem Reduced.cofactorsAt_eq_ok (hs : s.Reduced) (hr : s.Holds r) (hv : v ≠ 0)
    (hle : s.topVar r = 0 ∨ v ≤ s.topVar r) : ∃ p, s.cofactorsAt r v = .ok p := by
  rw [cofactorsAt, if_neg hv, hs.check_eq_ok hr]
  change ∃ p, (if s.topVar r = 0 ∨ v < s.topVar r then _ else _) = Except.ok p
  split
  · exact ⟨_, rfl⟩
  · have heq : v = s.topVar r := by omega
    rw [if_pos heq]
    exact ⟨_, rfl⟩

/-- The operands of a choice that the store holds have cofactors where the choice is split. -/
theorem Reduced.checkSplit_eq_ok (hs : s.Reduced) (hc : c.All s.Holds) (hv : s.splitVar c ≠ 0) :
    s.checkSplit c = .ok () := by
  obtain ⟨htest, hhigh, hlow⟩ := s.splitVar_le c
  obtain ⟨_, htest⟩ := hs.cofactorsAt_eq_ok hc.1 hv htest
  obtain ⟨_, hhigh⟩ := hs.cofactorsAt_eq_ok hc.2.1 hv hhigh
  obtain ⟨_, hlow⟩ := hs.cofactorsAt_eq_ok hc.2.2 hv hlow
  rw [checkSplit, htest, hhigh, hlow]
  rfl

/-- A variable before all that the operands test is before the one to split at. -/
theorem lt_splitVar (hv : s.splitVar c ≠ 0) (hb : c.All (s.Below w)) : w < s.splitVar c := by
  obtain ⟨htest, hhigh, hlow⟩ := hb
  rcases splitVar_eq s c with h | h | h
  · exact h ▸ htest.resolve_left (h ▸ hv)
  · exact h ▸ hhigh.resolve_left (h ▸ hv)
  · exact h ▸ hlow.resolve_left (h ▸ hv)

theorem Includes.cofactorChoice_eq (h : s.Includes s') (hc : c.All s.Holds) :
    s'.splitVar c = s.splitVar c ∧ s'.cofactorChoice c b = s.cofactorChoice c b := by
  obtain ⟨htest, hhigh, hlow⟩ := hc
  have hv : s'.splitVar c = s.splitVar c := by
    rw [splitVar, splitVar, h.topVar_eq htest, h.topVar_eq hhigh, h.topVar_eq hlow]
  refine ⟨hv, ?_⟩
  rw [cofactorChoice, cofactorChoice, hv, Choice.map, Choice.map, h.cofactor_eq htest,
    h.cofactor_eq hhigh, h.cofactor_eq hlow]

theorem Includes.split_eq (h : s.Includes s') (hc : c.All s.Holds) : s'.split c = s.split c := by
  obtain ⟨hv, hfalse⟩ := h.cofactorChoice_eq (b := false) hc
  obtain ⟨-, htrue⟩ := h.cofactorChoice_eq (b := true) hc
  rw [split, split, hv, hfalse, htrue]

theorem Includes.form_eq (h : s.Includes s') (hs : s.Reduced) (hc : c.All s.Holds) :
    c.form s'.topVar = c.form s.topVar := by
  obtain ⟨htest, hhigh, hlow⟩ := hc.simplify hs.stable_holds
  exact Choice.form_congr ⟨h.topVar_eq htest, h.topVar_eq hhigh, h.topVar_eq hlow⟩

theorem Reduced.holds_cofactorChoice (hs : s.Reduced) (hc : c.All s.Holds)
    (hv : s.splitVar c ≠ 0) : (s.cofactorChoice c b).All s.Holds :=
  hc.map fun _ hr => hs.holds_cofactor hr hv

theorem Reduced.below_cofactorChoice (hs : s.Reduced) (hc : c.All s.Holds)
    (hv : s.splitVar c ≠ 0) : (s.cofactorChoice c b).All (s.Below (s.splitVar c)) := by
  obtain ⟨htest, hhigh, hlow⟩ := s.splitVar_le c
  exact ⟨hs.below_cofactor hc.1 hv htest, hs.below_cofactor hc.2.1 hv hhigh,
    hs.below_cofactor hc.2.2 hv hlow⟩

theorem isConnective_cofactorChoice (hc : c.All s.Holds) (hv : s.splitVar c ≠ 0)
    (hconn : c.IsConnective) : (s.cofactorChoice c b).IsConnective :=
  hconn.map (cofactor_of_topVar_eq_zero hv rfl) (cofactor_of_topVar_eq_zero hv rfl)
    (cofactor_neg hc.2.1.1)

theorem denote_cofactorChoice (hv : s.splitVar c ≠ 0) :
    (s.cofactorChoice c (x (s.splitVar c))).denote (s.eval x) = c.denote (s.eval x) := by
  simp only [cofactorChoice, Choice.map, Choice.denote, eval_cofactor_self hv]

theorem Reduced.denote_cofactorChoice (hs : s.Reduced) (hc : c.All s.Holds)
    (hv : s.splitVar c ≠ 0) (x : Nat → Bool) :
    (s.cofactorChoice c b).denote (s.eval x) =
      c.denote (s.eval (Function.update x (s.splitVar c) b)) := by
  obtain ⟨htest, hhigh, hlow⟩ := s.splitVar_le c
  simp only [cofactorChoice, Choice.map, Choice.denote, hs.eval_cofactor hc.1 hv htest,
    hs.eval_cofactor hc.2.1 hv hhigh, hs.eval_cofactor hc.2.2 hv hlow]

/-- A choice comes to a constant if both of its cofactors do. -/
theorem Reduced.forall_denote_eq_iff (hs : s.Reduced) (hc : c.All s.Holds)
    (hv : s.splitVar c ≠ 0) : (∀ x, c.denote (s.eval x) = b) ↔
      ∀ v x, (s.cofactorChoice c v).denote (s.eval x) = b := by
  simp only [hs.denote_cofactorChoice hc hv]
  refine ⟨fun h v x => h _, fun h x => ?_⟩
  rw [← h (x (s.splitVar c)) x, Function.update_eq_self]

theorem Includes.denote_eq (hext : s.Includes s') (hs : s.Reduced) (hc : c.All s.Holds)
    (x : Nat → Bool) : c.denote (s'.eval x) = c.denote (s.eval x) := by
  rw [Choice.denote, Choice.denote, hext.eval_eq hs hc.1, hext.eval_eq hs hc.2.1,
    hext.eval_eq hs hc.2.2]

/-- A choice that has to be split has a variable to split at, and it is its own normal form. -/
theorem Reduced.of_form_split (hs : s.Reduced) (hc : c.All s.Holds)
    (h : c.form s.topVar = .split n d) :
    d.All s.Holds ∧ s.topVar d.test ≠ 0 ∧ d.form s.topVar = .split false d := by
  have hd := hc.form_split hs.stable_holds h
  refine ⟨hd, fun htop => ?_, ?_⟩
  · exact (hs.eq_one_or_eq_zero hd.1 htop).elim (Choice.test_ne_of_form h).1
      (Choice.test_ne_of_form h).2
  · exact (Choice.normal_of_form s.topVar_neg (Ref.neg_ne_self hc.1.1) h).form_eq

/-- Following the values of an assignment, split after split, a choice leads to one between false
and its own test, and the test holds there. -/
inductive Errs (s : DiagramStore) (x : Nat → Bool) : Choice → Prop where
  | self {c : Choice} : c.IsSelf → s.eval x c.test = true → Errs s x c
  | split {c d : Choice} {n : Bool} : c.form s.topVar = .split n d →
    Errs s x (s.cofactorChoice d (x (s.splitVar d))) → Errs s x c

theorem errs_iff_of_form_known (h : c.form s.topVar = .known r) :
    s.Errs x c ↔ c.IsSelf ∧ s.eval x c.test = true := by
  constructor
  · intro herrs
    cases herrs with
    | self hself htest => exact ⟨hself, htest⟩
    | split hform => rw [h] at hform; cases hform
  · rintro ⟨hself, htest⟩
    exact .self hself htest

theorem errs_iff_of_form_split (h : c.form s.topVar = .split n d) :
    s.Errs x c ↔ s.Errs x (s.cofactorChoice d (x (s.splitVar d))) := by
  constructor
  · intro herrs
    cases herrs with
    | self hself =>
      have hnone := (Choice.form_eq_split h).1
      rw [hself.known?_eq] at hnone
      cases hnone
    | split hform herrs =>
      rw [h] at hform
      cases hform
      exact herrs
  · exact .split h

/-- A known choice is known for what it denotes, unless it errs. -/
theorem Reduced.eval_eq_iff_of_form_known (hs : s.Reduced) (hc : c.All s.Holds)
    (h : c.form s.topVar = .known r) :
    s.eval x r = c.denote (s.eval x) ↔ ¬ s.Errs x c := by
  rw [errs_iff_of_form_known h]
  by_cases hself : c.IsSelf
  · obtain rfl : c.test = r := by
      rcases Choice.form_eq_known h with hr | ⟨hnone, -⟩
      · rw [hself.known?_eq] at hr
        exact Option.some.inj hr
      · rw [hself.known?_eq] at hnone
        cases hnone
    rw [hself.denote_eq (eval_zero s x), and_iff_right hself, Bool.not_eq_true]
  · exact iff_of_true (Choice.denote_form_known hs.stable_holds (hs.valuation x) hc hself h)
      fun herrs => hself herrs.1

theorem Reduced.not_errs (hs : s.Reduced) (hc : c.All s.Holds) (hconn : c.IsConnective) :
    ¬ s.Errs x c := by
  intro herrs
  induction herrs with
  | self hself => exact hconn.not_isSelf hself
  | split hform _ ih =>
    obtain ⟨hd, htop, -⟩ := hs.of_form_split hc hform
    have hv := splitVar_ne_zero htop
    exact ih (hs.holds_cofactorChoice hd hv)
      (isConnective_cofactorChoice hd hv (hconn.form_split hform))

/-- Whether a choice errs depends on the variables that its operands test. -/
theorem Reduced.errs_congr (hs : s.Reduced) (hc : c.All s.Holds) (hb : c.All (s.Below w))
    (hxy : ∀ u, w < u → x u = y u) (herrs : s.Errs x c) : s.Errs y c := by
  induction herrs generalizing w with
  | self hself htest =>
    apply Errs.self hself
    rwa [← hs.eval_congr hc.1 hb.1 hxy]
  | split hform _ ih =>
    obtain ⟨hd, htop, -⟩ := hs.of_form_split hc hform
    have hv := splitVar_ne_zero htop
    have hlt := lt_splitVar hv (hb.form_split (s.stable_below _) hform)
    apply Errs.split hform
    rw [← hxy _ hlt]
    apply ih (hs.holds_cofactorChoice hd hv) (hs.below_cofactorChoice hd hv)
    intro u hu
    exact hxy u (by omega)

/-- With all variables true, high children lead to true, and only the sign of a reference counts. -/
theorem Reduced.eval_true (hs : s.Reduced) (hr : s.Holds r) :
    s.eval (fun _ => true) r = !decide r.IsNegated := by
  induction hn : r.index using Nat.strongRecOn generalizing r with
  | ind n ih =>
    by_cases htop : s.topVar r = 0
    · exact eval_of_topVar_eq_zero htop
    · have hlt := one_lt_index htop
      have hnode := hs.proper hlt hr.2
      have hsign : (s.child r true).IsNegated ↔ r.IsNegated := by
        rw [hs.child_eq hr hlt, if_pos rfl,
          Ref.isNegated_negIf hnode.high_regular hnode.high_pos, decide_eq_true_eq]
      rw [eval_of_topVar_ne_zero htop, ih _ (hn ▸ index_child_lt hlt) (hs.holds_child hr hlt) rfl,
        decide_eq_decide.mpr hsign]

theorem Reduced.denote_true (hs : s.Reduced) (hc : c.All s.Holds) (hregular : c.Regular) :
    c.denote (s.eval fun _ => true) = true := by
  rw [Choice.denote, hs.eval_true hc.1, hs.eval_true hc.2.1,
    decide_eq_false hregular.test_regular, decide_eq_false hregular.high_regular]
  rfl

/-- A choice that is always true errs nowhere: none of its splits carries a sign. -/
theorem Reduced.not_errs_of_forall (hs : s.Reduced) (hc : c.All s.Holds)
    (h : ∀ y, c.denote (s.eval y) = true) : ¬ s.Errs x c := by
  intro herrs
  induction herrs with
  | self hself _ =>
    have hfalse := hself.denote_eq (eval_zero s x)
    rw [h x] at hfalse
    cases hfalse
  | @split c d n hform _ ih =>
    obtain ⟨hd, htop, -⟩ := hs.of_form_split hc hform
    have hv := splitVar_ne_zero htop
    have hdenote (y : Nat → Bool) : (d.denote (s.eval y) ^^ n) = true := by
      rw [Choice.denote_form_split hs.stable_holds (hs.valuation y) hc hform, h y]
    have hsign : n = false := by
      have htrue := hdenote fun _ => true
      rw [hs.denote_true hd (Choice.regular_of_form hform), Bool.true_xor] at htrue
      exact (Bool.not_eq_true' n).mp htrue
    subst hsign
    simp only [Bool.xor_false] at hdenote
    exact ih (hs.holds_cofactorChoice hd hv) ((hs.forall_denote_eq_iff hd hv).mp hdenote _)

/-- Where a choice errs, it denotes nothing that it does not denote elsewhere without an error. -/
theorem Reduced.exists_not_errs (hs : s.Reduced) (hc : c.All s.Holds) (herrs : s.Errs x c) :
    ∃ y, c.denote (s.eval y) = c.denote (s.eval x) ∧ ¬ s.Errs y c := by
  induction herrs with
  | @self c hself htest =>
    obtain ⟨y, hy⟩ : ∃ y, s.eval y c.test ≠ true := by
      by_contra hall
      apply hself.2.2.1
      apply hs.eq_of_eval_eq hc.1 (holds_one hs)
      intro y
      rw [eval_one]
      by_contra hy
      exact hall ⟨y, hy⟩
    refine ⟨y, ?_, ?_⟩
    · rw [hself.denote_eq (eval_zero s y), hself.denote_eq (eval_zero s x)]
    · intro herrs
      cases herrs with
      | self _ htest => exact hy htest
      | split hform =>
        have hnone := (Choice.form_eq_split hform).1
        rw [hself.known?_eq] at hnone
        cases hnone
  | @split c d n hform _ ih =>
    obtain ⟨hd, htop, -⟩ := hs.of_form_split hc hform
    have hv := splitVar_ne_zero htop
    have hparts := hs.holds_cofactorChoice (b := x (s.splitVar d)) hd hv
    have hbelow := hs.below_cofactorChoice (b := x (s.splitVar d)) hd hv
    obtain ⟨y, hdenote, hy⟩ := ih hparts
    rw [hs.denote_cofactorChoice hd hv, hs.denote_cofactorChoice hd hv,
      Function.update_eq_self] at hdenote
    -- The part does not read the variable, so that may have the value that leads to the part.
    refine ⟨Function.update y (s.splitVar d) (x (s.splitVar d)), ?_, ?_⟩
    · rw [← Choice.denote_form_split hs.stable_holds (hs.valuation _) hc hform, hdenote,
        Choice.denote_form_split hs.stable_holds (hs.valuation x) hc hform]
    · rw [errs_iff_of_form_split hform, Function.update_self]
      intro herrs
      apply hy
      apply hs.errs_congr hparts hbelow _ herrs
      intro u hu
      exact Function.update_of_ne (by omega) _ _

theorem Includes.errs_iff (h : s.Includes s') (hs : s.Reduced) (hc : c.All s.Holds) :
    s'.Errs x c ↔ s.Errs x c := by
  constructor
  · intro herrs
    induction herrs with
    | self hself htest => exact .self hself (by rwa [← h.eval_eq hs hc.1])
    | split hform _ ih =>
      rw [h.form_eq hs hc] at hform
      obtain ⟨hd, htop, -⟩ := hs.of_form_split hc hform
      obtain ⟨hsplit, hparts⟩ := h.cofactorChoice_eq (b := x (s.splitVar _)) hd
      rw [hsplit, hparts] at ih
      exact .split hform (ih (hs.holds_cofactorChoice hd (splitVar_ne_zero htop)))
  · intro herrs
    induction herrs with
    | self hself htest => exact .self hself (by rwa [h.eval_eq hs hc.1])
    | split hform _ ih =>
      obtain ⟨hd, htop, -⟩ := hs.of_form_split hc hform
      obtain ⟨hsplit, hparts⟩ := h.cofactorChoice_eq (b := x (s.splitVar _)) hd
      refine .split (h.form_eq hs hc ▸ hform) ?_
      rw [hsplit, hparts]
      exact ih (hs.holds_cofactorChoice hd (splitVar_ne_zero htop))

end DiagramStore

end AndInverter
