import AndInverter.Diagram.Constancy
import AndInverter.Proofs.Diagram.Connectives
import AndInverter.Proofs.Diagram.Subfunctions

/-!
# Constant choices are recognized

A choice is constant if both of its splits come to the same constant. Deciding this adds no node,
and what the store remembers may answer. A choice between false and its own test is taken for the
test, so a choice that leads to one is not recognized as false. One that is true always is.
-/

namespace AndInverter

open DiagramStore

theorem Ref.constant?_eq_some_iff {r : Ref} {b : Bool} :
    r.constant? = some b ↔ r = .constant b := by
  have hne : Ref.one ≠ .zero := by decide
  cases b <;> grind [Ref.constant?, Ref.constant]

namespace Choice

variable {c : Choice} {e : Ref → Bool}

theorem test_ne_of_known?_none (h : c.known? = none) : c.test ≠ .one ∧ c.test ≠ .zero := by
  rcases c with ⟨f, g, h⟩
  grind [known?]

end Choice

namespace DiagramStore

variable {s s' : DiagramStore} {memo : StoreM.ConstancyMemo} {c : Choice}
  {b? e? t? : Option Bool} {a : Nat → Bool} {b : Bool} {n : Nat} {r : Ref}

theorem Reduced.eq_constant_iff (hs : s.Reduced) (hr : s.Holds r) :
    r = .constant b ↔ ∀ x, s.eval x r = b := by
  have hheld : s.Holds (.constant b) := by
    cases b with
    | false => exact holds_zero hs
    | true => exact holds_one hs
  have heval (x : Nat → Bool) : s.eval x (.constant b) = b := by
    cases b with
    | false => exact eval_zero s x
    | true => exact eval_one s x
  rw [← hs.eval_eq_iff hr hheld]
  simp only [heval]

theorem Reduced.constant?_eq_some_iff (hs : s.Reduced) (hr : s.Holds r) :
    r.constant? = some b ↔ ∀ x, s.eval x r = b := by
  rw [Ref.constant?_eq_some_iff, hs.eq_constant_iff hr]

/-- The test of a choice that is not known is no constant. -/
theorem Reduced.topVar_test_ne_zero (hs : s.Reduced) (hc : c.All s.Holds)
    (h : c.known? = none) : s.topVar c.test ≠ 0 := by
  obtain ⟨hone, hzero⟩ := Choice.test_ne_of_known?_none h
  intro htop
  exact (hs.eq_one_or_eq_zero hc.1 htop).elim hone hzero

/-- Fixing the first variables leaves a choice between false and its own test, which is no
constant. That choice is false, but it is taken for its test. -/
def Stumbles (s : DiagramStore) (c : Choice) : Prop :=
  ∃ n a, (∀ x, s.eval (fixUpTo n a x) c.high = false) ∧
    (∀ x, s.eval (fixUpTo n a x) c.low = s.eval (fixUpTo n a x) c.test) ∧
    ∃ x y, s.eval (fixUpTo n a x) c.test ≠ s.eval (fixUpTo n a y) c.test

theorem Includes.stumbles_iff (h : s.Includes s') (hs : s.Reduced) (hc : c.All s.Holds) :
    s'.Stumbles c ↔ s.Stumbles c := by
  simp only [Stumbles, h.eval_eq hs hc.1, h.eval_eq hs hc.2.1, h.eval_eq hs hc.2.2]

/-- A choice that stumbles is not always true. -/
theorem Stumbles.exists_denote_eq_false (h : s.Stumbles c) :
    ∃ x, c.denote (s.eval x) = false := by
  obtain ⟨n, a, hhigh, hlow, x, -, -⟩ := h
  refine ⟨fixUpTo n a x, ?_⟩
  rw [Choice.denote, hhigh, hlow]
  cases s.eval (fixUpTo n a x) c.test
  · rfl
  · rfl

namespace Reduced

theorem exists_eval_ne (hs : s.Reduced) (hr : s.Holds r) (hone : r ≠ .one) (hzero : r ≠ .zero) :
    ∃ x y, s.eval x r ≠ s.eval y r := by
  by_contra! hsame
  cases hb : s.eval (fun _ => false) r with
  | false => exact hzero ((hs.eq_constant_iff hr).mpr fun x => (hsame x _).trans hb)
  | true => exact hone ((hs.eq_constant_iff hr).mpr fun x => (hsame x _).trans hb)

theorem stumbles_of_isSelf (hs : s.Reduced) (hc : c.All s.Holds) (h : c.IsSelf) :
    s.Stumbles c := by
  obtain ⟨hhigh, hlow, hone, hzero⟩ := h
  have hfixed {x : Nat → Bool} := hs.eval_fixUpTo (a := fun _ => false) (x := x) hc.1
    (s.below_zero_var c.test)
  refine ⟨0, fun _ => false, fun x => ?_, fun x => by rw [hlow], ?_⟩
  · rw [hhigh, eval_zero]
  · obtain ⟨x, y, hne⟩ := hs.exists_eval_ne hc.1 hone hzero
    exact ⟨x, y, by rwa [hfixed, hfixed]⟩

/-- Of the choices that are known, only those between false and their own test stumble. -/
theorem stumbles_iff_of_known (hs : s.Reduced) (hc : c.All s.Holds) (h : c.known? = some r) :
    s.Stumbles c ↔ c.IsSelf := by
  refine ⟨?_, hs.stumbles_of_isSelf hc⟩
  rintro ⟨n, a, hhigh, hlow, x, y, hne⟩
  obtain ⟨hone, hzero, hneg⟩ := hs.valuation (fixUpTo n a x)
  obtain ⟨hone', hzero', hneg'⟩ := hs.valuation (fixUpTo n a y)
  have hx := hhigh x
  have hy := hhigh y
  have hlx := hlow x
  have hly := hlow y
  have hnx := hneg hc.1
  have hny := hneg' hc.1
  clear hhigh hlow hneg hneg'
  rcases c with ⟨f, g, h⟩
  grind [Choice.known?, Choice.IsSelf]

/-- With no variable of its operands fixed, a choice that is found between false and its own test is
known. -/
theorem known?_ne_none_of_below (hs : s.Reduced) (hc : c.All s.Holds) (hbelow : c.All (s.Below n))
    (hhigh : ∀ x, s.eval (fixUpTo n a x) c.high = false)
    (hlow : ∀ x, s.eval (fixUpTo n a x) c.low = s.eval (fixUpTo n a x) c.test) :
    c.known? ≠ none := by
  have hfalse : c.high = .zero := by
    apply hs.eq_of_eval_eq hc.2.1 (holds_zero hs)
    intro x
    rw [← hs.eval_fixUpTo hc.2.1 hbelow.2.1, hhigh, eval_zero]
  have hself : c.low = c.test := by
    apply hs.eq_of_eval_eq hc.2.2 hc.1
    intro x
    rw [← hs.eval_fixUpTo hc.2.2 hbelow.2.2, hlow, hs.eval_fixUpTo hc.1 hbelow.1]
  clear hhigh hlow
  rcases c with ⟨f, g, h⟩
  grind [Choice.known?]

/-- A choice that is not known stumbles if one of its splits does. -/
theorem stumbles_iff_of_split (hs : s.Reduced) (hc : c.All s.Holds) (h : c.known? = none) :
    s.Stumbles c ↔ ∃ b, s.Stumbles (s.cofactorChoice c b) := by
  have hv := splitVar_ne_zero (hs.topVar_test_ne_zero hc h)
  constructor
  · rintro ⟨n, a, hhigh, hlow, hne⟩
    by_cases hvn : s.splitVar c ≤ n
    · have hcofactor (x : Nat → Bool) (r : Ref) :
          s.eval (fixUpTo n a x) (s.cofactor (s.splitVar c) (a (s.splitVar c)) r) =
            s.eval (fixUpTo n a x) r := by
        rw [← fixUpTo_of_le (a := a) (x := x) hvn]
        exact eval_cofactor_self hv
      refine ⟨a (s.splitVar c), n, a, ?_⟩
      simp only [cofactorChoice, Choice.map, hcofactor]
      exact ⟨hhigh, hlow, hne⟩
    · obtain ⟨htest, hhigh', hlow'⟩ := s.splitVar_le c
      have hbelow : c.All (s.Below n) :=
        ⟨htest.imp_right (by omega), hhigh'.imp_right (by omega), hlow'.imp_right (by omega)⟩
      exact absurd h (hs.known?_ne_none_of_below hc hbelow hhigh hlow)
  · rintro ⟨b, n, a, hhigh, hlow, hne⟩
    obtain ⟨htest, hhigh', hlow'⟩ := s.splitVar_le c
    simp only [cofactorChoice, Choice.map, hs.eval_fixUpTo_cofactor hc.1 hv htest,
      hs.eval_fixUpTo_cofactor hc.2.1 hv hhigh', hs.eval_fixUpTo_cofactor hc.2.2 hv hlow']
      at hhigh hlow hne
    exact ⟨_, _, hhigh, hlow, hne⟩

end Reduced

def Evident (s : DiagramStore) (c : Choice) (b : Bool) : Prop :=
  (∀ x, c.denote (s.eval x) = b) ∧ ¬ s.Stumbles c

/-- The constant true is always evident. -/
theorem evident_true_iff : s.Evident c true ↔ ∀ x, c.denote (s.eval x) = true := by
  refine and_iff_left_of_imp fun hall hstumbles => ?_
  obtain ⟨x, hx⟩ := hstumbles.exists_denote_eq_false
  rw [hall x] at hx
  cases hx

namespace Reduced

theorem evident_iff_cofactors (hs : s.Reduced) (hc : c.All s.Holds) (h : c.known? = none) :
    s.Evident c b ↔ ∀ v, s.Evident (s.cofactorChoice c v) b := by
  simp only [Evident, hs.forall_denote_eq_iff hc (splitVar_ne_zero (hs.topVar_test_ne_zero hc h)),
    hs.stumbles_iff_of_split hc h, not_exists, forall_and]

theorem constant?_eq_some_iff_of_known (hs : s.Reduced) (hc : c.All s.Holds)
    (h : c.known? = some r) : r.constant? = some b ↔ s.Evident c b := by
  rw [Evident, hs.stumbles_iff_of_known hc h]
  by_cases hself : c.IsSelf
  · rw [hself.known?_eq] at h
    cases h
    have hnone : c.test.constant? = none := by
      rw [Ref.constant?, if_neg hself.2.2.2, if_neg hself.2.2.1]
    rw [hnone]
    exact ⟨nofun, fun h => absurd hself h.2⟩
  · rw [hs.constant?_eq_some_iff (hc.known? hs.stable_holds h), and_iff_left hself]
    exact forall_congr' fun x => by
      rw [Choice.denote_of_known? (hs.valuation x) hc hself h]

end Reduced

/-- What a choice comes to is a constant only if the choice errs nowhere. -/
theorem Settled.not_errs_of_constant (h : s.Settled c r) (hs : s.Reduced)
    (hconst : ∀ x, s.eval x r = b) (x : Nat → Bool) : ¬ s.Errs x c := by
  intro herrs
  obtain ⟨y, hdenote, hy⟩ := hs.exists_not_errs h.all_holds herrs
  have heval := (h.eval_eq_iff y).mpr hy
  rw [hconst, hdenote, ← hconst x] at heval
  exact (h.eval_eq_iff x).mp heval herrs

/-- What is remembered of a choice without signs is a constant only if the choice is true. -/
theorem Settled.constant?_eq_some_iff (h : s.Settled c r) (hs : s.Reduced)
    (hregular : c.Regular) : r.constant? = some b ↔ s.Evident c b := by
  have hc := h.all_holds
  have htrue := hs.denote_true hc hregular
  rw [hs.constant?_eq_some_iff h.holds]
  constructor
  · intro hconst
    have hdenote (x : Nat → Bool) : c.denote (s.eval x) = b := by
      rw [← (h.eval_eq_iff x).mpr (h.not_errs_of_constant hs hconst x), hconst]
    obtain rfl : true = b := by rw [← htrue, hdenote]
    exact evident_true_iff.mpr hdenote
  · intro hevident x
    obtain rfl : true = b := by rw [← htrue, hevident.1]
    rw [(h.eval_eq_iff x).mpr (hs.not_errs_of_forall hc hevident.1), hevident.1]

/-- An answer is the constant that a choice evidently comes to, if any. -/
structure Decides (s : DiagramStore) (c : Choice) (b? : Option Bool) : Prop where
  all_holds : c.All s.Holds
  eq_some_iff (b : Bool) : b? = some b ↔ s.Evident c b

namespace Decides

theorem of_nodes_eq (h : s.Decides c b?) (hs : s.Reduced) (hnodes : s'.nodes = s.nodes) :
    s'.Decides c b? := by
  have hinc := includes_of_nodes_eq hnodes
  refine ⟨hinc.all_holds h.all_holds, fun b => ?_⟩
  simp only [Evident, hinc.denote_eq hs h.all_holds, hinc.stumbles_iff hs h.all_holds]
  exact h.eq_some_iff b

/-- The high cofactor alone can show that no constant is evident. -/
theorem of_high_none (hs : s.Reduced) (hc : c.All s.Holds) (hnone : c.known? = none)
    (ht : s.Decides (s.cofactorChoice c true) none) : s.Decides c none where
  all_holds := hc
  eq_some_iff b := by
    rw [hs.evident_iff_cofactors hc hnone]
    exact ⟨nofun, fun h => (ht.eq_some_iff b).mpr (h true)⟩

theorem of_cofactors (hs : s.Reduced) (hc : c.All s.Holds) (hnone : c.known? = none)
    (ht : s.Decides (s.cofactorChoice c true) t?)
    (he : s.Decides (s.cofactorChoice c false) e?) :
    s.Decides c (if e? = t? then t? else none) where
  all_holds := hc
  eq_some_iff b := by
    rw [hs.evident_iff_cofactors hc hnone, Bool.forall_bool, ← he.eq_some_iff,
      ← ht.eq_some_iff]
    grind

end Decides

end DiagramStore

namespace StoreM

variable {s : DiagramStore} {memo : ConstancyMemo} {c : Choice} {f g h : Ref}

/-- What is remembered of a choice is right, and looking it up adds no node. -/
theorem settled?_right (hs : s.WellFormed) (c : Choice) :
    Ensures (settled? c) s (fun r? s' => s'.nodes = s.nodes ∧ s'.WellFormed ∧
      ∀ r, r? = some r → s'.Settled c r ∧ c.Regular) fun _ _ => False := by
  obtain ⟨-, hs', hsettled⟩ := settled?_grows hs c
  exact ⟨rfl, hs', hsettled⟩

/-- The decision finds the constant that a choice evidently comes to, whatever the store remembers.
It always comes to an answer, and adds no node. -/
theorem constantChoice?_decides (hs : s.WellFormed) (hc : c.All s.Holds)
    (hmemo : Remembers s.Decides memo) :
    Ensures ((constantChoice? c).run memo) s (fun p s' => s'.nodes = s.nodes ∧ s'.WellFormed ∧
      s.Decides c p.1 ∧ Remembers s.Decides p.2) fun _ _ => False := by
  induction hw : c.weight using Nat.strongRecOn generalizing c s memo with
  | ind m ih =>
    rw [constantChoice?]
    cases hknown : c.known? with
    | some r =>
      exact ⟨rfl, hs, ⟨hc, fun b => hs.constant?_eq_some_iff_of_known hc hknown⟩, hmemo⟩
    | none =>
      refine (settled?_right hs c).bindRunLift fun r? s₁ ⟨hnodes₁, hs₁, hr?⟩ => ?_
      have hback {d : Choice} {b? : Option Bool} (h : s₁.Decides d b?) : s.Decides d b? :=
        h.of_nodes_eq hs₁.toReduced hnodes₁.symm
      have hc₁ := (includes_of_nodes_eq hnodes₁).all_holds hc
      cases r? with
      | some r =>
        obtain ⟨hr, hregular⟩ := hr? r rfl
        have hdecides : s₁.Decides c r.constant? :=
          ⟨hc₁, fun b => hr.constant?_eq_some_iff hs₁.toReduced hregular⟩
        exact ⟨hnodes₁, hs₁, hback hdecides, hmemo⟩
      | none =>
        refine .bindRunGet ?_
        cases hb : memo[c]? with
        | some b? => exact ⟨hnodes₁, hs₁, hmemo c b? hb, hmemo⟩
        | none =>
          have hmemo₁ : Remembers s₁.Decides memo :=
            hmemo.imp fun _ _ h => h.of_nodes_eq hs.toReduced hnodes₁
          have htop := hs₁.topVar_test_ne_zero hc₁ hknown
          have hv := splitVar_ne_zero htop
          have hlt (b : Bool) : (s₁.cofactorChoice c b).weight < m :=
            hw ▸ weight_cofactorChoice_lt htop
          have hparts (b : Bool) := hs₁.holds_cofactorChoice (b := b) hc₁ hv
          refine .bindRunStore ?_
          rw [dif_neg htop]
          refine .bindRunFault (hs₁.checkSplit_eq_ok hc₁ hv) ?_
          refine (ih _ (hlt true) hs₁ (hparts true) hmemo₁ rfl).bindRun
            fun t? memo₂ s₂ ⟨hnodes₂, hs₂, ht, hmemo₂⟩ => ?_
          dsimp only at ht hmemo₂ ⊢
          cases t? with
          | none =>
            -- The low cofactor is not looked at.
            have hdecides := Decides.of_high_none hs₁.toReduced hc₁ hknown ht
            rw [Option.isNone_none, if_pos rfl, pure_bind]
            refine .bindRunUpdate ?_
            exact ⟨hnodes₂.trans hnodes₁, hs₂, hback hdecides,
              (hmemo₂.insert hdecides).imp fun _ _ => hback⟩
          | some t =>
            rw [Option.isNone_some, if_neg Bool.false_ne_true]
            refine (ih _ (hlt false) hs₂ ((includes_of_nodes_eq hnodes₂).all_holds (hparts false))
              (hmemo₂.imp fun _ _ h => h.of_nodes_eq hs₁.toReduced hnodes₂) rfl).bindRun
              fun e? memo₃ s₃ ⟨hnodes₃, hs₃, he, hmemo₃⟩ => ?_
            have hback₂ {d : Choice} {b? : Option Bool} (h : s₂.Decides d b?) : s₁.Decides d b? :=
              h.of_nodes_eq hs₂.toReduced hnodes₂.symm
            have hdecides := Decides.of_cofactors hs₁.toReduced hc₁ hknown ht (hback₂ he)
            rw [pure_bind]
            refine .bindRunUpdate ?_
            exact ⟨hnodes₃.trans (hnodes₂.trans hnodes₁), hs₃, hback hdecides,
              ((hmemo₃.imp fun _ _ => hback₂).insert hdecides).imp fun _ _ => hback⟩

theorem constantIte?_decides (hs : s.WellFormed) (hf : s.Holds f) (hg : s.Holds g)
    (hh : s.Holds h) : Ensures (constantIte? f g h) s
      (fun b? s' => s'.nodes = s.nodes ∧ s'.WellFormed ∧ s.Decides ⟨f, g, h⟩ b?)
      fun _ _ => False :=
  (constantChoice?_decides hs ⟨hf, hg, hh⟩ .empty).bind
    fun _ _ ⟨hnodes, hs', hb, _⟩ => .result ⟨hnodes, hs', hb⟩

/-- An implication is the constant true, which is always evident. -/
theorem implies_decides (hs : s.WellFormed) (hf : s.Holds f) (hg : s.Holds g) :
    Ensures (implies f g) s (fun b s' => s'.nodes = s.nodes ∧ s'.WellFormed ∧
      (b = true ↔ ∀ x, s.eval x f = true → s.eval x g = true)) fun _ _ => False := by
  refine (constantIte?_decides hs hf hg (holds_one hs.toReduced)).bind
    fun b? s' ⟨hnodes, hs', hb⟩ => .result ⟨hnodes, hs', ?_⟩
  rw [decide_eq_true_iff, hb.eq_some_iff, evident_true_iff]
  refine forall_congr' fun x => ?_
  rw [Choice.denote, eval_one]
  cases s.eval x f
  · simp
  · simp

theorem implies_grows (hs : s.WellFormed) (hf : s.Holds f) (hg : s.Holds g) :
    Grows (implies f g) s fun b _ => b = true ↔ ∀ x, s.eval x f = true → s.eval x g = true :=
  (implies_decides hs hf hg).mono
    (fun _ _ ⟨hnodes, hs', hb⟩ => ⟨extends_of_nodes_eq hnodes, hs', hb⟩) fun _ _ => False.elim

end StoreM

end AndInverter
