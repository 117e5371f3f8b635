import AndInverter.Proofs.Diagram.Constancy

/-!
# What a store holds is found again

The result of a choice is the only reference to its function, and with a function the store holds
its cofactors. So a choice whose result is held comes out as this result and adds no node, whether
or not it is remembered. Deciding an implication adds no node either.
-/

namespace AndInverter

theorem Bool.eq_of_eq_iff_eq {a b c : Bool} (h : a = c ↔ b = c) : a = b := by
  cases a <;> cases b <;> cases c <;> simp_all

namespace DiagramStore

variable {s s' : DiagramStore} {x y : Nat → Bool} {c d : Choice} {q r : Ref} {b n : Bool}
  {v w : Nat}

/-- A function that heeds only later variables tests only later variables. -/
theorem Reduced.below_of_congr (hs : s.Reduced) (hr : s.Holds r)
    (h : ∀ x y : Nat → Bool, (∀ u, w < u → x u = y u) → s.eval x r = s.eval y r) :
    s.Below w r := by
  by_contra hb
  have htop : s.topVar r ≠ 0 := fun htop => hb (.inl htop)
  have hle : s.topVar r ≤ w := Nat.not_lt.mp fun hlt => hb (.inr hlt)
  -- Both cofactors at the first variable would be one function.
  apply hs.cofactor_ne hr htop
  apply hs.eq_of_eval_eq (hs.holds_cofactor hr htop) (hs.holds_cofactor hr htop)
  intro x
  rw [hs.eval_cofactor hr htop (.inr (Nat.le_refl _)),
    hs.eval_cofactor hr htop (.inr (Nat.le_refl _))]
  apply h
  intro u hu
  rw [Function.update_of_ne (by omega), Function.update_of_ne (by omega)]

namespace Settled

/-- The right reference tests only what the operands of the choice test. -/
theorem of_eval (hs : s.Reduced) (hc : c.All s.Holds) (hr : s.Holds r)
    (heval : ∀ x, s.eval x r = c.denote (s.eval x) ↔ ¬ s.Errs x c) : s.Settled c r where
  all_holds := hc
  holds := hr
  below {w} hb := by
    apply hs.below_of_congr hr
    intro x y hxy
    have hdenote : c.denote (s.eval x) = c.denote (s.eval y) := by
      rw [Choice.denote, Choice.denote, hs.eval_congr hc.1 hb.1 hxy,
        hs.eval_congr hc.2.1 hb.2.1 hxy, hs.eval_congr hc.2.2 hb.2.2 hxy]
    have herrs : s.Errs x c ↔ s.Errs y c :=
      ⟨hs.errs_congr hc hb hxy, hs.errs_congr hc hb fun u hu => (hxy u hu).symm⟩
    have hx := heval x
    rw [hdenote, herrs, ← heval y] at hx
    exact Bool.eq_of_eq_iff_eq hx
  eval_eq_iff := heval

/-- A choice comes to one reference only. -/
theorem eq (h : s.Settled c q) (hs : s.Reduced) (h' : s.Settled c r) : q = r := by
  apply hs.eq_of_eval_eq h.holds h'.holds
  intro x
  exact Bool.eq_of_eq_iff_eq ((h.eval_eq_iff x).trans (h'.eval_eq_iff x).symm)

/-- What a choice comes to gives what its normal form comes to. -/
theorem form (h : s.Settled c r) (hs : s.Reduced) (hform : c.form s.topVar = .split n d) :
    s.Settled d (r.negIf n) := by
  obtain ⟨hd, -, hself⟩ := hs.of_form_split h.all_holds hform
  refine of_eval hs hd (holds_negIf.mpr h.holds) fun x => ?_
  have herrs : s.Errs x c ↔ s.Errs x d := by
    rw [errs_iff_of_form_split hform, errs_iff_of_form_split hself]
  have hx := h.eval_eq_iff x
  rw [← Choice.denote_form_split hs.stable_holds (hs.valuation x) h.all_holds hform, herrs] at hx
  rw [hs.eval_negIf h.holds, ← hx]
  cases s.eval x r <;> cases d.denote (s.eval x) <;> cases n <;> simp

/-- The parts of a choice come to the cofactors of what it comes to. -/
theorem cofactor (h : s.Settled c r) (hs : s.Reduced) (hv : s.splitVar c ≠ 0)
    (hform : c.form s.topVar = .split false c) (b : Bool) :
    s.Settled (s.cofactorChoice c b) (s.cofactor (s.splitVar c) b r) := by
  have hc := h.all_holds
  have hle : s.topVar r = 0 ∨ s.splitVar c ≤ s.topVar r := by
    obtain ⟨htest, hhigh, hlow⟩ := s.splitVar_le c
    have hbelow : s.Below (s.splitVar c - 1) r := h.below
      ⟨htest.imp_right (by omega), hhigh.imp_right (by omega), hlow.imp_right (by omega)⟩
    exact hbelow.imp_right (by omega)
  refine of_eval hs (hs.holds_cofactorChoice hc hv) (hs.holds_cofactor h.holds hv) fun x => ?_
  have herrs : s.Errs (Function.update x (s.splitVar c) b) c ↔ s.Errs x (s.cofactorChoice c b) := by
    have hparts := hs.holds_cofactorChoice (b := b) hc hv
    have hbelow := hs.below_cofactorChoice (b := b) hc hv
    have hsame (u : Nat) (hu : s.splitVar c < u) : Function.update x (s.splitVar c) b u = x u :=
      Function.update_of_ne (by omega) _ _
    rw [errs_iff_of_form_split hform, Function.update_self]
    exact ⟨hs.errs_congr hparts hbelow hsame,
      hs.errs_congr hparts hbelow fun u hu => (hsame u hu).symm⟩
  rw [hs.eval_cofactor h.holds hv hle, hs.denote_cofactorChoice hc hv, ← herrs]
  exact h.eval_eq_iff _

end Settled

end DiagramStore

open DiagramStore

/-- An operation that answers `a` and adds no node. -/
def Recalls {ε α : Type} (op : ExceptT ε (StateM DiagramStore) α) (s : DiagramStore) (a : α) :
    Prop :=
  Ensures op s (fun b s' => b = a ∧ s'.nodes = s.nodes ∧ s'.WellFormed) fun _ _ => False

namespace Recalls

variable {ε α β : Type} {op : ExceptT ε (StateM DiagramStore) α}
  {k : α → ExceptT ε (StateM DiagramStore) β} {s : DiagramStore} {a : α} {b : β}

theorem result (hs : s.WellFormed) (a : α) :
    Recalls (pure a : ExceptT ε (StateM DiagramStore) α) s a := ⟨rfl, rfl, hs⟩

theorem bind (h : Recalls op s a)
    (hk : ∀ s' : DiagramStore, s'.nodes = s.nodes → s'.WellFormed → Recalls (k a) s' b) :
    Recalls (op >>= k) s b := by
  refine Ensures.bind h fun a' s' ⟨ha, hnodes, hs'⟩ => ?_
  subst ha
  exact (hk s' hnodes hs').mono (fun _ _ ⟨hb, hnodes', hs''⟩ => ⟨hb, hnodes'.trans hnodes, hs''⟩)
    fun _ _ => id

/-- A run that goes on from a store with the same nodes recalls what is recalled there. -/
theorem of_run_eq {op' : ExceptT ε (StateM DiagramStore) α} {s' : DiagramStore}
    (h : Recalls op' s' a) (hnodes : s'.nodes = s.nodes) (hrun : op.run s = op'.run s') :
    Recalls op s a := by
  rw [Recalls, Ensures, hrun]
  exact h.mono (fun _ _ h => ⟨h.1, h.2.1.trans hnodes, h.2.2⟩) fun _ _ => id

theorem exists_run (h : Recalls op s a) :
    ∃ s', op.run s = (.ok a, s') ∧ s'.nodes = s.nodes ∧ s'.WellFormed := by
  obtain ⟨a', hrun, rfl, hfinal⟩ := h.exists_result
  exact ⟨_, Prod.ext hrun rfl, hfinal⟩

end Recalls

namespace StoreM

variable {s : DiagramStore} {c d : Choice} {f g r : Ref} {n : Bool} {i v : Nat}

theorem nodeOf_recalls (hs : s.WellFormed) {n : DiagramNode} (h : s.nodes.search n = .found i) :
    Recalls (nodeOf n) s (.ofIndex i) := by
  have hintern : s.nodes.intern n = (some i, s.nodes) := by simp only [UniqueTable.intern, h]
  refine Ensures.bindUpdateGet (show _ = ((s.nodes.intern n).1,
    (⟨(s.nodes.intern n).2, s.computed⟩ : DiagramStore)) from rfl) ?_
  rw [hintern]
  exact .result ⟨rfl, rfl, hs⟩

/-- The node that joins the cofactors of a function is the one of the function itself. -/
theorem node_cofactor_recalls (hs : s.WellFormed) (hr : s.Holds r) (hv : v ≠ 0) :
    Recalls (node v (s.cofactor v false r) (s.cofactor v true r)) s r := by
  rw [node, if_neg hv]
  by_cases htop : s.topVar r = v
  · subst htop
    have hone := one_lt_index hv
    have hproper := hs.proper hone hr.2
    have hne := hs.cofactor_ne hr hv
    have hfound := nodeOf_recalls hs (hs.found hone hr.2)
    rw [hs.ofIndex_eq hr.2] at hfound
    rw [if_neg hne, if_neg hne, cofactor, cofactor, if_pos rfl, if_pos rfl, hs.child_eq hr hone,
      hs.child_eq hr hone, topVar_eq hone]
    by_cases hsign : r.IsNegated
    · have hhigh : (-(s.nodes.get r.index).high).IsNegated :=
        (Ref.isNegated_neg hproper.high_pos).mpr hproper.high_regular
      have hneg : -(⟨r.index⟩ : Ref) = r := (Ref.eq_neg_of_isNegated hsign).symm
      simp only [decide_eq_true hsign, Ref.negIf, if_true, Bool.false_eq_true, if_false]
      rw [if_pos hhigh, Ref.neg_neg, Ref.neg_neg]
      refine hfound.bind fun s' _ hs' => ?_
      rw [hneg]
      exact .result hs' r
    · have hpos : (⟨r.index⟩ : Ref) = r := (Ref.eq_of_not_isNegated hsign).symm
      simp only [decide_eq_false hsign, Ref.negIf, if_true, Bool.false_eq_true, if_false]
      rw [if_neg hproper.high_regular]
      rwa [hpos] at hfound
  · rw [cofactor, cofactor, if_neg htop, if_neg htop, if_pos rfl, if_pos rfl]
    split
    · exact .result hs r
    · exact .result hs r

/-- What is remembered is right, and looking it up adds no node. -/
theorem settled?_recalls (hs : s.WellFormed) (c : Choice) :
    ∃ r?, Recalls (settled? c) s r? ∧ ∀ r, r? = some r → s.Settled c r := by
  obtain ⟨-, hs', hsettled⟩ := settled?_grows hs c
  refine ⟨_, ⟨rfl, rfl, hs'⟩, fun r hr => ?_⟩
  exact (hsettled r hr).1.of_includes hs'.toReduced (includes_of_nodes_eq rfl)

def chooseParts (parts : Split) (d : Choice) (negated : Bool) : StoreM Ref := do
  let e ← choose parts.low
  let t ← choose parts.high
  let r ← node parts.var e t
  remember d r
  return r.negIf negated

theorem run_choose_of_known (hform : c.form s.topVar = .known r) :
    (choose c).run s = (.ok r, s) := by
  rw [choose]
  refine (run_bind_of_ok (?_ : (get : StoreM DiagramStore).run s = (.ok s, s))).trans ?_
  · rfl
  · split
    · rename_i r' hform'
      rw [hform] at hform'
      cases hform'
      rfl
    · rename_i n d hform'
      rw [hform] at hform'
      cases hform'

theorem run_choose_of_split (hform : c.form s.topVar = .split n d) (htop : s.topVar d.test ≠ 0) :
    (choose c).run s = (settled? d >>= fun r? =>
      r?.elim (ofFault (s.checkSplit d) >>= fun _ => chooseParts (s.split d) d n)
        fun r => pure (r.negIf n)).run s := by
  rw [choose]
  refine (run_bind_of_ok (?_ : (get : StoreM DiagramStore).run s = (.ok s, s))).trans ?_
  · rfl
  · split
    · rename_i r' hform'
      rw [hform] at hform'
      cases hform'
    · rename_i n' d' hform'
      rw [hform] at hform'
      cases hform'
      rw [dif_neg htop]
      refine congrArg (fun k => (settled? d >>= k).run s) (funext fun r? => ?_)
      cases r? with
      | some r => rfl
      | none => rfl

/-- A choice is answered at once, or its parts are chosen with the same nodes. -/
theorem choose_cases (hs : s.WellFormed) (hc : c.All s.Holds) :
    (∃ r, s.Settled c r ∧ Recalls (choose c) s r) ∨
    ∃ n d s', c.form s.topVar = .split n d ∧ s'.nodes = s.nodes ∧ s'.WellFormed ∧
      (choose c).run s = (chooseParts (s.split d) d n).run s' := by
  cases hform : c.form s.topVar with
  | known r =>
    refine .inl ⟨r, .of_form_known hs.toReduced hc hform, ?_⟩
    rw [Recalls, Ensures, run_choose_of_known hform]
    exact ⟨rfl, rfl, hs⟩
  | split n d =>
    obtain ⟨hd, htop, -⟩ := hs.of_form_split hc hform
    obtain ⟨r?, hrecalls, hsettled⟩ := settled?_recalls hs d
    obtain ⟨s', hrun, hnodes, hs'⟩ := hrecalls.exists_run
    have hchoose := (run_choose_of_split hform htop).trans (run_bind_of_ok hrun)
    cases r? with
    | some r =>
      refine .inl ⟨r.negIf n, .of_form_split hs.toReduced hc hform (hsettled r rfl), ?_⟩
      rw [Recalls, Ensures, hchoose]
      exact ⟨rfl, hnodes, hs'⟩
    | none =>
      refine .inr ⟨n, d, s', rfl, hnodes, hs', hchoose.trans ?_⟩
      rw [Option.elim_none, hs.checkSplit_eq_ok hd (splitVar_ne_zero htop)]
      rfl

theorem remember_recalls (hs : s.WellFormed) (h : s.Settled c r) (hregular : c.Regular) :
    Recalls (remember c r) s ⟨⟩ := by
  obtain ⟨-, hs', -⟩ := remember_grows hs h hregular
  exact ⟨rfl, rfl, hs'⟩

/-- A choice whose result is held comes out as this result. -/
theorem choose_recalls (hs : s.WellFormed) (h : s.Settled c r) : Recalls (choose c) s r := by
  induction hw : c.weight using Nat.strongRecOn generalizing c s r with
  | ind m ih =>
    rcases choose_cases hs h.all_holds with ⟨q, hq, hrecalls⟩ | ⟨n, d, s₁, hform, hnodes, hs₁, hrun⟩
    · rwa [h.eq hs.toReduced hq]
    · refine Recalls.of_run_eq ?_ hnodes hrun
      obtain ⟨hd, htop, hself⟩ := hs.of_form_split h.all_holds hform
      have hv := splitVar_ne_zero htop
      have hlt (b : Bool) : (s.cofactorChoice d b).weight < m :=
        hw ▸ Nat.lt_of_lt_of_le (weight_cofactorChoice_lt htop)
          (Choice.weight_le_of_form_eq_split hform)
      have hwhole := h.form hs.toReduced hform
      have hparts (b : Bool) := hwhole.cofactor hs.toReduced hv hself b
      -- What is settled stays so as long as no node is added.
      have hheld {s' : DiagramStore} (hnodes : s'.nodes = s.nodes) {d : Choice} {q : Ref}
          (hq : s.Settled d q) : s'.Settled d q :=
        hq.of_includes hs.toReduced (includes_of_nodes_eq hnodes)
      refine (ih _ (hlt false) hs₁ (hheld hnodes (hparts false)) rfl).bind fun s₂ hnodes₂ hs₂ => ?_
      have hnodes₂ := hnodes₂.trans hnodes
      refine (ih _ (hlt true) hs₂ (hheld hnodes₂ (hparts true)) rfl).bind fun s₃ hnodes₃ hs₃ => ?_
      have hnodes₃ := hnodes₃.trans hnodes₂
      have hinc := includes_of_nodes_eq hnodes₃
      have hnode := node_cofactor_recalls hs₃ (hinc.holds hwhole.holds) hv
      rw [hinc.cofactor_eq hwhole.holds, hinc.cofactor_eq hwhole.holds] at hnode
      refine hnode.bind fun s₄ hnodes₄ hs₄ => ?_
      have hnodes₄ := hnodes₄.trans hnodes₃
      refine (remember_recalls hs₄ (hheld hnodes₄ hwhole)
        (Choice.regular_of_form hform)).bind fun s₅ _ hs₅ => ?_
      rw [Ref.negIf_negIf]
      exact .result hs₅ r

theorem implies_recalls (hs : s.WellFormed) (hf : s.Holds f) (hg : s.Holds g) :
    ∃ b, Recalls (implies f g) s b ∧ (b = true ↔ ∀ x, s.eval x f = true → s.eval x g = true) := by
  obtain ⟨b, hrun, hnodes, hs', hb⟩ := (implies_decides hs hf hg).exists_result
  have hrun : (implies f g).run s = (.ok b, ((implies f g).run s).2) := Prod.ext hrun rfl
  refine ⟨b, ?_, hb⟩
  rw [Recalls, Ensures, hrun]
  exact ⟨rfl, hnodes, hs'⟩

end StoreM

end AndInverter
