import AndInverter.Proofs.Diagram.Denotation
import AndInverter.Proofs.Diagram.Recall

/-!
# The calls that a choice makes

A choice can be worked off by calls of one recursion: a choice with an operand that repeats the test
is called anew with a constant in its place, one that an exchange brings a smaller variable to the
front of is called anew exchanged, and any other one is split. The recursion ends for every choice
on every store. On a store that operations lead to it makes at most one call of each of the first
two kinds between two splits, and every split is at a larger variable than the one before.
-/

namespace AndInverter

namespace Choice

open Ref (one zero)

variable {c d : Choice} {top : Ref → Nat}

def constantOperand? : Choice → Option Choice
  | ⟨f, g, h⟩ =>
    if g = f then some ⟨f, one, h⟩
    else if h = f then some ⟨f, g, zero⟩
    else if g = -f then some ⟨f, zero, h⟩
    else if h = -f then some ⟨f, g, one⟩
    else none

def exchange? (top : Ref → Nat) : Choice → Option Choice
  | ⟨f, g, h⟩ =>
    if g = one ∧ top h < top f then some ⟨h, one, f⟩
    else if h = zero ∧ top g < top f then some ⟨g, f, zero⟩
    else if h = one ∧ top g < top f then some ⟨-g, -f, one⟩
    else if g = zero ∧ top h < top f then some ⟨-h, zero, -f⟩
    else if g = -h ∧ top g < top f then some ⟨g, f, -f⟩
    else none

def repeats (c : Choice) : Nat :=
  (if c.high = c.test ∨ c.high = -c.test then 1 else 0) +
    if c.low = c.test ∨ c.low = -c.test then 1 else 0

theorem simplify_eq_getD (c : Choice) : c.simplify = c.constantOperand?.getD c := by
  rcases c with ⟨f, g, h⟩
  simp only [simplify, constantOperand?]
  split
  · rfl
  · split
    · rfl
    · split
      · rfl
      · split
        · rfl
        · rfl

theorem orient_eq_getD (top : Ref → Nat) (c : Choice) :
    c.orient top = (c.exchange? top).getD c := by
  rcases c with ⟨f, g, h⟩
  simp only [orient, exchange?]
  split
  · rfl
  · split
    · rfl
    · split
      · rfl
      · split
        · rfl
        · split
          · rfl
          · rfl

theorem simplify_of_constantOperand? (h : c.constantOperand? = some d) : c.simplify = d := by
  rw [simplify_eq_getD, h, Option.getD_some]

theorem orient_of_exchange? (h : c.exchange? top = some d) : c.orient top = d := by
  rw [orient_eq_getD, h, Option.getD_some]

theorem test_ne_of_unknown (hknown : c.known? = none) : c.test ≠ one ∧ c.test ≠ zero := by
  rcases c with ⟨f, g, h⟩
  constructor
  · rintro rfl
    simp [known?] at hknown
  · rintro rfl
    simp [known?, show zero ≠ one by decide] at hknown

/-- The test of a choice that is not known is no constant, so a constant operand does not repeat
it. -/
theorem repeats_lt (hknown : c.known? = none) (h : c.constantOperand? = some d) :
    d.repeats < c.repeats := by
  obtain ⟨hone, hzero⟩ := test_ne_of_unknown hknown
  rcases c with ⟨f, g, h⟩
  dsimp only at hone hzero
  have hneg : -f ≠ one ∧ -f ≠ zero :=
    ⟨fun h => hzero (Ref.neg_inj.mp h), fun h => hone (Ref.neg_inj.mp h)⟩
  simp only [constantOperand?] at h
  grind [repeats]

theorem test_constantOperand? (h : c.constantOperand? = some d) : d.test = c.test :=
  simplify_of_constantOperand? h ▸ test_simplify c

theorem top_test_lt (htop : ∀ r, top (-r) = top r) (h : c.exchange? top = some d) :
    top d.test < top c.test := by
  rcases c with ⟨f, g, h⟩
  simp only [exchange?] at h
  grind

theorem Plain.constantOperand?_eq (hc : c.Plain) : c.constantOperand? = none := by
  rcases c with ⟨f, g, h⟩
  have hc := plain_mk.mp hc
  grind [constantOperand?]

theorem Oriented.exchange?_eq (hc : c.Oriented top) : c.exchange? top = none := by
  rcases c with ⟨f, g, h⟩
  obtain ⟨hone, hzero, lone, lzero, hopp⟩ := hc
  simp only at hone hzero lone lzero hopp
  rw [exchange?, if_neg fun h => Nat.not_lt.mpr (hone h.1) h.2,
    if_neg fun h => Nat.not_lt.mpr (lzero h.1) h.2, if_neg fun h => Nat.not_lt.mpr (lone h.1) h.2,
    if_neg fun h => Nat.not_lt.mpr (hzero h.1) h.2, if_neg fun h => Nat.not_lt.mpr (hopp h.1) h.2]

end Choice

theorem DiagramStore.topVar_positiveTest (s : DiagramStore) (c : Choice) :
    s.topVar c.positiveTest.test = s.topVar c.test := by
  rcases c with ⟨f, g, h⟩
  simp only [Choice.positiveTest]
  split
  · exact s.topVar_neg f
  · rfl

/-- What has come about on the way to a call since the last split. -/
structure Progress where
  /-- The variable of the last split, zero if there is none. -/
  lastVar : Nat := 0
  /-- The operands that have been made constant. -/
  constants : Nat := 0
  exchanges : Nat := 0
  /-- The calls inside one another, this one included. -/
  calls : Nat := 1

namespace Progress

def split (v : Nat) : Progress := { lastVar := v }

def constant (p : Progress) : Progress :=
  { p with constants := p.constants + 1, calls := p.calls + 1 }

def exchange (p : Progress) : Progress :=
  { p with exchanges := p.exchanges + 1, calls := p.calls + 1 }

/-- There is at most one call of each kind. -/
def Orderly (p : Progress) : Prop := p.constants ≤ 1 ∧ p.exchanges ≤ 1 ∧ p.calls ≤ 3

instance (p : Progress) : Decidable p.Orderly := inferInstanceAs (Decidable (_ ∧ _ ∧ _))

theorem orderly_split (v : Nat) : (split v).Orderly :=
  ⟨Nat.zero_le 1, Nat.zero_le 1, Nat.le_add_left 1 2⟩

theorem orderly_constant_split (v : Nat) : (split v).constant.Orderly :=
  ⟨Nat.le_refl 1, Nat.zero_le 1, Nat.le_succ 2⟩

end Progress

inductive Breach where
  /-- The store is full or an operation is denied. -/
  | halt (h : Halt)
  /-- There have been too many calls since the last split. -/
  | calls (p : Progress)
  /-- A split is no deeper than the last one. -/
  | splitOrder (last next : Nat)

namespace StoreM

open Choice DiagramStore Progress

variable {s s' : DiagramStore} {c d : Choice} {p : Progress} {r : Ref} {n : Bool} {v : Nat}

/-- Without its signs a choice tests the same variable first, and is split into smaller ones. -/
theorem weight_cofactor_positive_lt {b : Bool} (htop : s.topVar c.test ≠ 0) :
    (s.cofactorChoice c.positiveTest.positiveHigh.2 b).weight < c.weight := by
  have htest : s.topVar c.positiveTest.positiveHigh.2.test = s.topVar c.test := by
    rw [test_positiveHigh]
    exact s.topVar_positiveTest c
  exact Nat.lt_of_lt_of_le (weight_cofactorChoice_lt (htest ▸ htop))
    (Nat.le_trans (weight_positiveHigh_le _) (weight_positiveTest_le c))

def monitored {α : Type} (op : StoreM α) : ExceptT Breach (StateM DiagramStore) α :=
  op.adapt .halt

def demand (P : Prop) [Decidable P] (b : Breach) : ExceptT Breach (StateM DiagramStore) Unit :=
  if P then pure () else throw b

/-- The diagram of a choice, call by call. The demands only watch the calls, no call is left out for
them: every one has fewer nodes below its operands, or as many and a smaller variable in its test,
or the same test and fewer operands that repeat it. -/
def chooseByCalls (p : Progress) (s : DiagramStore) (c : Choice) :
    ExceptT Breach (StateM DiagramStore) Ref := do
  demand p.Orderly (.calls p)
  match _hknown : c.known? with
  | some r => return r
  | none =>
    demand (c.test ≠ .one ∧ c.test ≠ .zero) (.halt (.fault .constantCondition))
    match _hconstant : c.constantOperand? with
    | some d => chooseByCalls p.constant s d
    | none =>
      if _htop : s.topVar c.test = 0 then monitored (throw (.fault .constantCondition))
      else
        match _hexchange : c.exchange? s.topVar with
        | some d => chooseByCalls p.exchange s d
        | none =>
          let negated := c.positiveTest.positiveHigh.1
          let d := c.positiveTest.positiveHigh.2
          if let some r ← monitored (settled? d) then return r.negIf negated
          monitored (ofFault (s.checkSplit d))
          demand (p.lastVar < s.splitVar d) (.splitOrder p.lastVar (s.splitVar d))
          let e ← chooseByCalls (.split (s.splitVar d)) (← get) (s.cofactorChoice d false)
          let t ← chooseByCalls (.split (s.splitVar d)) (← get) (s.cofactorChoice d true)
          let r ← monitored (node (s.splitVar d) e t)
          monitored (remember d r)
          return r.negIf negated
termination_by (c.weight, s.topVar c.test, c.repeats)
decreasing_by
  · exact .right' _ (simplify_of_constantOperand? _hconstant ▸ weight_simplify_le c)
      (.right' _ (Nat.le_of_eq (congrArg s.topVar (test_constantOperand? _hconstant)))
        (repeats_lt _hknown _hconstant))
  · exact .right' _ (orient_of_exchange? _hexchange ▸ weight_orient_le s.topVar c)
      (.left _ _ (top_test_lt s.topVar_neg _hexchange))
  all_goals exact .left _ _ (weight_cofactor_positive_lt _htop)

def choosePartsByCalls (parts : Split) (d : Choice) (negated : Bool) :
    ExceptT Breach (StateM DiagramStore) Ref := do
  let e ← chooseByCalls (.split parts.var) (← get) parts.low
  let t ← chooseByCalls (.split parts.var) (← get) parts.high
  let r ← monitored (node parts.var e t)
  monitored (remember d r)
  return r.negIf negated

theorem demand_eq {P : Prop} [Decidable P] {b : Breach} (h : P) : demand P b = pure () := if_pos h

theorem chooseByCalls_of_known (hp : p.Orderly) (hknown : c.known? = some r) :
    chooseByCalls p s c = pure r := by
  rw [chooseByCalls, demand_eq hp, pure_bind]
  split
  · rename_i q hq
    rw [hknown] at hq
    cases hq
    rfl
  · rename_i hnone
    rw [hknown] at hnone
    cases hnone

theorem chooseByCalls_of_constantOperand? (hp : p.Orderly) (hknown : c.known? = none)
    (h : c.constantOperand? = some d) : chooseByCalls p s c = chooseByCalls p.constant s d := by
  rw [chooseByCalls, demand_eq hp, pure_bind]
  split
  · rename_i q hq
    rw [hknown] at hq
    cases hq
  · rw [demand_eq (test_ne_of_unknown hknown), pure_bind]
    split
    · rename_i e he
      rw [h] at he
      cases he
      rfl
    · rename_i hnone
      rw [h] at hnone
      cases hnone

theorem chooseByCalls_of_exchange? (hp : p.Orderly) (hplain : c.Plain)
    (htop : s.topVar c.test ≠ 0) (h : c.exchange? s.topVar = some d) :
    chooseByCalls p s c = chooseByCalls p.exchange s d := by
  rw [chooseByCalls, demand_eq hp, pure_bind]
  split
  · rename_i q hq
    rw [hplain.known?_eq] at hq
    cases hq
  · rw [demand_eq hplain.test_ne, pure_bind]
    split
    · rename_i e he
      rw [hplain.constantOperand?_eq] at he
      cases he
    · rw [dif_neg htop]
      split
      · rename_i e he
        rw [h] at he
        cases he
        rfl
      · rename_i hnone
        rw [h] at hnone
        cases hnone

theorem chooseByCalls_of_split (hp : p.Orderly) (hplain : c.Plain) (htop : s.topVar c.test ≠ 0)
    (h : c.exchange? s.topVar = none) (hn : n = c.positiveTest.positiveHigh.1)
    (hd : d = c.positiveTest.positiveHigh.2) :
    chooseByCalls p s c = monitored (settled? d) >>= fun r? =>
      r?.elim (monitored (ofFault (s.checkSplit d)) >>= fun _ =>
        demand (p.lastVar < s.splitVar d) (.splitOrder p.lastVar (s.splitVar d)) >>= fun _ =>
          choosePartsByCalls (s.split d) d n)
        fun r => pure (r.negIf n) := by
  subst hn hd
  rw [chooseByCalls, demand_eq hp, pure_bind]
  split
  · rename_i q hq
    rw [hplain.known?_eq] at hq
    cases hq
  · rw [demand_eq hplain.test_ne, pure_bind]
    split
    · rename_i e he
      rw [hplain.constantOperand?_eq] at he
      cases he
    · rw [dif_neg htop]
      split
      · rename_i e he
        rw [h] at he
        cases he
      · refine congrArg (monitored (settled? _) >>= ·) (funext fun r? => ?_)
        cases r? with
        | some r => rfl
        | none => rfl

theorem monitored_bind {α β : Type} (op : StoreM α) (k : α → StoreM β) :
    monitored (op >>= k) = monitored op >>= fun a => monitored (k a) := by
  funext s
  change (monitored (op >>= k)).run s = (monitored op >>= fun a => monitored (k a)).run s
  rw [run_bind_eq, monitored, run_adapt, run_bind_eq, monitored, run_adapt]
  cases op.run s with
  | mk r s' =>
    cases r with
    | ok a => rfl
    | error e => rfl

theorem run_monitored_congr {α : Type} {op op' : StoreM α} (h : op.run s = op'.run s') :
    (monitored op).run s = (monitored op').run s' := by
  rw [monitored, monitored, run_adapt, run_adapt, h]

theorem run_monitored_of_ok {α : Type} {op : StoreM α} {a : α} (h : op.run s = (.ok a, s')) :
    (monitored op).run s = (.ok a, s') := by
  rw [monitored, run_adapt, h]
  rfl

theorem extends_of_run_monitored {α : Type} {op : StoreM α} {P : α → DiagramStore → Prop} {a : α}
    (h : Grows op s P) (hrun : (monitored op).run s = (.ok a, s')) :
    s.Extends s' ∧ s'.WellFormed := by
  have hstore : (op.run s).2 = s' := congrArg Prod.snd hrun
  exact hstore ▸ h.final_extends

theorem run_choosePartsByCalls (hs : s.WellFormed) (hd : d.All s.Holds) (hv : s.splitVar d ≠ 0)
    (hparts : ∀ (b : Bool) (s' : DiagramStore), s.Extends s' → s'.WellFormed →
      (chooseByCalls (.split (s.splitVar d)) s' (s.cofactorChoice d b)).run s' =
        (monitored (choose (s.cofactorChoice d b))).run s') :
    (choosePartsByCalls (s.split d) d n).run s =
      (monitored (chooseParts (s.split d) d n)).run s := by
  have hheld (b : Bool) := hs.holds_cofactorChoice (b := b) hd hv
  rw [chooseParts, monitored_bind]
  refine run_bind_congr (hparts false s (.refl s) hs) fun e s₁ he => ?_
  obtain ⟨hext₁, hs₁⟩ := extends_of_run_monitored (choose_grows hs (hheld false)) he
  rw [monitored_bind]
  refine run_bind_congr (hparts true s₁ hext₁ hs₁) fun t s₂ _ => ?_
  rw [monitored_bind]
  refine run_bind_congr rfl fun r s₃ _ => ?_
  rw [monitored_bind]
  rfl

/-- The first call leads to the choice with constant operands, by at most one more call. -/
theorem exists_progress_simplify (hknown : c.known? = none) :
    ∃ p : Progress, p.Orderly ∧ p.lastVar = v ∧ p.exchanges = 0 ∧ p.calls ≤ 2 ∧
      chooseByCalls (.split v) s c = chooseByCalls p s c.simplify := by
  cases hconstant : c.constantOperand? with
  | none =>
    refine ⟨Progress.split v, orderly_split v, rfl, rfl, Nat.le_succ 1, ?_⟩
    rw [simplify_eq_getD, hconstant, Option.getD_none]
  | some d =>
    refine ⟨(Progress.split v).constant, orderly_constant_split v, rfl, rfl, Nat.le_refl 2, ?_⟩
    rw [simplify_of_constantOperand? hconstant]
    exact chooseByCalls_of_constantOperand? (orderly_split v) hknown hconstant

/-- One more call at most leads to the choice with the smallest variable at the front. -/
theorem exists_progress_orient (hp : p.Orderly) (hexchanges : p.exchanges = 0)
    (hcalls : p.calls ≤ 2) (hplain : c.Plain) (htop : s.topVar c.test ≠ 0) :
    ∃ q : Progress, q.Orderly ∧ q.lastVar = p.lastVar ∧
      chooseByCalls p s c = chooseByCalls q s (c.orient s.topVar) := by
  cases hexchange : c.exchange? s.topVar with
  | none =>
    refine ⟨p, hp, rfl, ?_⟩
    rw [orient_eq_getD, hexchange, Option.getD_none]
  | some d =>
    refine ⟨p.exchange, ⟨hp.1, Nat.succ_le_succ (Nat.le_of_eq hexchanges), Nat.succ_le_succ hcalls⟩,
      rfl, ?_⟩
    rw [orient_of_exchange? hexchange]
    exact chooseByCalls_of_exchange? hp hplain htop hexchange

/-- The recursion breaches no demand, and comes to what the choice comes to. -/
theorem run_chooseByCalls (hs : s.WellFormed) (hc : c.All s.Holds) (hbelow : c.All (s.Below v)) :
    (chooseByCalls (.split v) s c).run s = (monitored (choose c)).run s := by
  induction hw : c.weight using Nat.strongRecOn generalizing c s v with
  | ind m ih =>
    cases hform : c.form s.topVar with
    | known r =>
      rw [run_monitored_of_ok (run_choose_of_known hform)]
      rcases form_eq_known hform with hr | ⟨hnone, hr⟩
      · rw [chooseByCalls_of_known (orderly_split v) hr]
        rfl
      · obtain ⟨p, hp, -, -, -, hcall⟩ := exists_progress_simplify (s := s) (v := v) hnone
        rw [hcall, chooseByCalls_of_known hp hr]
        rfl
    | split n d =>
      obtain ⟨hnone, hnone', hn, hd⟩ := form_eq_split hform
      obtain ⟨hheld, htop, -⟩ := hs.of_form_split hc hform
      have hv := splitVar_ne_zero htop
      have hsimple := hc.simplify hs.stable_holds
      have hplain := plain_simplify hnone hnone'
      have hneg : -c.simplify.test ≠ c.simplify.test := Ref.neg_ne_self hsimple.1.1
      have htest (r : Ref) (hr : s.Holds r) (h : r ≠ .one ∧ r ≠ .zero) : s.topVar r ≠ 0 :=
        fun htop => (hs.eq_one_or_eq_zero hr htop).elim h.1 h.2
      have horient : (c.simplify.orient s.topVar).Plain := hplain.orient hneg
      have horiented := oriented_orient hplain.test_ne.1 hplain.test_ne.2 s.topVar_neg
      obtain ⟨p, hp, hplast, hexchanges, hcalls, hcall⟩ :=
        exists_progress_simplify (s := s) (v := v) hnone
      obtain ⟨q, hq, hqlast, hcall'⟩ := exists_progress_orient hp hexchanges hcalls hplain
        (htest _ hsimple.1 hplain.test_ne)
      rw [hcall, hcall', chooseByCalls_of_split hq horient
        (htest _ (hsimple.orient hs.stable_holds).1 horient.test_ne) horiented.exchange?_eq hn hd,
        run_monitored_congr (run_choose_of_split hform htop), monitored_bind]
      obtain ⟨r?, hrecalls, -⟩ := settled?_recalls hs d
      obtain ⟨s', hrun, hnodes, hs'⟩ := hrecalls.exists_run
      rw [run_bind_of_ok (run_monitored_of_ok hrun), run_bind_of_ok (run_monitored_of_ok hrun)]
      cases r? with
      | some r => rfl
      | none =>
        have hinc := includes_of_nodes_eq hnodes
        have hsplit := hinc.split_eq hheld
        have hlast : q.lastVar < s.splitVar d := by
          rw [hqlast, hplast]
          exact lt_splitVar hv (hbelow.form_split (s.stable_below v) hform)
        rw [Option.elim_none, Option.elim_none, hs.checkSplit_eq_ok hheld hv, demand_eq hlast,
          ← hsplit]
        have hv' : s'.splitVar d ≠ 0 := (hinc.cofactorChoice_eq (b := true) hheld).1 ▸ hv
        refine run_choosePartsByCalls hs' (hinc.all_holds hheld) hv' fun b t hext ht => ?_
        have hheld' := hinc.all_holds hheld
        have hparts := hs'.holds_cofactorChoice (b := b) hheld' hv'
        have hpbelow := hs'.below_cofactorChoice (b := b) hheld' hv'
        refine ih _ ?_ ht (hext.all_holds hparts) ((hext.all_below hparts).mpr hpbelow) rfl
        rw [(hinc.cofactorChoice_eq hheld).2]
        exact hw ▸ Nat.lt_of_lt_of_le (weight_cofactorChoice_lt htop)
          (weight_le_of_form_eq_split hform)

end StoreM

namespace DiagramStore

variable {s : DiagramStore} {f g h : Ref}

/-- The recursion for a choice ends, with what the choice comes to or because the store is full. No
operation on the way is denied and no demand on the calls is breached: between two splits there is
at most one call with a constant operand and one with an exchanged test, so that at most three calls
lie inside one another, and the variables of the splits ascend. -/
theorem Reached.ite_calls (hs : Reached s) (hf : s.Holds f) (hg : s.Holds g) (hh : s.Holds h) :
    (StoreM.chooseByCalls {} s ⟨f, g, h⟩).run s = (StoreM.monitored (StoreM.ite f g h)).run s ∧
      Ensures (StoreM.chooseByCalls {} s ⟨f, g, h⟩) s (fun r s' => s'.Holds r ∧ s.Preserves s')
        fun b s' => b = .halt (.full s.capacity) ∧ s'.size = s'.capacity - 1 := by
  have hwf := hs.wellFormed
  have hc : (⟨f, g, h⟩ : Choice).All s.Holds := ⟨hf, hg, hh⟩
  have hrun : (StoreM.chooseByCalls {} s ⟨f, g, h⟩).run s =
      (StoreM.monitored (StoreM.ite f g h)).run s :=
    StoreM.run_chooseByCalls hwf hc ⟨s.below_zero_var f, s.below_zero_var g, s.below_zero_var h⟩
  refine ⟨hrun, ?_⟩
  rw [Ensures, hrun]
  refine (StoreM.choose_grows hwf hc).adapt.mono ?_ ?_
  · rintro r s' ⟨hext, -, hr⟩
    exact ⟨hr.holds, hext.preserves hwf.toReduced⟩
  · rintro b s' ⟨e, rfl, hfail⟩
    have hfull : e = .full s.capacity := hfail.isFull
    exact ⟨congrArg Breach.halt hfull, hfail.size_eq_capacity_sub_one⟩

/-- A disjunction asked for as a choice that repeats its test, with the later variable first: it is
called twice more before it is split. -/
theorem Reached.ite_calls_crossing :
    Reached crossing ∧ crossing.Holds ⟨3⟩ ∧ crossing.Holds ⟨2⟩ ∧
      Choice.constantOperand? ⟨⟨3⟩, ⟨3⟩, ⟨2⟩⟩ = some ⟨⟨3⟩, .one, ⟨2⟩⟩ ∧
      Choice.exchange? crossing.topVar ⟨⟨3⟩, .one, ⟨2⟩⟩ = some ⟨⟨2⟩, .one, ⟨3⟩⟩ ∧
      ((StoreM.chooseByCalls {} crossing ⟨⟨3⟩, ⟨3⟩, ⟨2⟩⟩).run crossing).1.toOption = some ⟨5⟩ := by
  have hlater : crossing.Holds ⟨3⟩ := by decide +kernel
  have hfirst : crossing.Holds ⟨2⟩ := by decide +kernel
  refine ⟨crossing_reached, hlater, hfirst, by decide, by decide +kernel, ?_⟩
  rw [(Reached.ite_calls crossing_reached hlater hlater hfirst).1]
  decide +kernel

end DiagramStore

end AndInverter
