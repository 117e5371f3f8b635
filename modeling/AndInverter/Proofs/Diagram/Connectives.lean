import AndInverter.Proofs.Diagram.ComputedTable
import AndInverter.Proofs.Diagram.Nodes

/-!
# Choices come out settled

Splitting a choice at the first variable its operands test leads to choices of less weight. What
they come to is joined by a node, and what the store remembers stays settled.
-/

namespace AndInverter

namespace DiagramStore

variable {s s' : DiagramStore} {x : Nat → Bool} {c d : Choice} {e t r : Ref} {b : Bool}
  {v w : Nat}

/-- What the parts of a choice come to, joined by a node, is right for the choice. -/
theorem Settled.of_split (hc : c.All s.Holds) (hv : s.splitVar c ≠ 0)
    (hform : c.form s.topVar = .split false c)
    (hlow : s.Settled (s.cofactorChoice c false) e) (hhigh : s.Settled (s.cofactorChoice c true) t)
    (hr : s.Tests (s.splitVar c) e t r) : s.Settled c r where
  all_holds := hc
  holds := hr.holds
  below hb := hr.below (lt_splitVar hv hb)
  eval_eq_iff x := by
    rw [hr.eval_eq, ← denote_cofactorChoice hv, errs_iff_of_form_split hform]
    cases hx : x (s.splitVar c) with
    | false => exact hlow.eval_eq_iff x
    | true => exact hhigh.eval_eq_iff x

/-- Another memory of settled choices keeps the store well-formed. -/
theorem WellFormed.of_computed (hs : s.WellFormed) (computed : ComputedTable Choice Ref)
    (h : ∀ (i : Nat) c r, computed.slots[i]? = some (some (c, r)) → s.Settled c r ∧ c.Regular) :
    s.Extends ⟨s.nodes, computed⟩ ∧ (⟨s.nodes, computed⟩ : DiagramStore).WellFormed := by
  have hext : s.Extends ⟨s.nodes, computed⟩ := ⟨⟨Nat.le_refl _, fun _ _ => rfl⟩, rfl⟩
  refine ⟨hext, ⟨hs.table, hs.capacity_le, hs.size_pos, hs.terminal, fun hi hle => ?_, hs.found⟩,
    fun hi => (h _ _ _ hi).1.of_extends hs.toReduced hext, fun hi => (h _ _ _ hi).2⟩
  exact hext.proper (Nat.le_succ_of_le hle) (hs.proper hi hle)

end DiagramStore

namespace StoreM

open DiagramStore

variable {s s' : DiagramStore} {c : Choice} {e f g t r : Ref}

theorem settled?_grows (hs : s.WellFormed) (c : Choice) :
    Grows (settled? c) s fun r? s' => ∀ r, r? = some r → s'.Settled c r ∧ c.Regular := by
  have hslots : (s.computed.lookup c).2.slots = s.computed.slots := s.computed.slots_lookup c
  obtain ⟨hext, hs'⟩ := hs.of_computed (s.computed.lookup c).2 fun i d r h =>
    ⟨hs.settled (hslots ▸ h), hs.regular (hslots ▸ h)⟩
  refine Ensures.updateGet ⟨hext, hs', fun r hr => ?_⟩
  change (s.computed.lookup c).1 = some r at hr
  rw [ComputedTable.lookup_fst, ComputedTable.find?_eq_some_iff] at hr
  obtain ⟨k, hk, hentry⟩ := hr
  obtain rfl := eq_of_beq hk
  exact ⟨(hs.settled hentry).of_extends hs.toReduced hext, hs.regular hentry⟩

theorem remember_grows (hs : s.WellFormed) (hr : s.Settled c r) (hregular : c.Regular) :
    Grows (remember c r) s fun _ s' => s'.Settled c r := by
  obtain ⟨hext, hs'⟩ := hs.of_computed (s.computed.insert c r) fun i d q h => by
    change (s.computed.slots.set (bucket s.computed.slots_pos c) (some (c, r)))[i]? = _ at h
    rw [Array.getElem?_set] at h
    split at h
    · cases h
      exact ⟨hr, hregular⟩
    · exact ⟨hs.settled h, hs.regular h⟩
  exact Ensures.update ⟨hext, hs', hr.of_extends hs.toReduced hext⟩

theorem node_cofactors_grows (hs : s.WellFormed) (hc : c.All s.Holds) (hv : s.splitVar c ≠ 0)
    (hform : c.form s.topVar = .split false c)
    (he : s.Settled (s.cofactorChoice c false) e) (ht : s.Settled (s.cofactorChoice c true) t) :
    Grows (node (s.splitVar c) e t) s fun r s' => s'.Settled c r := by
  have hbelow (b : Bool) := hs.below_cofactorChoice (b := b) hc hv
  refine (node_grows hs hv he.holds ht.holds (he.below (hbelow false))
    (ht.below (hbelow true))).imp fun r s' hext hs' hr => ?_
  obtain ⟨hsplit, hfalse⟩ := hext.cofactorChoice_eq (b := false) hc
  obtain ⟨-, htrue⟩ := hext.cofactorChoice_eq (b := true) hc
  exact .of_split (hext.all_holds hc) (hsplit ▸ hv) ((hext.form_eq hs.toReduced hc).trans hform)
    (hfalse ▸ he.of_extends hs.toReduced hext) (htrue ▸ ht.of_extends hs.toReduced hext)
    (hsplit ▸ hr)

/-- A choice comes out settled, unless the store runs full. -/
theorem choose_grows (hs : s.WellFormed) (hc : c.All s.Holds) :
    Grows (choose c) s fun r s' => s'.Settled c r := by
  induction hw : c.weight using Nat.strongRecOn generalizing c s with
  | ind m ih =>
    rw [choose]
    refine .bindGet ?_
    split
    · rename_i r hform
      exact .result hs (.of_form_known hs.toReduced hc hform)
    · rename_i n d hform
      obtain ⟨hd, htop, hself⟩ := hs.of_form_split hc hform
      have hv := splitVar_ne_zero htop
      have hlt (b : Bool) : (s.cofactorChoice d b).weight < m :=
        hw ▸ Nat.lt_of_lt_of_le (weight_cofactorChoice_lt htop)
          (Choice.weight_le_of_form_eq_split hform)
      have hparts (b : Bool) := hs.holds_cofactorChoice (b := b) hd hv
      rw [dif_neg htop]
      refine (settled?_grows hs d).bind fun r? s₁ hext₁ hs₁ hr? => ?_
      cases r? with
      | some r =>
        exact .result hs₁ (.of_form_split hs₁.toReduced (hext₁.all_holds hc)
          ((hext₁.form_eq hs.toReduced hc).trans hform) (hr? r rfl).1)
      | none =>
        refine .bindFault (hs.checkSplit_eq_ok hd hv) ?_
        refine (ih _ (hlt false) hs₁ (hext₁.all_holds (hparts false)) rfl).bind
          fun e s₂ hext₂ hs₂ he => ?_
        have hext₂ := hext₁.trans hext₂
        refine (ih _ (hlt true) hs₂ (hext₂.all_holds (hparts true)) rfl).bind
          fun t s₃ hext₃ hs₃ ht => ?_
        have he := he.of_extends hs₂.toReduced hext₃
        have hext₃ := hext₂.trans hext₃
        -- The parts were taken in the first store; the last one would take the same.
        obtain ⟨hsplit, hfalse⟩ := hext₃.cofactorChoice_eq (b := false) hd
        obtain ⟨-, htrue⟩ := hext₃.cofactorChoice_eq (b := true) hd
        change Grows (node (s.splitVar d) e t >>= _) _ _
        rw [← hsplit]
        refine (node_cofactors_grows hs₃ (hext₃.all_holds hd) (hsplit ▸ hv)
          ((hext₃.form_eq hs.toReduced hd).trans hself) (hfalse ▸ he) (htrue ▸ ht)).bind
          fun r s₄ hext₄ hs₄ hr => ?_
        refine (remember_grows hs₄ hr (Choice.regular_of_form hform)).bind
          fun _ s₅ hext₅ hs₅ hr => .result hs₅ ?_
        have hext₅ := (hext₃.trans hext₄).trans hext₅
        exact .of_form_split hs₅.toReduced (hext₅.all_holds hc)
          ((hext₅.form_eq hs.toReduced hc).trans hform) hr

theorem connective_grows (hs : s.WellFormed) (hc : c.All s.Holds) (hconn : c.IsConnective) :
    Grows (choose c) s fun r s' => s'.Denotes (fun x => c.denote (s.eval x)) r :=
  (choose_grows hs hc).imp fun _ _ hext hs' hr => ⟨hr.holds, fun x => by
    rw [hr.eval_eq hs'.toReduced hconn, hext.denote_eq hs.toReduced hc]⟩

theorem and_grows (hs : s.WellFormed) (hf : s.Holds f) (hg : s.Holds g) :
    Grows (and f g) s fun r s' => s'.Denotes (fun x => s.eval x f && s.eval x g) r := by
  refine (connective_grows (c := ⟨f, g, .zero⟩) hs ⟨hf, hg, holds_zero hs.toReduced⟩
    (.inl rfl)).imp fun r s' _ _ hr => ⟨hr.holds, fun x => ?_⟩
  simp [hr.eval_eq, Choice.denote, eval_zero]

theorem or_grows (hs : s.WellFormed) (hf : s.Holds f) (hg : s.Holds g) :
    Grows (or f g) s fun r s' => s'.Denotes (fun x => s.eval x f || s.eval x g) r := by
  refine (connective_grows (c := ⟨f, .one, g⟩) hs ⟨hf, holds_one hs.toReduced, hg⟩
    (.inr (.inr (.inl rfl)))).imp fun r s' _ _ hr => ⟨hr.holds, fun x => ?_⟩
  simp [hr.eval_eq, Choice.denote, eval_one]

theorem xor_grows (hs : s.WellFormed) (hf : s.Holds f) (hg : s.Holds g) :
    Grows (xor f g) s fun r s' => s'.Denotes (fun x => s.eval x f ^^ s.eval x g) r := by
  refine (connective_grows (c := ⟨f, -g, g⟩) hs ⟨hf, holds_neg.mpr hg, hg⟩
    (.inr (.inr (.inr (Ref.neg_neg g).symm)))).imp
    fun r s' _ _ hr => ⟨hr.holds, fun x => ?_⟩
  rw [hr.eval_eq, Choice.denote, hs.eval_neg hg]
  cases s.eval x f <;> simp

theorem iff_grows (hs : s.WellFormed) (hf : s.Holds f) (hg : s.Holds g) :
    Grows (iff f g) s fun r s' => s'.Denotes (fun x => s.eval x f == s.eval x g) r := by
  refine (connective_grows (c := ⟨f, g, -g⟩) hs ⟨hf, hg, holds_neg.mpr hg⟩
    (.inr (.inr (.inr rfl)))).imp fun r s' _ _ hr => ⟨hr.holds, fun x => ?_⟩
  rw [hr.eval_eq, Choice.denote, hs.eval_neg hg]
  cases s.eval x f <;> simp

theorem foldlM_and_grows (hs : s.WellFormed) (hf : s.Holds f) {fs : List Ref}
    (hfs : ∀ g ∈ fs, s.Holds g) :
    Grows (fs.foldlM and f) s
      fun r s' => s'.Denotes (fun x => s.eval x f && fs.all (s.eval x)) r := by
  induction fs generalizing s f with
  | nil => exact .result hs ⟨hf, fun x => (Bool.and_true _).symm⟩
  | cons g fs ih =>
    rw [List.foldlM_cons]
    obtain ⟨hg, hfs⟩ := List.forall_mem_cons.mp hfs
    refine (and_grows hs hf hg).bind fun r s₁ hext hs₁ hr => ?_
    refine (ih hs₁ hr.holds fun k hk => hext.holds (hfs k hk)).imp
      fun q s₂ _ _ hq => ⟨hq.holds, fun x => ?_⟩
    have hall : fs.all (s₁.eval x) = fs.all (s.eval x) := by
      rw [Bool.eq_iff_iff, List.all_eq_true, List.all_eq_true]
      exact forall₂_congr fun k hk => by rw [hext.eval_eq hs.toReduced (hfs k hk)]
    rw [hq.eval_eq, hr.eval_eq, hall, List.all_cons, Bool.and_assoc]

theorem conjunction_grows (hs : s.WellFormed) {fs : List Ref} (hfs : ∀ g ∈ fs, s.Holds g) :
    Grows (conjunction fs) s fun r s' => s'.Denotes (fun x => fs.all (s.eval x)) r := by
  refine (foldlM_and_grows hs (holds_one hs.toReduced) hfs).imp
    fun r s' _ _ hr => ⟨hr.holds, fun x => ?_⟩
  rw [hr.eval_eq, eval_one, Bool.true_and]

end StoreM

end AndInverter
