import AndInverter.Proofs.Diagram.Carrying
import Mathlib.Data.Finset.Card
import Mathlib.Order.Interval.Finset.Nat

/-!
# Stores that fit into another

A store fits into another one if each of its functions has a reference there. A function has one
node only, up to the sign, so a store that fits has no more nodes than the other. Where the other
store already holds what an operation makes, the operation finds room, in whatever order nodes were
added.
-/

namespace AndInverter

open DiagramStore

namespace DiagramStore

variable {s s' t : DiagramStore} {F G : (Nat → Bool) → Bool} {f q r : Ref} {b : Bool} {v w : Nat}

/-- One node has one function, up to the sign. -/
theorem Denotes.eq_or_eq_not (hs : s.Reduced) (hq : s.Denotes F q) (hr : s.Denotes G r)
    (h : q.index = r.index) : (∀ x, F x = G x) ∨ ∀ x, F x = !G x := by
  have hqr : q = r ∨ q = -r := by
    rcases q with ⟨c⟩
    rcases r with ⟨d⟩
    change c.natAbs = d.natAbs at h
    change (⟨c⟩ : Ref) = ⟨d⟩ ∨ (⟨c⟩ : Ref) = ⟨-d⟩
    rw [Ref.mk.injEq, Ref.mk.injEq]
    omega
  rcases hqr with rfl | rfl
  · exact .inl fun x => (hq.eval_eq x).symm.trans (hr.eval_eq x)
  · refine .inr fun x => ?_
    rw [← hq.eval_eq, ← hr.eval_eq, hs.eval_neg hr.holds]

/-- A function that tests no variable before `v` has its cofactors at `v` in the store. -/
theorem Denotes.cofactor (h : s.Denotes F q) (hs : s.Reduced) (hv : v ≠ 0)
    (hF : ∀ x y : Nat → Bool, (∀ u, v ≤ u → x u = y u) → F x = F y) (b : Bool) :
    s.Denotes (fun x => F (Function.update x v b)) (s.cofactor v b q) := by
  have hbelow : s.Below (v - 1) q := by
    apply hs.below_of_congr h.holds
    intro x y hxy
    rw [h.eval_eq, h.eval_eq]
    exact hF x y fun u hu => hxy u (by omega)
  have hle : s.topVar q = 0 ∨ v ≤ s.topVar q := hbelow.imp_right (by omega)
  exact ⟨hs.holds_cofactor h.holds hv, fun x => by rw [hs.eval_cofactor h.holds hv hle, h.eval_eq]⟩

/-- The restriction of a function depends only on variables that the function may test. -/
theorem Reduced.eval_update_congr (hs : s.Reduced) (hf : s.Holds f) {x y : Nat → Bool}
    (hxy : ∀ u, s.topVar f ≤ u → x u = y u) :
    s.eval (Function.update x v b) f = s.eval (Function.update y v b) f := by
  by_cases htop : s.topVar f = 0
  · rw [eval_of_topVar_eq_zero htop, eval_of_topVar_eq_zero htop]
  · apply hs.eval_congr hf (v := s.topVar f - 1) (.inr (by omega))
    intro u hu
    by_cases huv : u = v
    · rw [huv, Function.update_self, Function.update_self]
    · rw [Function.update_of_ne huv, Function.update_of_ne huv, hxy u (by omega)]

/-- The restriction at a later variable has the restrictions of the children as its cofactors. -/
theorem Reduced.eval_update_child (hs : s.Reduced) (hf : s.Holds f) (htop : s.topVar f ≠ 0)
    (hv : s.topVar f < v) {e : Bool} {x : Nat → Bool} :
    s.eval (Function.update (Function.update x (s.topVar f) e) v b) f =
      s.eval (Function.update x v b) (s.child f e) := by
  have hone := one_lt_index htop
  rw [eval_of_topVar_ne_zero htop, Function.update_of_ne (Nat.ne_of_lt hv), Function.update_self]
  apply hs.eval_congr (hs.holds_child hf hone) (hs.below_child hf hone)
  intro u hu
  by_cases huv : u = v
  · rw [huv, Function.update_self, Function.update_self]
  · rw [Function.update_of_ne huv, Function.update_of_ne huv,
      Function.update_of_ne (Nat.ne_of_gt hu)]

/-- A node is found where the store has a reference to its function. -/
theorem Reduced.exists_found (hs : s.Reduced) {n : DiagramNode} (hn : s.Proper (s.size + 1) n)
    (hr : s.Denotes (fun x => if x n.var then s.eval x n.high else s.eval x n.low) r) :
    ∃ i, s.nodes.search n = .found i := by
  have hlow := hn.holds_low (Nat.le_refl _)
  have hhigh := hn.holds_high (Nat.le_refl _)
  have hcofactor (b : Bool) : s.Denotes (s.eval · (if b then n.high else n.low))
      (s.cofactor n.var b r) := by
    refine (hr.cofactor hs hn.var_ne_zero (fun x y hxy => ?_) b).congr fun x => ?_
    · rw [hxy _ (Nat.le_refl _), hs.eval_congr hlow hn.below_low fun u hu => hxy u (by omega),
        hs.eval_congr hhigh hn.below_high fun u hu => hxy u (by omega)]
    · have hsame (u : Nat) (hu : n.var < u) : Function.update x n.var b u = x u :=
        Function.update_of_ne (by omega) _ _
      rw [Function.update_self, hs.eval_congr hlow hn.below_low hsame,
        hs.eval_congr hhigh hn.below_high hsame]
      cases b <;> rfl
  have hfalse := hs.eq_of_eval_eq (hcofactor false).holds hlow (hcofactor false).eval_eq
  have htrue := hs.eq_of_eval_eq (hcofactor true).holds hhigh (hcofactor true).eval_eq
  have htop : s.topVar r = n.var := by
    by_contra hne
    apply hn.low_ne_high
    rw [← hfalse, ← htrue, DiagramStore.cofactor, DiagramStore.cofactor, if_neg hne, if_neg hne]
  have hone : 1 < r.index := one_lt_index (htop ▸ hn.var_ne_zero)
  have hproper := hs.proper hone hr.holds.2
  rw [DiagramStore.cofactor, if_pos htop, hs.child_eq hr.holds hone] at hfalse htrue
  simp only [if_true, Bool.false_eq_true, if_false] at hfalse htrue
  -- The high child carries no sign, so the reference carries none.
  obtain ⟨hgethigh, hsign⟩ := Ref.eq_of_negIf_eq hproper.high_regular hproper.high_pos
    hn.high_regular hn.high_pos (d := false) htrue
  rw [hsign] at hfalse
  have hnode : s.nodes.get r.index = n := by
    rcases hget : s.nodes.get r.index with ⟨u, low, high⟩
    rw [topVar_eq hone, hget] at htop
    rw [hget] at hfalse hgethigh
    rcases n with ⟨u', low', high'⟩
    rw [DiagramNode.mk.injEq]
    exact ⟨htop, hfalse, hgethigh⟩
  exact ⟨r.index, hnode ▸ hs.found hone hr.holds.2⟩

/-- All functions of the first store have references in the second one, which has no more cells. -/
structure Fits (s t : DiagramStore) : Prop where
  capacity_le : t.capacity ≤ s.capacity
  exists_denotes (r : Ref) : s.Holds r → ∃ q, t.Denotes (s.eval · r) q

namespace Fits

theorem of_extends (hs : s.Reduced) (h : s.Extends t) : s.Fits t :=
  ⟨Nat.le_of_eq h.capacity_eq, fun r hr => ⟨r, h.holds hr, fun _ => h.eval_eq hs hr⟩⟩

theorem of_nodes_eq (h : s.Fits t) (hs : s.Reduced) (hs' : s'.nodes = s.nodes) : s'.Fits t := by
  have hinc := includes_of_nodes_eq hs'
  refine ⟨?_, fun r hr => ?_⟩
  · have hcapacity : s'.capacity = s.capacity := by rw [capacity, capacity, hs']
    rw [hcapacity]
    exact h.capacity_le
  · have hr' : s.Holds r := by rwa [Holds, size, ← hs']
    obtain ⟨q, hq⟩ := h.exists_denotes r hr'
    exact ⟨q, hq.congr fun x => (hinc.eval_eq hs hr').symm⟩

/-- A new node has a place where the other store holds its function. -/
theorem of_adds (h : s.Fits t) (hs : s.Reduced) (ht : t.Reduced) {n : DiagramNode}
    (hn : s.Proper (s.size + 1) n) {nodes : UniqueTable DiagramNode} (hadds : s.nodes.Adds nodes n)
    (hq : t.Denotes (fun x => if x n.var then s.eval x n.high else s.eval x n.low) q) :
    Fits ⟨nodes, s.computed⟩ t := by
  obtain ⟨hext, hreduced, hsize, hget⟩ := hs.of_adds hn hadds
  refine ⟨?_, fun r hr => ?_⟩
  · rw [hext.capacity_eq]
    exact h.capacity_le
  by_cases hold : r.index ≤ s.size
  · obtain ⟨q, hq⟩ := h.exists_denotes r ⟨hr.1, hold⟩
    exact ⟨q, hq.congr fun x => (hext.eval_eq hs ⟨hr.1, hold⟩).symm⟩
  · have hindex : r.index = s.size + 1 := by
      have hle : r.index ≤ nodes.size := hr.2
      omega
    have hlow := hn.holds_low (Nat.le_refl _)
    have hhigh := hn.holds_high (Nat.le_refl _)
    have hspos := hs.size_pos
    have htests := hreduced.tests_get (i := s.size + 1) (by omega) (Nat.le_of_eq hsize.symm)
    change Tests _ (nodes.get _).var (nodes.get _).low (nodes.get _).high _ at htests
    rw [hget] at htests
    have hplain := hq.congr fun x => by
      rw [← hext.eval_eq hs hlow, ← hext.eval_eq hs hhigh, ← htests.eval_eq]
    by_cases hsign : r.IsNegated
    · rw [Ref.eq_neg_of_isNegated hsign, hindex]
      exact ⟨-q, (hplain.neg ht).congr fun x => (hreduced.eval_neg htests.holds).symm⟩
    · rw [Ref.eq_of_not_isNegated hsign, hindex]
      exact ⟨q, hplain⟩

/-- Where a function is missing, there is a node less. -/
theorem size_lt (h : s.Fits t) (hs : s.Reduced) (ht : t.Reduced) (hq : t.Denotes F q)
    (hnew : ∀ r, ¬ s.Denotes F r) : s.size < t.size := by
  have hplain (i : Nat) : (⟨i⟩ : Ref).index = i := Int.natAbs_natCast i
  have hholds {i : Nat} (hi : i ∈ Finset.Icc 1 s.size) : s.Holds ⟨i⟩ := by
    rw [Holds, hplain]
    exact Finset.mem_Icc.mp hi
  choose! place hplace using h.exists_denotes
  have hin {p : Ref} {G : (Nat → Bool) → Bool} (hp : t.Denotes G p) :
      p.index ∈ Finset.Icc 1 t.size := Finset.mem_Icc.mpr hp.holds
  have hinj : Set.InjOn (fun i : Nat => (place ⟨i⟩).index) (Finset.Icc 1 s.size) := by
    intro i hi j hj hij
    have hi := hholds hi
    have hj := hholds hj
    rcases Denotes.eq_or_eq_not ht (hplace _ hi) (hplace _ hj) hij with heq | hnot
    · have := congrArg Ref.index (hs.eq_of_eval_eq hi hj heq)
      rwa [hplain, hplain] at this
    · have := congrArg Ref.index (hs.eq_of_eval_eq hi (holds_neg.mpr hj) fun x => by
        rw [hnot x, hs.eval_neg hj])
      rwa [Ref.index_neg, hplain, hplain] at this
  have hfresh : q.index ∉ (Finset.Icc 1 s.size).image fun i : Nat => (place ⟨i⟩).index := by
    intro hmem
    obtain ⟨i, hi, hiq⟩ := Finset.mem_image.mp hmem
    have hi := hholds hi
    rcases Denotes.eq_or_eq_not ht hq (hplace _ hi) hiq.symm with heq | hnot
    · exact hnew _ ⟨hi, fun x => (heq x).symm⟩
    · exact hnew (-⟨i⟩) ⟨holds_neg.mpr hi, fun x => by rw [hs.eval_neg hi, hnot x]⟩
  have hsub : insert q.index ((Finset.Icc 1 s.size).image fun i : Nat => (place ⟨i⟩).index) ⊆
      Finset.Icc 1 t.size := by
    apply Finset.insert_subset (hin hq)
    intro j hj
    obtain ⟨i, hi, rfl⟩ := Finset.mem_image.mp hj
    exact hin (hplace _ (hholds hi))
  have hcard := Finset.card_le_card hsub
  rw [Finset.card_insert_of_notMem hfresh, Finset.card_image_of_injOn hinj, Nat.card_Icc,
    Nat.card_Icc] at hcard
  omega

end Fits

end DiagramStore

def FindsRoom {ε α : Type} (op : ExceptT ε (StateM DiagramStore) α) (s t : DiagramStore) : Prop :=
  Ensures op s (fun _ s' => s'.Fits t) fun _ _ => False

namespace FindsRoom

variable {ε α β : Type} {op op' : ExceptT ε (StateM DiagramStore) α}
  {k : α → ExceptT ε (StateM DiagramStore) β} {s s' t : DiagramStore} {a : α}
  {P : α → DiagramStore → Prop}

theorem result (h : s.Fits t) (a : α) :
    FindsRoom (pure a : ExceptT ε (StateM DiagramStore) α) s t := h

theorem of_recalls (h : s.Fits t) (hs : s.Reduced) (hop : Recalls op s a) : FindsRoom op s t :=
  hop.mono (fun _ _ ⟨_, hnodes, _⟩ => h.of_nodes_eq hs hnodes) fun _ _ => id

theorem of_run_eq (h : FindsRoom op' s' t) (hrun : op.run s = op'.run s') : FindsRoom op s t := by
  rw [FindsRoom, Ensures, hrun]
  exact h

theorem adapt {ε' : Type} (h : FindsRoom op s t) (f : ε → ε') : FindsRoom (op.adapt f) s t :=
  (Ensures.adapt h).mono (fun _ _ => id) fun _ _ ⟨_, _, hfalse⟩ => hfalse

theorem bind [Exhaustion ε] (h : FindsRoom op s t) (hop : Grows op s P)
    (hk : ∀ a s', s.Extends s' → s'.WellFormed → P a s' → s'.Fits t → FindsRoom (k a) s' t) :
    FindsRoom (op >>= k) s t := by
  obtain ⟨a, hrun, hfits⟩ := h.exists_result
  have hrun : op.run s = (.ok a, (op.run s).2) := Prod.ext hrun rfl
  simp only [Grows, Ensures] at hop
  rw [hrun] at hop
  obtain ⟨hext, hs', ha⟩ := hop
  exact (hk a _ hext hs' ha hfits).of_run_eq (run_bind_of_ok hrun)

end FindsRoom

namespace StoreM

variable {s t : DiagramStore} {F : (Nat → Bool) → Bool} {c d : Choice} {f g low high q r : Ref}
  {b : Bool} {v : Nat}

theorem nodeOf_findsRoom (hs : s.WellFormed) (ht : t.Reduced) (h : s.Fits t) {n : DiagramNode}
    (hn : s.Proper (s.size + 1) n)
    (hq : t.Denotes (fun x => if x n.var then s.eval x n.high else s.eval x n.low) q) :
    FindsRoom (nodeOf n) s t := by
  rcases hs.intern_cases n with
    ⟨j, hfound, -⟩ | ⟨hfull, hnone⟩ | ⟨nodes, -, hsome, hadds, -⟩
  · exact .of_recalls h hs.toReduced (nodeOf_recalls hs hfound)
  · -- A full store that lacks the function has fewer nodes than the other, which has no more cells.
    have hlt := h.size_lt hs.toReduced ht hq fun r hr => by
      obtain ⟨i, hfound⟩ := hs.exists_found hn hr
      rw [UniqueTable.intern, hfound] at hnone
      cases hnone
    have hsize := ht.size_lt
    have hcapacity := h.capacity_le
    unfold IsFull at hfull
    omega
  · rw [FindsRoom, Ensures, run_nodeOf_of_some hsome]
    exact h.of_adds hs.toReduced ht hn hadds hq

theorem node_findsRoom (hs : s.WellFormed) (ht : t.Reduced) (h : s.Fits t) (hv : v ≠ 0)
    (hlow : s.Holds low) (hhigh : s.Holds high) (hblow : s.Below v low) (hbhigh : s.Below v high)
    (hq : t.Denotes (fun x => if x v then s.eval x high else s.eval x low) q) :
    FindsRoom (node v low high) s t := by
  unfold node
  rw [if_neg hv]
  by_cases heq : low = high
  · rw [if_pos heq, if_pos heq]
    split
    · exact .result h low
    · exact .result h low
  · rw [if_neg heq, if_neg heq]
    split
    · rename_i hsign
      have hproper := proper_neg_of_holds hv hsign heq hlow hhigh hblow hbhigh
      have hneg := (hq.neg ht).congr (G := fun x =>
        if x v then s.eval x (-high) else s.eval x (-low)) fun x => by
          rw [hs.eval_neg hlow, hs.eval_neg hhigh]
          cases x v <;> rfl
      exact (nodeOf_findsRoom hs ht h hproper hneg).bind (nodeOf_grows hs hproper)
        fun r s' _ _ _ h => .result h _
    · rename_i hsign
      exact nodeOf_findsRoom hs ht h (proper_of_holds hv hsign heq hlow hhigh hblow hbhigh) hq

/-- The parts of a connective are cofactors of the whole, so the other store holds them as well. -/
theorem chooseParts_findsRoom (hs : s.WellFormed) (ht : t.Reduced) (h : s.Fits t)
    (hd : d.All s.Holds) (hv : s.splitVar d ≠ 0) (hconn : d.IsConnective)
    (hq : t.Denotes (fun x => d.denote (s.eval x)) q) (negated : Bool)
    (hparts : ∀ (b : Bool) (s' : DiagramStore) (p : Ref), s.Extends s' → s'.WellFormed →
      s'.Fits t → t.Denotes (fun x => (s.cofactorChoice d b).denote (s'.eval x)) p →
      FindsRoom (choose (s.cofactorChoice d b)) s' t) :
    FindsRoom (chooseParts (s.split d) d negated) s t := by
  have hheld (b : Bool) := hs.holds_cofactorChoice (b := b) hd hv
  have hbelow (b : Bool) := hs.below_cofactorChoice (b := b) hd hv
  have hpconn (b : Bool) := isConnective_cofactorChoice (b := b) hd hv hconn
  have hlater : ∀ x y : Nat → Bool, (∀ u, s.splitVar d ≤ u → x u = y u) →
      d.denote (s.eval x) = d.denote (s.eval y) := by
    intro x y hxy
    have hoperand {r : Ref} (hr : s.Holds r) (hle : s.topVar r = 0 ∨ s.splitVar d ≤ s.topVar r) :
        s.eval x r = s.eval y r :=
      hs.eval_congr hr (v := s.splitVar d - 1) (hle.imp_right (by omega)) fun u hu =>
        hxy u (by omega)
    obtain ⟨htest, hhigh, hlow⟩ := s.splitVar_le d
    rw [Choice.denote, Choice.denote, hoperand hd.1 htest, hoperand hd.2.1 hhigh,
      hoperand hd.2.2 hlow]
  have hpart (b : Bool) := (hq.cofactor ht hv hlater b).congr fun x =>
    (hs.denote_cofactorChoice hd hv x).symm
  refine (hparts false s _ (.refl s) hs h (hpart false)).bind (choose_grows hs (hheld false))
    fun e s₁ hext hs₁ he h₁ => ?_
  have hheld₁ := hext.all_holds (hheld true)
  have hpart₁ := (hpart true).congr fun x => (hext.denote_eq hs.toReduced (hheld true) x).symm
  refine (hparts true s₁ _ hext hs₁ h₁ hpart₁).bind (choose_grows hs₁ hheld₁)
    fun r s₂ hext₂ hs₂ hr h₂ => ?_
  have he := he.of_extends hs₁.toReduced hext₂
  have hinc := hext.trans hext₂
  have hblow := he.below ((hinc.all_below (hheld false)).mpr (hbelow false))
  have hbhigh := hr.below ((hinc.all_below (hheld true)).mpr (hbelow true))
  have hnode := hq.congr (G := fun x =>
      if x (s.splitVar d) then s₂.eval x r else s₂.eval x e) fun x => by
    rw [he.eval_eq hs₂.toReduced (hpconn false), hr.eval_eq hs₂.toReduced (hpconn true),
      hinc.denote_eq hs.toReduced (hheld true), hinc.denote_eq hs.toReduced (hheld false),
      ← denote_cofactorChoice hv]
    cases x (s.splitVar d) <;> rfl
  refine (node_findsRoom hs₂ ht h₂ hv he.holds hr.holds hblow hbhigh hnode).bind
    (node_grows hs₂ hv he.holds hr.holds hblow hbhigh) fun p s₃ _ hs₃ _ h₃ => ?_
  exact h₃.of_nodes_eq hs₃.toReduced rfl

/-- A connective finds room where its function is held, whatever is remembered of its parts. -/
theorem choose_findsRoom (hs : s.WellFormed) (ht : t.Reduced) (h : s.Fits t) (hc : c.All s.Holds)
    (hconn : c.IsConnective) (hq : t.Denotes (fun x => c.denote (s.eval x)) q) :
    FindsRoom (choose c) s t := by
  induction hw : c.weight using Nat.strongRecOn generalizing c s q with
  | ind m ih =>
    rcases choose_cases hs hc with ⟨r, -, hr⟩ | ⟨n, d, s₁, hform, hnodes, hs₁, hrun⟩
    · exact .of_recalls h hs.toReduced hr
    refine FindsRoom.of_run_eq ?_ hrun
    obtain ⟨hd, htop, -⟩ := hs.of_form_split hc hform
    have hv := splitVar_ne_zero htop
    have hdconn := hconn.form_split hform
    have hlt (b : Bool) : (s.cofactorChoice d b).weight < m :=
      hw ▸ Nat.lt_of_lt_of_le (weight_cofactorChoice_lt htop)
        (Choice.weight_le_of_form_eq_split hform)
    have hinc := includes_of_nodes_eq hnodes
    have hparts (b : Bool) := hs.holds_cofactorChoice (b := b) hd hv
    have hwhole : ∃ p, t.Denotes (fun x => d.denote (s₁.eval x)) p := by
      have hdenote (x : Nat → Bool) := Choice.denote_form_split hs.stable_holds (hs.valuation x) hc
        hform
      cases n with
      | false => exact ⟨q, hq.congr fun x => by
          rw [hinc.denote_eq hs.toReduced hd, ← hdenote x, Bool.xor_false]⟩
      | true => exact ⟨-q, (hq.neg ht).congr fun x => by
          rw [hinc.denote_eq hs.toReduced hd, ← hdenote x, Bool.xor_true, Bool.not_not]⟩
    obtain ⟨p, hp⟩ := hwhole
    rw [← hinc.split_eq hd]
    refine chooseParts_findsRoom hs₁ ht (h.of_nodes_eq hs.toReduced hnodes) (hinc.all_holds hd) ?_
      hdconn hp n fun b s' p hext hs' h' hp => ?_
    · rw [(hinc.cofactorChoice_eq (b := true) hd).1]
      exact hv
    · rw [(hinc.cofactorChoice_eq hd).2] at hp ⊢
      have hheld := (hinc.trans hext.toIncludes).all_holds (hparts b)
      exact ih _ (hlt b) hs' h' hheld (isConnective_cofactorChoice hd hv hdconn) hp rfl

theorem and_findsRoom (hs : s.WellFormed) (ht : t.Reduced) (h : s.Fits t) (hf : s.Holds f)
    (hg : s.Holds g) (hq : t.Denotes (fun x => s.eval x f && s.eval x g) q) :
    FindsRoom (and f g) s t := by
  refine choose_findsRoom (c := ⟨f, g, .zero⟩) hs ht h ⟨hf, hg, holds_zero hs.toReduced⟩ (.inl rfl)
    (hq.congr fun x => ?_)
  rw [Choice.denote, eval_zero]
  cases s.eval x f <;> rfl

theorem implies_findsRoom (hs : s.WellFormed) (h : s.Fits t) (hf : s.Holds f) (hg : s.Holds g) :
    FindsRoom (implies f g) s t := by
  obtain ⟨b, hrecalls, -⟩ := implies_recalls hs hf hg
  exact .of_recalls h hs.toReduced hrecalls

theorem restrictNode_findsRoom (hs : s.WellFormed) (ht : t.Reduced) (h : s.Fits t)
    (hf : s.Holds f) {memo : Std.HashMap Ref Ref} (hmemo : Remembers (s.Restricts v b) memo)
    (hq : t.Denotes (fun x => s.eval (Function.update x v b) f) q) :
    FindsRoom ((restrictNode v b f).run memo) s t := by
  induction hi : f.index using Nat.strongRecOn generalizing f s memo q with
  | ind i ih =>
    refine FindsRoom.of_run_eq ?_ (run_restrictNode hs.toReduced hf v b memo)
    rcases restrictView_cases v b f (s.view f) memo with ⟨r, hr⟩ | ⟨htop, hvar, hparts⟩
    · rw [hr]
      exact .result h _
    rw [hparts, restrictParts]
    change s.topVar f ≠ 0 at htop
    change s.topVar f < v at hvar
    have hone := one_lt_index htop
    have hchild (b : Bool) : s.Holds (s.child f b) := hs.holds_child hf hone
    have hsmall (b : Bool) : (s.child f b).index < i := hi ▸ index_child_lt hone
    have hpart (e : Bool) := (hq.cofactor ht htop (fun _ _ hxy =>
      hs.eval_update_congr hf hxy) e).congr fun x => hs.eval_update_child hf htop hvar
    rw [StateT.run_bind]
    refine (ih _ (hsmall false) hs h (hchild false) hmemo (hpart false) rfl).bind
      (restrictNode_grows hs (hchild false) hmemo) fun p s₁ hext hs₁ hp h₁ => ?_
    rw [StateT.run_bind]
    have hchild₁ := hext.holds (hchild true)
    have hpart₁ := (hpart true).congr fun x =>
      (hext.eval_eq hs.toReduced (x := Function.update x v b) (hchild true)).symm
    refine (ih _ (hsmall true) hs₁ h₁ hchild₁ hp.2 hpart₁ rfl).bind
      (restrictNode_grows hs₁ hchild₁ hp.2) fun r s₂ hext₂ hs₂ hr h₂ => ?_
    have he := hp.1.of_extends hs₁.toReduced hext₂
    have hinc := hext.toIncludes.trans hext₂.toIncludes
    have hbelow (b : Bool) : s₂.Below (s.topVar f) (s.child f b) :=
      (hinc.below (hchild b)).mpr (hs.below_child hf hone)
    have hblow := he.below (hbelow false)
    have hbhigh := hr.1.below (hbelow true)
    have hnode := hq.congr (G := fun x =>
        if x (s.topVar f) then s₂.eval x r.1 else s₂.eval x p.1) fun x => by
      rw [he.eval_eq, hr.1.eval_eq, hinc.eval_eq hs.toReduced (hchild false),
        hinc.eval_eq hs.toReduced (hchild true), eval_of_topVar_ne_zero htop,
        Function.update_of_ne (Nat.ne_of_lt hvar)]
      cases x (s.topVar f) <;> rfl
    rw [run_liftM_bind]
    refine (node_findsRoom hs₂ ht h₂ htop he.holds hr.1.holds hblow hbhigh hnode).bind
      (node_grows hs₂ htop he.holds hr.1.holds hblow hbhigh) fun q s₃ _ _ _ h₃ => .result h₃ _

theorem restrict_findsRoom (hs : s.WellFormed) (ht : t.Reduced) (h : s.Fits t) (hf : s.Holds f)
    (hv : v ≠ 0) (hq : t.Denotes (fun x => s.eval (Function.update x v b) f) q) :
    FindsRoom (restrict f v b) s t := by
  unfold restrict
  rw [if_neg hv]
  exact (restrictNode_findsRoom hs ht h hf .empty hq).bind (restrictNode_grows hs hf .empty)
    fun p s' _ _ _ h => .result h _

end StoreM

end AndInverter
