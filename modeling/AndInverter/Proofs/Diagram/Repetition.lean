import AndInverter.Proofs.Diagram.Fitting

/-!
# Operations can be repeated

An operation that has succeeded comes out the same in every store that has grown since, whatever was
remembered, forgotten or refused meanwhile, and adds no node. A node is found by the cofactors that
it joins, and a choice is found by its function, whichever of its parts are still remembered.
-/

namespace AndInverter

open DiagramStore

namespace DiagramStore

variable {s : DiagramStore} {low high r : Ref} {v : Nat}

/-- What a node joins are the cofactors of what it denotes. -/
theorem Tests.cofactor_eq (h : s.Tests v low high r) (hs : s.Reduced) (hv : v ≠ 0)
    (hlow : s.Holds low) (hhigh : s.Holds high) (hblow : s.Below v low) (hbhigh : s.Below v high)
    (b : Bool) : s.cofactor v b r = if b then high else low := by
  have hle : s.topVar r = 0 ∨ v ≤ s.topVar r :=
    (h.below (w := v - 1) (by omega)).imp_right (by omega)
  have hsame (x : Nat → Bool) (u : Nat) (hu : v < u) : Function.update x v b u = x u :=
    Function.update_of_ne (by omega) _ _
  cases b with
  | false =>
    refine hs.eq_of_eval_eq (hs.holds_cofactor h.holds hv) hlow fun x => ?_
    rw [hs.eval_cofactor h.holds hv hle, h.eval_eq, Function.update_self,
      hs.eval_congr hlow hblow (hsame x)]
    rfl
  | true =>
    refine hs.eq_of_eval_eq (hs.holds_cofactor h.holds hv) hhigh fun x => ?_
    rw [hs.eval_cofactor h.holds hv hle, h.eval_eq, Function.update_self,
      hs.eval_congr hhigh hbhigh (hsame x)]
    rfl

theorem Tests.of_includes {t : DiagramStore} (h : s.Tests v low high r) (hs : s.Reduced)
    (hlow : s.Holds low) (hhigh : s.Holds high) (hinc : s.Includes t) : t.Tests v low high r where
  holds := hinc.holds h.holds
  eval_eq x := by
    rw [hinc.eval_eq hs h.holds, hinc.eval_eq hs hlow, hinc.eval_eq hs hhigh, h.eval_eq]
  below hw := (hinc.below h.holds).mpr (h.below hw)

end DiagramStore

/-- An operation that grows the store. If it succeeds, every store with the nodes it leaves recalls
its result. -/
def Repeats {ε α : Type} [Exhaustion ε] (op : ExceptT ε (StateM DiagramStore) α)
    (s : DiagramStore) : Prop :=
  Grows op s fun a s' => ∀ t : DiagramStore, s'.Includes t → t.WellFormed → Recalls op t a

namespace Repeats

variable {ε α β : Type} [Exhaustion ε] {op op' : ExceptT ε (StateM DiagramStore) α}
  {k : α → ExceptT ε (StateM DiagramStore) β} {s : DiagramStore} {P : α → DiagramStore → Prop}

theorem result (hs : s.WellFormed) (a : α) :
    Repeats (pure a : ExceptT ε (StateM DiagramStore) α) s :=
  Grows.result hs fun _ _ ht => .result ht a

theorem of_run_eq (h : Repeats op' s) (hs : s.WellFormed)
    (hrun : ∀ t : DiagramStore, s.Includes t → t.WellFormed → op.run t = op'.run t) :
    Repeats op s := by
  have hop : Grows op s fun a s' =>
      ∀ t : DiagramStore, s'.Includes t → t.WellFormed → Recalls op' t a := by
    rw [Grows, Ensures, hrun s (Extends.refl s).toIncludes hs]
    exact h
  refine hop.imp fun a s' hext _ ha t hinc ht => ?_
  exact (ha t hinc ht).of_run_eq rfl (hrun t (hext.toIncludes.trans hinc) ht)

/-- The first part is recalled in every store with the nodes of the second one. -/
theorem bind (h : Repeats op s) (hop : Grows op s P)
    (hk : ∀ a s', s.Extends s' → s'.WellFormed → P a s' → Repeats (k a) s') :
    Repeats (op >>= k) s := by
  have hboth : Grows op s fun a s' => P a s' ∧
      ∀ t : DiagramStore, s'.Includes t → t.WellFormed → Recalls op t a :=
    (hop.and h).mono (fun a s' ⟨⟨hext, hs', ha⟩, _, _, hrecalls⟩ => ⟨hext, hs', ha, hrecalls⟩)
      fun e s' ⟨hf, _⟩ => hf
  refine hboth.bind fun a s₁ hext hs₁ ⟨ha, hrecalls⟩ => ?_
  refine (hk a s₁ hext hs₁ ha).imp fun b s₂ hext₂ _ hb t hinc ht => ?_
  refine (hrecalls t (hext₂.toIncludes.trans hinc) ht).bind fun t' hnodes ht' => ?_
  exact hb t' (hinc.trans (includes_of_nodes_eq hnodes)) ht'

end Repeats

namespace StoreM

variable {s : DiagramStore} {c : Choice} {f g low high : Ref} {b : Bool} {v : Nat}

theorem node_repeats (hs : s.WellFormed) (hv : v ≠ 0) (hlow : s.Holds low) (hhigh : s.Holds high)
    (hblow : s.Below v low) (hbhigh : s.Below v high) : Repeats (node v low high) s := by
  refine (node_grows hs hv hlow hhigh hblow hbhigh).imp fun r s' hext hs' hr t hinc ht => ?_
  have hr := hr.of_includes hs'.toReduced (hext.holds hlow) (hext.holds hhigh) hinc
  have hinc := hext.toIncludes.trans hinc
  have hcofactor := hr.cofactor_eq ht.toReduced hv (hinc.holds hlow) (hinc.holds hhigh)
    ((hinc.below hlow).mpr hblow) ((hinc.below hhigh).mpr hbhigh)
  have hnode := node_cofactor_recalls ht hr.holds hv
  rw [hcofactor, hcofactor] at hnode
  exact hnode

theorem choose_repeats (hs : s.WellFormed) (hc : c.All s.Holds) : Repeats (choose c) s :=
  (choose_grows hs hc).imp fun _ _ _ hs' hr _ hinc ht =>
    choose_recalls ht (hr.of_includes hs'.toReduced hinc)

theorem and_repeats (hs : s.WellFormed) (hf : s.Holds f) (hg : s.Holds g) : Repeats (and f g) s :=
  choose_repeats hs ⟨hf, hg, holds_zero hs.toReduced⟩

theorem foldlM_and_repeats (hs : s.WellFormed) (hf : s.Holds f) {fs : List Ref}
    (hfs : ∀ g ∈ fs, s.Holds g) : Repeats (fs.foldlM and f) s := by
  induction fs generalizing f s with
  | nil => exact .result hs f
  | cons g fs ih =>
    obtain ⟨hg, hfs⟩ := List.forall_mem_cons.mp hfs
    rw [List.foldlM_cons]
    refine (and_repeats hs hf hg).bind (and_grows hs hf hg) fun r s' hext hs' hr => ?_
    exact ih hs' hr.holds fun k hk => hext.holds (hfs k hk)

theorem foldrM_node_repeats (hs : s.WellFormed) {literals : List Int}
    (hzero : ∀ l ∈ literals, l ≠ 0)
    (hsorted : literals.Pairwise fun k l => k.natAbs < l.natAbs) :
    Repeats (literals.foldrM (fun l r =>
      if l < 0 then node l.natAbs r .zero else node l.natAbs .zero r) .one) s := by
  induction literals with
  | nil => exact .result hs Ref.one
  | cons l ls ih =>
    obtain ⟨hlast, hsorted⟩ := List.pairwise_cons.mp hsorted
    have hzero' := fun k hk => hzero k (List.mem_cons_of_mem _ hk)
    have hv : l.natAbs ≠ 0 := Int.natAbs_ne_zero.mpr (hzero l List.mem_cons_self)
    rw [List.foldrM_cons]
    refine (ih hzero' hsorted).bind (foldrM_node_grows hs hzero' hsorted) fun r s' _ hs' hr => ?_
    have hbelow := hr.below hlast
    have hzero := holds_zero hs'.toReduced
    split
    · exact node_repeats hs' hv hr.holds hzero hbelow (below_zero _ _)
    · exact node_repeats hs' hv hzero hr.holds (below_zero _ _) hbelow

/-- What is remembered and how a function is seen decide which nodes a restriction asks for. -/
theorem restrictNode_repeats (hs : s.WellFormed) (hf : s.Holds f) {memo : Std.HashMap Ref Ref}
    (hmemo : Remembers (s.Restricts v b) memo) : Repeats ((restrictNode v b f).run memo) s := by
  induction hi : f.index using Nat.strongRecOn generalizing f s memo with
  | ind i ih =>
    have hview (t : DiagramStore) (hinc : s.Includes t) (ht : t.WellFormed) :
        ((restrictNode v b f).run memo).run t =
          ((restrictView v b f (s.view f)).run memo).run t := by
      rw [run_restrictNode ht.toReduced (hinc.holds hf), view, view, hinc.topVar_eq hf,
        hinc.child_eq hf, hinc.child_eq hf]
    refine Repeats.of_run_eq ?_ hs hview
    rcases restrictView_cases v b f (s.view f) memo with ⟨r, hr⟩ | ⟨htop, -, hparts⟩
    · rw [hr]
      exact .result hs _
    rw [hparts, restrictParts]
    change s.topVar f ≠ 0 at htop
    have hone := one_lt_index htop
    have hchild (b : Bool) : s.Holds (s.child f b) := hs.holds_child hf hone
    have hsmall (b : Bool) : (s.child f b).index < i := hi ▸ index_child_lt hone
    rw [StateT.run_bind]
    refine (ih _ (hsmall false) hs (hchild false) hmemo rfl).bind
      (restrictNode_grows hs (hchild false) hmemo) fun p s₁ hext hs₁ hp => ?_
    rw [StateT.run_bind]
    have hchild₁ := hext.holds (hchild true)
    refine (ih _ (hsmall true) hs₁ hchild₁ hp.2 rfl).bind (restrictNode_grows hs₁ hchild₁ hp.2)
      fun q s₂ hext₂ hs₂ hq => ?_
    have he := hp.1.of_extends hs₁.toReduced hext₂
    have hinc := hext.toIncludes.trans hext₂.toIncludes
    have hbelow (b : Bool) : s₂.Below (s.topVar f) (s.child f b) :=
      (hinc.below (hchild b)).mpr (hs.below_child hf hone)
    have hblow := he.below (hbelow false)
    have hbhigh := hq.1.below (hbelow true)
    rw [run_liftM_bind]
    exact (node_repeats hs₂ htop he.holds hq.1.holds hblow hbhigh).bind
      (node_grows hs₂ htop he.holds hq.1.holds hblow hbhigh) fun r s₃ _ hs₃ _ => .result hs₃ _

theorem restrict_repeats (hs : s.WellFormed) (hf : s.Holds f) (hv : v ≠ 0) (b : Bool) :
    Repeats (restrict f v b) s := by
  unfold restrict
  rw [if_neg hv]
  exact (restrictNode_repeats hs hf .empty).bind (restrictNode_grows hs hf .empty)
    fun p s' _ hs' _ => .result hs' _

end StoreM

theorem Operation.run_repeats {s : DiagramStore} {op : Operation} (hs : s.WellFormed)
    (hop : op.Admissible s) : Repeats op.run s := by
  have hone := holds_one hs.toReduced
  have hzero := holds_zero hs.toReduced
  cases op with
  | var v => exact StoreM.node_repeats hs hop hzero hone (below_zero s v) (below_one s v)
  | node v low high =>
    obtain ⟨hv, hlow, hhigh, hblow, hbhigh⟩ := hop
    exact StoreM.node_repeats hs hv hlow hhigh hblow hbhigh
  | cube literals =>
    exact StoreM.foldrM_node_repeats hs
      (fun l hl => hop.1 l ((List.mergeSort_perm _ _).mem_iff.mp hl))
      (StoreM.pairwise_lt_mergeSort_iff.mpr hop.2.2)
  | ite f g h => exact StoreM.choose_repeats (c := ⟨f, g, h⟩) hs hop
  | and f g => exact StoreM.and_repeats hs hop.1 hop.2
  | or f g => exact StoreM.choose_repeats (c := ⟨f, .one, g⟩) hs ⟨hop.1, hone, hop.2⟩
  | xor f g => exact StoreM.choose_repeats (c := ⟨f, -g, g⟩) hs ⟨hop.1, holds_neg.mpr hop.2, hop.2⟩
  | iff f g => exact StoreM.choose_repeats (c := ⟨f, g, -g⟩) hs ⟨hop.1, hop.2, holds_neg.mpr hop.2⟩
  | conjunction fs => exact StoreM.foldlM_and_repeats hs hone hop
  | restrict f v b => exact StoreM.restrict_repeats hs hop.1 hop.2 b

namespace DiagramStore

variable {s s' t : DiagramStore} {op : Operation} {r : Ref}

inductive Leads (s : DiagramStore) : DiagramStore → Prop
  | refl : Leads s s
  | step {t : DiagramStore} {op : Operation} : Leads s t → op.Admissible t →
    Leads s (op.run.run t).2

theorem Leads.extends (h : s.Leads t) (hs : s.WellFormed) : s.Extends t ∧ t.WellFormed := by
  induction h with
  | refl => exact ⟨.refl s, hs⟩
  | step _ hop ih =>
    obtain ⟨hext, ht⟩ := ih
    obtain ⟨hext', ht'⟩ := (Operation.run_grows ht hop).final_extends
    exact ⟨hext.trans hext', ht'⟩

/-- An operation that has succeeded succeeds again after any further operations, with the same
reference, and leaves all nodes as they are. -/
theorem Reached.run_again (hs : Reached s) (hop : op.Admissible s)
    (hrun : op.run.run s = (.ok r, s')) (ht : s'.Leads t) :
    ∃ t', op.run.run t = (.ok r, t') ∧ t'.nodes = t.nodes := by
  have hrepeats := Operation.run_repeats hs.wellFormed hop
  simp only [Repeats, Grows, Ensures, hrun] at hrepeats
  obtain ⟨-, hs', hrecalls⟩ := hrepeats
  obtain ⟨hext, ht⟩ := ht.extends hs'
  obtain ⟨t', hagain, hnodes, -⟩ := (hrecalls t hext.toIncludes ht).exists_run
  exact ⟨t', hagain, hnodes⟩

def couple : DiagramStore :=
  ((Operation.var 2).run.run ((Operation.var 1).run.run (ofBits 3)).2).2

/-- The two variables and their conjunction, filled up by their exclusive disjunction and two more
variables. The conjunction of these is refused, and another one takes the place of what was
remembered of the first. -/
def crowded : DiagramStore :=
  ((Operation.and ⟨2⟩ ⟨5⟩).run.run ((Operation.and ⟨6⟩ ⟨7⟩).run.run
    ((Operation.var 4).run.run ((Operation.var 3).run.run ((Operation.xor ⟨2⟩ ⟨3⟩).run.run
      ((Operation.ite ⟨2⟩ ⟨3⟩ .zero).run.run couple).2).2).2).2).2).2

theorem Reached.run_again_crowded :
    Reached couple ∧ crowded.size + 1 = crowded.capacity ∧
      crowded.computed.find? ⟨⟨2⟩, ⟨3⟩, .zero⟩ = none ∧
      ((Operation.ite ⟨2⟩ ⟨3⟩ .zero).run.run couple).2.Leads crowded ∧
      ∃ t', (Operation.ite ⟨2⟩ ⟨3⟩ .zero).run.run crowded = (.ok ⟨4⟩, t') ∧
        t'.nodes = crowded.nodes := by
  have hstart : ofBits? 3 = .ok (ofBits 3) := rfl
  have hs : Reached couple := .step (.step (.start hstart) (by decide)) (by decide +kernel)
  have hop : (Operation.ite ⟨2⟩ ⟨3⟩ .zero).Admissible couple := by decide +kernel
  have hrun : ((Operation.ite ⟨2⟩ ⟨3⟩ .zero).run.run couple).1 = .ok ⟨4⟩ := by decide +kernel
  have hleads : ((Operation.ite ⟨2⟩ ⟨3⟩ .zero).run.run couple).2.Leads crowded := by
    unfold crowded
    apply Leads.step
    · apply Leads.step
      · apply Leads.step
        · apply Leads.step
          · exact .step .refl (by decide +kernel)
          · decide +kernel
        · decide +kernel
      · decide +kernel
    · decide +kernel
  exact ⟨hs, by decide +kernel, by decide +kernel, hleads,
    Reached.run_again hs hop (Prod.ext hrun rfl) hleads⟩

end DiagramStore

end AndInverter
