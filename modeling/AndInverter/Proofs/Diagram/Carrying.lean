import AndInverter.Proofs.Diagram.Reached
import AndInverter.Proofs.Diagram.Room

/-!
# Operations do not depend on the room

A choice that is remembered in one store only is found again in the other one, and what is
remembered in neither is chosen in both by the same parts. So all operations that succeed in a store
succeed in every larger one, one after the other, with the same references and the same numbers of
nodes.
-/

namespace AndInverter

open DiagramStore

namespace StoreM

variable {ahead : Prop} {s s' : DiagramStore} {c d : Choice} {f g r : Ref} {b : Bool} {v : Nat}

/-- Where a full store cannot answer, one with more room may. -/
theorem carries_of_isFull {ε α : Type} [Exhaustion ε] {op : ExceptT ε (StateM DiagramStore) α}
    {P : α → DiagramStore → Prop} (h : Roomier ahead s s') (hop : Grows op s P)
    (hkeeps : ∀ t : DiagramStore, Keeps t.Extends op) (hfull : s.IsFull)
    (hnone : ∀ a t, t.WellFormed → t.Includes s → ¬ P a t) :
    Carries ahead (op.run s) (op.run s') := by
  simp only [Grows, Ensures] at hop
  rcases hrun : op.run s with ⟨r, t⟩
  rw [hrun] at hop
  cases r with
  | ok a =>
    obtain ⟨hext, ht, hP⟩ := hop
    exact absurd hP (hnone a t ht (hext.includes_of_isFull ht.toReduced hfull))
  | error e =>
    have hinc := hop.grows.includes_of_isFull hop.wellFormed.toReduced hfull
    have hext := (hkeeps s').final (.refl s')
    refine .failure ⟨hinc.trans (h.toIncludes.trans hext.toIncludes), ?_, ?_⟩
    · refine Nat.le_trans ?_ (Nat.le_of_eq hext.capacity_eq.symm)
      rw [hop.grows.capacity_eq]
      exact h.capacity_le
    · exact .inr ⟨hop.size_eq, trivial⟩

/-- The parts of a choice are carried over, then the node that joins them, and the same is
remembered. -/
theorem chooseParts_carries (hs : s.WellFormed) (hs' : s'.WellFormed) (h : Roomier ahead s s')
    (hd : d.All s.Holds) (hv : s.splitVar d ≠ 0) (negated : Bool)
    (hparts : ∀ (b : Bool) (t t' : DiagramStore), t.WellFormed → t'.WellFormed →
      Roomier ahead t t' → (s.cofactorChoice d b).All t.Holds →
      Carries ahead ((choose (s.cofactorChoice d b)).run t)
        ((choose (s.cofactorChoice d b)).run t')) :
    Carries ahead ((chooseParts (s.split d) d negated).run s)
      ((chooseParts (s.split d) d negated).run s') := by
  have hheld (b : Bool) := hs.holds_cofactorChoice (b := b) hd hv
  have hbelow (b : Bool) := hs.below_cofactorChoice (b := b) hd hv
  refine (hparts false s s' hs hs' h (hheld false)).bind (choose_grows hs (hheld false))
    (choose_grows hs' (h.all_holds (hheld false))) (fun t e => ?_)
    fun e t t' hext ht ht' h he => ?_
  · refine (choose_keeps t _).bind fun r => (node_keeps t _ e r).bind fun q => ?_
    exact (remember_keeps t d q).bind fun _ => .result _
  have hheld₁ := hext.all_holds (hheld true)
  refine (hparts true t t' ht ht' h hheld₁).bind (choose_grows ht hheld₁)
    (choose_grows ht' (h.all_holds hheld₁)) (fun t r => ?_) fun r t₂ t₂' hext₂ ht₂ ht₂' h hr => ?_
  · exact (node_keeps t _ e r).bind fun q => (remember_keeps t d q).bind fun _ => .result _
  have he := he.of_extends ht.toReduced hext₂
  have hinc := hext.toIncludes.trans hext₂.toIncludes
  have hblow := he.below ((hinc.all_below (hheld false)).mpr (hbelow false))
  have hbhigh := hr.below ((hinc.all_below (hheld true)).mpr (hbelow true))
  refine (node_carries ht₂ ht₂' h hv he.holds hr.holds hblow hbhigh).bind
    (node_grows ht₂ hv he.holds hr.holds hblow hbhigh)
    (node_grows ht₂' hv (h.holds he.holds) (h.holds hr.holds) ((h.below he.holds).mpr hblow)
      ((h.below hr.holds).mpr hbhigh))
    (fun t q => (remember_keeps t d q).bind fun _ => .result _) fun q t₃ t₃' _ _ _ h _ => ?_
  exact ⟨fun hr => ⟨hr, h.of_nodes_eq rfl rfl⟩, fun he => (by cases he)⟩

theorem choose_carries (hs : s.WellFormed) (hs' : s'.WellFormed) (h : Roomier ahead s s')
    (hc : c.All s.Holds) : Carries ahead ((choose c).run s) ((choose c).run s') := by
  induction hw : c.weight using Nat.strongRecOn generalizing c s s' with
  | ind m ih =>
    by_cases hheld : ∃ r, s.Settled c r
    · obtain ⟨r, hr⟩ := hheld
      exact .of_recalls h (choose_recalls hs hr)
        (choose_recalls hs' (hr.of_includes hs.toReduced h.toIncludes))
    by_cases hfull : s.IsFull
    · apply carries_of_isFull h (choose_grows hs hc) (fun t => choose_keeps t c) hfull
      intro r t ht hinc hr
      exact hheld ⟨r, hr.of_includes ht.toReduced hinc⟩
    -- Neither store can answer at once, so both choose the parts.
    have hinc := h.includes_of_not_isFull hfull
    have hc' := h.all_holds hc
    rcases choose_cases hs hc with ⟨r, hr, -⟩ | ⟨n, d, s₁, hform, hnodes, hs₁, hrun⟩
    · exact absurd ⟨r, hr⟩ hheld
    rcases choose_cases hs' hc' with ⟨r, hr, -⟩ | ⟨n', d', s₁', hform', hnodes', hs₁', hrun'⟩
    · exact absurd ⟨r, hr.of_includes hs'.toReduced hinc⟩ hheld
    rw [h.form_eq hs.toReduced hc, hform] at hform'
    cases hform'
    obtain ⟨hd, htop, hself⟩ := hs.of_form_split hc hform
    have hv := splitVar_ne_zero htop
    have hlt (b : Bool) : (s.cofactorChoice d b).weight < m :=
      hw ▸ Nat.lt_of_lt_of_le (weight_cofactorChoice_lt htop)
        (Choice.weight_le_of_form_eq_split hform)
    have hparts (b : Bool) := hs.holds_cofactorChoice (b := b) hd hv
    have h₁ := h.of_nodes_eq hnodes hnodes'
    have hinc₁ := includes_of_nodes_eq hnodes
    have hd₁ := hinc₁.all_holds hd
    rw [hrun, hrun', h.split_eq hd, ← hinc₁.split_eq hd]
    refine chooseParts_carries hs₁ hs₁' h₁ hd₁ ?_ n fun b t t' ht ht' hroom hheld => ?_
    · rw [(hinc₁.cofactorChoice_eq (b := true) hd).1]
      exact hv
    · rw [(hinc₁.cofactorChoice_eq hd).2] at hheld ⊢
      exact ih _ (hlt b) ht ht' hroom hheld rfl

theorem and_carries (hs : s.WellFormed) (hs' : s'.WellFormed) (h : Roomier ahead s s')
    (hf : s.Holds f) (hg : s.Holds g) : Carries ahead ((and f g).run s) ((and f g).run s') :=
  choose_carries hs hs' h ⟨hf, hg, holds_zero hs.toReduced⟩

/-- An implication is decided without a new node, so that both stores decide it. -/
theorem implies_carries (hs : s.WellFormed) (hs' : s'.WellFormed) (h : Roomier ahead s s')
    (hf : s.Holds f) (hg : s.Holds g) :
    Carries ahead ((implies f g).run s) ((implies f g).run s') := by
  obtain ⟨b, hrecalls, hb⟩ := implies_recalls hs hf hg
  obtain ⟨b', hrecalls', hb'⟩ := implies_recalls hs' (h.holds hf) (h.holds hg)
  have hsame : b = b' := by
    apply Bool.eq_of_eq_iff_eq (c := true)
    rw [hb, hb']
    simp only [h.eval_eq hs.toReduced hf, h.eval_eq hs.toReduced hg]
  subst hsame
  exact .of_recalls h hrecalls hrecalls'

theorem conjunction_carries (hs : s.WellFormed) (hs' : s'.WellFormed) (h : Roomier ahead s s')
    (hf : s.Holds f) {fs : List Ref} (hfs : ∀ g ∈ fs, s.Holds g) :
    Carries ahead ((fs.foldlM and f).run s) ((fs.foldlM and f).run s') := by
  induction fs generalizing f s s' with
  | nil => exact .result h f
  | cons g fs ih =>
    obtain ⟨hg, hfs⟩ := List.forall_mem_cons.mp hfs
    rw [List.foldlM_cons]
    refine (and_carries hs hs' h hf hg).bind (and_grows hs hf hg)
      (and_grows hs' (h.holds hf) (h.holds hg))
      (fun t r => Keeps.foldlM (fun r g => and_keeps t r g) fs r)
      fun r t t' hext ht ht' h hr => ?_
    exact ih ht ht' h hr.holds fun g hg => hext.holds (hfs g hg)

theorem foldrM_node_carries (hs : s.WellFormed) (hs' : s'.WellFormed) (h : Roomier ahead s s')
    {literals : List Int} (hzero : ∀ l ∈ literals, l ≠ 0)
    (hsorted : literals.Pairwise fun k l => k.natAbs < l.natAbs) :
    Carries ahead ((literals.foldrM (fun l r =>
        if l < 0 then node l.natAbs r .zero else node l.natAbs .zero r) .one).run s)
      ((literals.foldrM (fun l r =>
        if l < 0 then node l.natAbs r .zero else node l.natAbs .zero r) .one).run s') := by
  induction literals with
  | nil => exact .result h Ref.one
  | cons l ls ih =>
    obtain ⟨hlast, hsorted⟩ := List.pairwise_cons.mp hsorted
    have hzero' := fun k hk => hzero k (List.mem_cons_of_mem _ hk)
    have hv : l.natAbs ≠ 0 := Int.natAbs_ne_zero.mpr (hzero l List.mem_cons_self)
    rw [List.foldrM_cons]
    refine (ih hzero' hsorted).bind (foldrM_node_grows hs hzero' hsorted)
      (foldrM_node_grows hs' hzero' hsorted) (fun t r => ?_) fun r t t' _ ht ht' h hr => ?_
    · split
      · exact node_keeps t _ _ _
      · exact node_keeps t _ _ _
    · have hbelow := hr.below hlast
      have hzero := holds_zero ht.toReduced
      split
      · exact node_carries ht ht' h hv hr.holds hzero hbelow (below_zero _ _)
      · exact node_carries ht ht' h hv hzero hr.holds (below_zero _ _) hbelow

theorem cube_carries (hs : s.WellFormed) (hs' : s'.WellFormed) (h : Roomier ahead s s')
    {literals : List Int} (hzero : ∀ l ∈ literals, l ≠ 0)
    (hdistinct : (literals.map Int.natAbs).Nodup) :
    Carries ahead ((cube literals).run s) ((cube literals).run s') :=
  foldrM_node_carries hs hs' h (fun l hl => hzero l ((mergeSort_perm literals).mem_iff.mp hl))
    (pairwise_lt_mergeSort_iff.mpr hdistinct)

def restrictParts (v : Nat) (b : Bool) (f : Ref) (n : View) :
    StateT (Std.HashMap Ref Ref) StoreM Ref := do
  let e ← restrictNode v b n.low
  let t ← restrictNode v b n.high
  let r ← node n.var e t
  modify (·.insert f r)
  return r

def restrictView (v : Nat) (b : Bool) (f : Ref) (n : View) :
    StateT (Std.HashMap Ref Ref) StoreM Ref := do
  if n.var = 0 then return f
  else if v < n.var then return f
  else if v = n.var then return if b then n.high else n.low
  else
    if let some r := (← get)[f]? then return r
    restrictParts v b f n

/-- The result is at hand, or the function is restricted in its parts. -/
theorem restrictView_cases (v : Nat) (b : Bool) (f : Ref) (n : View)
    (memo : Std.HashMap Ref Ref) :
    (∃ r, (restrictView v b f n).run memo = pure (r, memo)) ∨
      n.var ≠ 0 ∧ n.var < v ∧
        (restrictView v b f n).run memo = (restrictParts v b f n).run memo := by
  unfold restrictView
  by_cases hzero : n.var = 0
  · rw [if_pos hzero]
    exact .inl ⟨f, rfl⟩
  rw [if_neg hzero]
  by_cases hlt : v < n.var
  · rw [if_pos hlt]
    exact .inl ⟨f, rfl⟩
  rw [if_neg hlt]
  by_cases heq : v = n.var
  · rw [if_pos heq]
    exact .inl ⟨_, rfl⟩
  rw [if_neg heq, StateT.run_bind, StateT.run_get, pure_bind]
  dsimp only
  cases memo[f]? with
  | some r => exact .inl ⟨r, rfl⟩
  | none => exact .inr ⟨hzero, Nat.lt_of_le_of_ne (Nat.not_lt.mp hlt) (Ne.symm heq), rfl⟩

theorem run_restrictNode (hs : s.Reduced) (hf : s.Holds f) (v : Nat) (b : Bool)
    (memo : Std.HashMap Ref Ref) :
    ((restrictNode v b f).run memo).run s = ((restrictView v b f (s.view f)).run memo).run s := by
  have hcheck : (ofFault (s.nodes.check f.index) : StoreM Unit).run s = (.ok (), s) := by
    rw [hs.check_eq_ok hf]
    rfl
  rw [restrictNode, StateT.run_bind]
  refine (run_bind_of_ok (?_ : _ = (Except.ok (s, memo), s))).trans ?_
  · rfl
  rw [StateT.run_bind]
  refine (run_bind_of_ok (?_ : _ = (Except.ok ((), memo), s))).trans ?_
  · exact run_bind_of_ok hcheck
  · unfold restrictView
    dsimp only
    split
    · rfl
    · rfl

theorem restrictNode_carries (hs : s.WellFormed) (hs' : s'.WellFormed) (h : Roomier ahead s s')
    (hf : s.Holds f) {memo : Std.HashMap Ref Ref} (hmemo : Remembers (s.Restricts v b) memo) :
    Carries ahead (((restrictNode v b f).run memo).run s)
      (((restrictNode v b f).run memo).run s') := by
  induction hi : f.index using Nat.strongRecOn generalizing f s s' memo with
  | ind i ih =>
    have hview : s'.view f = s.view f := by
      rw [view, view, h.topVar_eq hf, h.child_eq hf, h.child_eq hf]
    rw [run_restrictNode hs.toReduced hf, run_restrictNode hs'.toReduced (h.holds hf), hview]
    rcases restrictView_cases v b f (s.view f) memo with ⟨r, hr⟩ | ⟨htop, -, hparts⟩
    · rw [hr]
      exact .result h _
    rw [hparts, restrictParts]
    change s.topVar f ≠ 0 at htop
    have hone := one_lt_index htop
    have hchild (b : Bool) : s.Holds (s.child f b) := hs.holds_child hf hone
    have hsmall (b : Bool) : (s.child f b).index < i := hi ▸ index_child_lt hone
    have hmemo' := hmemo.imp fun _ _ hr => hr.of_includes hs.toReduced h.toIncludes
    rw [StateT.run_bind]
    refine (ih _ (hsmall false) hs hs' h (hchild false) hmemo rfl).bind
      (restrictNode_grows hs (hchild false) hmemo)
      (restrictNode_grows hs' (h.holds (hchild false)) hmemo') (fun t p => ?_)
      fun p t t' hext ht ht' h hp => ?_
    · intro u hu
      refine (restrictNode_keeps t v b _ p.2 u hu).bindRun fun q memo₂ u hu => ?_
      exact (node_keeps t _ p.1 q u hu).bindRunLift fun r u hu => hu
    rw [StateT.run_bind]
    have hchild₁ := hext.holds (hchild true)
    have hmemo₁ := hp.2.imp fun _ _ hr => hr.of_includes ht.toReduced h.toIncludes
    refine (ih _ (hsmall true) ht ht' h hchild₁ hp.2 rfl).bind
      (restrictNode_grows ht hchild₁ hp.2) (restrictNode_grows ht' (h.holds hchild₁) hmemo₁)
      (fun t q => ?_) fun q t₂ t₂' hext₂ ht₂ ht₂' h hq => ?_
    · intro u hu
      exact (node_keeps t _ p.1 q.1 u hu).bindRunLift fun r u hu => hu
    have he := hp.1.of_extends ht.toReduced hext₂
    have hinc := hext.toIncludes.trans hext₂.toIncludes
    have hbelow (b : Bool) : t₂.Below (s.topVar f) (s.child f b) :=
      (hinc.below (hchild b)).mpr (hs.below_child hf hone)
    have hblow := he.below (hbelow false)
    have hbhigh := hq.1.below (hbelow true)
    rw [run_liftM_bind]
    refine (node_carries ht₂ ht₂' h htop he.holds hq.1.holds hblow hbhigh).bind
      (node_grows ht₂ htop he.holds hq.1.holds hblow hbhigh)
      (node_grows ht₂' htop (h.holds he.holds) (h.holds hq.1.holds)
        ((h.below he.holds).mpr hblow) ((h.below hq.1.holds).mpr hbhigh))
      (fun t r u hu => hu) fun r t₃ t₃' _ _ _ h _ => .result h _

theorem restrict_carries (hs : s.WellFormed) (hs' : s'.WellFormed) (h : Roomier ahead s s')
    (hf : s.Holds f) (hv : v ≠ 0) (b : Bool) :
    Carries ahead ((restrict f v b).run s) ((restrict f v b).run s') := by
  unfold restrict
  rw [if_neg hv]
  exact (restrictNode_carries hs hs' h hf .empty).bind (restrictNode_grows hs hf .empty)
    (restrictNode_grows hs' (h.holds hf) .empty) (fun _ _ => .result _)
    fun p t t' _ _ _ h _ => .result h _

end StoreM

namespace Operation

variable {ahead : Prop} {s s' : DiagramStore} {op : Operation}

theorem Admissible.of_includes (hop : op.Admissible s) (h : s.Includes s') : op.Admissible s' := by
  cases op with
  | var v => exact hop
  | node v low high =>
    obtain ⟨hv, hlow, hhigh, hblow, hbhigh⟩ := hop
    exact ⟨hv, h.holds hlow, h.holds hhigh, (h.below hlow).mpr hblow, (h.below hhigh).mpr hbhigh⟩
  | cube literals => exact hop
  | ite f g k => exact h.all_holds (c := ⟨f, g, k⟩) hop
  | and f g => exact ⟨h.holds hop.1, h.holds hop.2⟩
  | or f g => exact ⟨h.holds hop.1, h.holds hop.2⟩
  | xor f g => exact ⟨h.holds hop.1, h.holds hop.2⟩
  | iff f g => exact ⟨h.holds hop.1, h.holds hop.2⟩
  | conjunction fs => exact fun f hf => h.holds (hop f hf)
  | restrict f v b => exact ⟨h.holds hop.1, hop.2⟩

theorem run_carries (hs : s.WellFormed) (hs' : s'.WellFormed) (h : Roomier ahead s s')
    (hop : op.Admissible s) : Carries ahead (op.run.run s) (op.run.run s') := by
  have hone := holds_one hs.toReduced
  have hzero := holds_zero hs.toReduced
  cases op with
  | var v =>
    exact StoreM.node_carries hs hs' h hop hzero hone (below_zero s v) (below_one s v)
  | node v low high =>
    obtain ⟨hv, hlow, hhigh, hblow, hbhigh⟩ := hop
    exact StoreM.node_carries hs hs' h hv hlow hhigh hblow hbhigh
  | cube literals => exact StoreM.cube_carries hs hs' h hop.1 hop.2.2
  | ite f g k => exact StoreM.choose_carries (c := ⟨f, g, k⟩) hs hs' h hop
  | and f g => exact StoreM.and_carries hs hs' h hop.1 hop.2
  | or f g => exact StoreM.choose_carries (c := ⟨f, .one, g⟩) hs hs' h ⟨hop.1, hone, hop.2⟩
  | xor f g =>
    exact StoreM.choose_carries (c := ⟨f, -g, g⟩) hs hs' h ⟨hop.1, holds_neg.mpr hop.2, hop.2⟩
  | iff f g =>
    exact StoreM.choose_carries (c := ⟨f, g, -g⟩) hs hs' h ⟨hop.1, hop.2, holds_neg.mpr hop.2⟩
  | conjunction fs => exact StoreM.conjunction_carries hs hs' h hone hop
  | restrict f v b => exact StoreM.restrict_carries hs hs' h hop.1 hop.2 b

end Operation

/-- Operations that succeed one after the other in a store that starts with `2 ^ bits` cells: each
with its result and the number of nodes after it. The last one comes first. -/
inductive Succeeds (bits : Nat) : List (Operation × Ref × Nat) → DiagramStore → Prop where
  | start {s : DiagramStore} : ofBits? bits = .ok s → Succeeds bits [] s
  | step {steps : List (Operation × Ref × Nat)} {s s' : DiagramStore} {op : Operation} {r : Ref} :
    Succeeds bits steps s → op.Admissible s → op.run.run s = (.ok r, s') →
    Succeeds bits ((op, r, s'.size) :: steps) s'

theorem Succeeds.next {bits k : Nat} {steps : List (Operation × Ref × Nat)} {s : DiagramStore}
    {op : Operation} {r : Ref} (h : Succeeds bits steps s) (hop : op.Admissible s)
    (hr : (op.run.run s).1 = .ok r) (hsize : (op.run.run s).2.size = k) :
    Succeeds bits ((op, r, k) :: steps) (op.run.run s).2 := by
  subst hsize
  exact .step h hop (Prod.ext hr rfl)

theorem roomier_ofBits {bits bits' : Nat} (hpos : 1 ≤ bits) (hle : bits ≤ bits') :
    Roomier False (ofBits bits) (ofBits bits') := by
  have hnodes := nodes_ofBits hpos
  have hnodes' := nodes_ofBits (Nat.le_trans hpos hle)
  refine ⟨⟨?_, fun _ _ => ?_⟩, ?_, .inl ?_⟩
  · rw [size, size, hnodes, hnodes']
    exact Nat.le_refl _
  · rw [hnodes, hnodes']
    rfl
  · rw [capacity_ofBits, capacity_ofBits, Nat.one_shiftLeft, Nat.one_shiftLeft]
    exact Nat.pow_le_pow_right Nat.zero_lt_two hle
  · rw [size, size, hnodes, hnodes']
    rfl

theorem bits_of_ofBits? {bits : Nat} {s : DiagramStore} (h : ofBits? bits = .ok s) :
    (1 ≤ bits ∧ bits ≤ 31) ∧ s = ofBits bits := by
  unfold ofBits? at h
  split at h
  · rename_i hbits
    cases h
    exact ⟨hbits, rfl⟩
  · cases h

/-- The same operations succeed in a larger store, with the same results and numbers of nodes. -/
theorem Succeeds.with_room {bits bits' : Nat} (hle : bits ≤ bits') (hbits' : bits' ≤ 31)
    {steps : List (Operation × Ref × Nat)} {s : DiagramStore} (hs : Succeeds bits steps s) :
    s.WellFormed ∧ ∃ s', Succeeds bits' steps s' ∧ s'.WellFormed ∧ Roomier False s s' := by
  induction hs with
  | start hs =>
    obtain ⟨hbits, rfl⟩ := bits_of_ofBits? hs
    have hpos := Nat.le_trans hbits.1 hle
    exact ⟨wellFormed_ofBits hbits.1 hbits.2, ofBits bits', .start (if_pos ⟨hpos, hbits'⟩),
      wellFormed_ofBits hpos hbits', roomier_ofBits hbits.1 hle⟩
  | @step steps s s₁ op r _ hop hrun ih =>
    obtain ⟨hwf, t, ht, htwf, hroom⟩ := ih
    have hop' := hop.of_includes hroom.toIncludes
    obtain ⟨-, hwf₁⟩ := (Operation.run_grows hwf hop).final_extends
    obtain ⟨-, htwf₁⟩ := (Operation.run_grows htwf hop').final_extends
    have hcarries := Operation.run_carries hwf htwf hroom hop
    rw [hrun] at hwf₁ hcarries
    obtain ⟨hr, hroom₁⟩ := hcarries.ok rfl
    exact ⟨hwf₁, _, ht.next hop' hr (hroom₁.size_eq.resolve_right And.right), htwf₁, hroom₁⟩

end AndInverter
