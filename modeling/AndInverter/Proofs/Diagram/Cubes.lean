import AndInverter.Proofs.Diagram.Denotation

/-!
# Cubes and conjunctions of literals

A cube sorts its literals and stacks their nodes, without asking whether a variable occurs twice. If
no two literals are on one variable, the cube is the conjunction of the literals. If two of them
are, a node ends up on top of a node of its own variable. No reduced store has such a node, so the
cube is beyond all nodes that were there, and is not the conjunction.
-/

namespace AndInverter

open DiagramStore

namespace StoreM

def literal (l : Int) : StoreM Ref := do return (← var l.natAbs).negIf (l < 0)

def conjoin (literals : List Int) : StoreM Ref := do conjunction (← literals.mapM literal)

def conjoinAndCube (literals : List Int) : StoreM (Ref × Ref) := do
  let q ← conjoin literals
  let r ← cube literals
  return (q, r)

def cubeAndConjoin (literals : List Int) : StoreM (Ref × Ref) := do
  let r ← cube literals
  let q ← conjoin literals
  return (r, q)

def stack (l : Int) (r : Ref) : StoreM Ref :=
  if l < 0 then node l.natAbs r .zero else node l.natAbs .zero r

end StoreM

namespace DiagramStore

variable {s s' : DiagramStore}

/-- The second store goes on from the first one, with nodes that need not be reduced. -/
structure Enlarges (s s' : DiagramStore) : Prop extends s.Extends s' where
  table : s'.nodes.WellFormed

theorem Reduced.enlarges (hs : s'.Reduced) (h : s.Extends s') : s.Enlarges s' := ⟨h, hs.table⟩

end DiagramStore

namespace StoreM

variable {s s' : DiagramStore} {literals : List Int} {low high q r : Ref} {n : DiagramNode}
  {l : Int} {v : Nat}

section Conjunction

theorem literal_grows (hs : s.WellFormed) (hl : l ≠ 0) :
    Grows (literal l) s fun r s' => s'.Denotes (literalValue · l) r := by
  refine (var_grows hs (Int.natAbs_ne_zero.mpr hl)).bind fun r s' _ hs' hr => .result hs'
    ⟨holds_negIf.mpr hr.holds, fun x => ?_⟩
  rw [hs'.eval_negIf hr.holds, hr.eval_eq, eval_one, eval_zero, literalValue]
  by_cases hneg : l < 0
  · rw [if_pos hneg, decide_eq_true hneg]
    cases x l.natAbs <;> rfl
  · rw [if_neg hneg, decide_eq_false hneg]
    cases x l.natAbs <;> rfl

theorem mapM_literal_grows (hs : s.WellFormed) (hzero : ∀ l ∈ literals, l ≠ 0) :
    Grows (literals.mapM literal) s fun rs s' => (∀ r ∈ rs, s'.Holds r) ∧
      ∀ x, rs.all (s'.eval x) = literals.all (literalValue x) := by
  induction literals generalizing s with
  | nil => exact .result hs ⟨fun _ h => absurd h List.not_mem_nil, fun _ => rfl⟩
  | cons l ls ih =>
    obtain ⟨hl, hls⟩ := List.forall_mem_cons.mp hzero
    rw [List.mapM_cons]
    refine (literal_grows hs hl).bind fun r s₁ _ hs₁ hr => ?_
    refine (ih hs₁ hls).bind fun rs s₂ hext hs₂ ⟨hholds, hall⟩ => .result hs₂ ?_
    have hr₂ := hr.of_extends hs₁.toReduced hext
    refine ⟨List.forall_mem_cons.mpr ⟨hr₂.holds, hholds⟩, fun x => ?_⟩
    rw [List.all_cons, List.all_cons, hr₂.eval_eq, hall]

theorem conjoin_grows (hs : s.WellFormed) (hzero : ∀ l ∈ literals, l ≠ 0) :
    Grows (conjoin literals) s
      fun q s' => s'.Denotes (fun x => literals.all (literalValue x)) q :=
  (mapM_literal_grows hs hzero).bind fun _ _ _ hs' ⟨hholds, hall⟩ =>
    (conjunction_grows hs' hholds).imp fun _ _ _ _ hq => hq.congr hall

theorem literalValue_neg (hl : l ≠ 0) (x : Nat → Bool) :
    literalValue x (-l) = !literalValue x l := by
  unfold literalValue
  rw [Int.natAbs_neg]
  by_cases hneg : l < 0
  · rw [if_pos hneg, if_neg (by omega), Bool.not_not]
  · rw [if_neg hneg, if_pos (by omega)]

/-- A literal and its negation hold of nothing. -/
theorem all_literalValue_eq_false (hzero : ∀ l ∈ literals, l ≠ 0) (hl : l ∈ literals)
    (hneg : -l ∈ literals) (x : Nat → Bool) : literals.all (literalValue x) = false := by
  rw [← Bool.not_eq_true, List.all_eq_true]
  intro hall
  have hnot := hall _ hneg
  rw [literalValue_neg (hzero l hl), hall l hl] at hnot
  cases hnot

end Conjunction

section Stacking

/-- A node that is none of the nodes of a reduced store is beyond them all. -/
theorem nodeOf_beyond (hs : s.Reduced) (h : s.Enlarges s') (hvar : n.var ≠ 0)
    (hn : ∀ i, 1 < i → i ≤ s.size → s.nodes.get i ≠ n) :
    Ensures (nodeOf n) s' (fun r s'' => s.Enlarges s'' ∧ ¬ s.Holds r)
      fun e _ => e = .full s.capacity := by
  have hholds {i : Nat} (hi : s.size < i) (hle : i < s'.capacity) : ¬ s.Holds (.ofIndex i) := by
    have hcapacity := hs.capacity_le
    rw [h.capacity_eq] at hle
    rw [Ref.ofIndex_eq (by omega)]
    rintro ⟨-, hindex⟩
    have : (⟨i⟩ : Ref).index = i := Int.natAbs_natCast i
    omega
  have hvalues := h.table.values_le
  refine Ensures.bindUpdateGet (show _ = ((s'.nodes.intern n).1,
    (⟨(s'.nodes.intern n).2, s'.computed⟩ : DiagramStore)) from rfl) ?_
  rcases s'.nodes.intern_cases h.table n with ⟨j, hfound, hj⟩ | ⟨-, hj⟩ | ⟨nodes, hj, hadds, -⟩
  · rw [hj]
    obtain ⟨hpos, hlt, hnode⟩ := UniqueTable.get_of_search_eq_found hfound
    -- The node that is found is neither the terminal nor another node of the first store.
    have hnew : s.size < j := by
      by_contra hle
      rw [h.get_eq hpos (Nat.le_of_not_lt hle)] at hnode
      by_cases hone : j = 1
      · subst hone
        exact hvar (hnode ▸ hs.terminal)
      · exact hn j (by omega) (Nat.le_of_not_lt hle) hnode
    exact .result ⟨h, hholds hnew (Nat.lt_of_lt_of_le hlt hvalues)⟩
  · rw [hj]
    exact .bindGet (.failure (congrArg Halt.full h.capacity_eq))
  · rw [hj]
    obtain ⟨hext, -, -⟩ := extends_of_adds h.table hadds
    have hroom := hadds.wellFormed.values_le
    rw [hadds.values_eq, Array.size_push, hadds.capacity_eq] at hroom
    have hsize : s.size ≤ s'.nodes.values.size - 1 := h.size_le
    have hpos := h.table.values_pos
    exact .result ⟨⟨h.trans hext, hadds.wellFormed⟩, hholds (by omega) hroom⟩

/-- A node whose children are not held below its variable is beyond the nodes of a reduced
store. -/
theorem node_beyond (hs : s.Reduced) (h : s.Enlarges s') (hv : v ≠ 0) (hne : low ≠ high)
    (hchildren : ¬ (s.Holds low ∧ s.Holds high ∧ s.Below v low ∧ s.Below v high)) :
    Ensures (node v low high) s' (fun r s'' => s.Enlarges s'' ∧ ¬ s.Holds r)
      fun e _ => e = .full s.capacity := by
  have hnode (c : Bool) (i : Nat) (hi : 1 < i) (hle : i ≤ s.size) :
      s.nodes.get i ≠ ⟨v, low.negIf c, high.negIf c⟩ := by
    intro hget
    have hproper := hs.proper hi hle
    rw [hget] at hproper
    have hle := Nat.le_succ_of_le hle
    exact hchildren ⟨holds_negIf.mp (hproper.holds_low hle),
      holds_negIf.mp (hproper.holds_high hle), Reduced.below_negIf.mp hproper.below_low,
      Reduced.below_negIf.mp hproper.below_high⟩
  rw [node, if_neg hv, if_neg hne, if_neg hne]
  split
  · refine (nodeOf_beyond hs h hv (hnode true)).bind fun r s'' hr => .result ⟨hr.1, ?_⟩
    rw [holds_neg]
    exact hr.2
  · exact nodeOf_beyond hs h hv (hnode false)

theorem stack_beyond (hs : s.Reduced) (h : s.Enlarges s') (hl : l ≠ 0)
    (hr : ¬ (s.Holds r ∧ s.Below l.natAbs r)) :
    Ensures (stack l r) s' (fun q s'' => s.Enlarges s'' ∧ ¬ s.Holds q)
      fun e _ => e = .full s.capacity := by
  have hv := Int.natAbs_ne_zero.mpr hl
  have hne : r ≠ .zero := by
    rintro rfl
    exact hr ⟨holds_zero hs, below_zero s _⟩
  unfold stack
  split
  · exact node_beyond hs h hv hne fun ⟨hheld, _, hbelow, _⟩ => hr ⟨hheld, hbelow⟩
  · exact node_beyond hs h hv hne.symm fun ⟨_, hheld, _, hbelow⟩ => hr ⟨hheld, hbelow⟩

/-- Literals on different variables hold together. -/
theorem exists_all_literalValue (hzero : ∀ l ∈ literals, l ≠ 0)
    (hdistinct : (literals.map Int.natAbs).Nodup) :
    ∃ x, literals.all (literalValue x) = true := by
  refine ⟨fun v => decide ((v : Int) ∈ literals), List.all_eq_true.mpr fun l hl => ?_⟩
  have hl0 := hzero l hl
  have hmem : (l.natAbs : Int) ∈ literals ↔ ¬ l < 0 := by
    constructor
    · intro hmem hneg
      have := List.inj_on_of_nodup_map hdistinct hmem hl (Int.natAbs_natCast _)
      omega
    · intro hpos
      rwa [show (l.natAbs : Int) = l by omega]
  unfold literalValue
  split
  · rename_i hneg
    change (!decide ((l.natAbs : Int) ∈ literals)) = true
    rw [decide_eq_false fun h => hmem.mp h hneg]
    rfl
  · rename_i hpos
    exact decide_eq_true (hmem.mpr hpos)

/-- A cube starts with the variable of its first literal. -/
theorem IsCube.not_below (hs : s.Reduced) (hr : IsCube s (l :: literals) r)
    (hzero : ∀ k ∈ l :: literals, k ≠ 0)
    (hsorted : (l :: literals).Pairwise fun k l => k.natAbs < l.natAbs) :
    ¬ s.Below l.natAbs r := by
  intro hbelow
  have hdistinct : ((l :: literals).map Int.natAbs).Nodup :=
    List.pairwise_map.mpr (hsorted.imp Nat.ne_of_lt)
  obtain ⟨x, hx⟩ := exists_all_literalValue hzero hdistinct
  -- The first variable the other way round makes the conjunction false.
  have hflip : s.eval (Function.update x l.natAbs !x l.natAbs) r = s.eval x r := by
    apply hs.eval_congr hr.holds hbelow
    intro w hw
    rw [Function.update_of_ne (by omega)]
  rw [hr.eval_eq, hr.eval_eq, hx, List.all_cons, Bool.and_eq_true] at hflip
  rw [List.all_cons, Bool.and_eq_true] at hx
  have hboth := hflip.1.trans hx.1.symm
  unfold literalValue at hboth
  rw [Function.update_self] at hboth
  split at hboth
  · exact absurd hboth (by simp)
  · exact absurd hboth (by simp)

/-- Stacked on a strictly sorted rest, the first literal that repeats a variable leaves the reduced
nodes, and no later one comes back to them. -/
theorem foldrM_stack_beyond (hs : s.WellFormed) (hzero : ∀ l ∈ literals, l ≠ 0)
    (hsorted : literals.Pairwise fun k l => k.natAbs ≤ l.natAbs)
    (hrepeated : ¬ literals.Pairwise fun k l => k.natAbs < l.natAbs) :
    Ensures (literals.foldrM stack .one) s (fun q s' => s.Enlarges s' ∧ ¬ s.Holds q)
      fun e _ => e = .full s.capacity := by
  induction literals with
  | nil => exact absurd .nil hrepeated
  | cons l ls ih =>
    obtain ⟨hl, hls⟩ := List.forall_mem_cons.mp hzero
    obtain ⟨hfirst, hrest⟩ := List.pairwise_cons.mp hsorted
    rw [List.foldrM_cons]
    by_cases hstrict : ls.Pairwise fun k l => k.natAbs < l.natAbs
    · cases ls with
      | nil => exact absurd (List.pairwise_singleton _ _) hrepeated
      | cons k ks =>
        have hsame : l.natAbs = k.natAbs := by
          by_contra hne
          have hlt := Nat.lt_of_le_of_ne (hfirst k List.mem_cons_self) hne
          refine hrepeated (List.pairwise_cons.mpr ⟨List.forall_mem_cons.mpr ⟨hlt, ?_⟩, hstrict⟩)
          exact fun j hj => hlt.trans ((List.pairwise_cons.mp hstrict).1 j hj)
        have hcube := foldrM_node_grows hs hls hstrict
        refine (hcube.mono (fun _ _ => id) fun e _ hf => hf.isFull).bind ?_
        intro r s' ⟨hext, hs', hr⟩
        have hbeyond := stack_beyond hs'.toReduced (hs'.enlarges (.refl s')) hl
          fun hheld => hr.not_below hs'.toReduced hls hstrict (hsame ▸ hheld.2)
        refine hbeyond.mono (fun q s'' ⟨hs'', hq⟩ => ?_) fun e _ he => hext.capacity_eq ▸ he
        exact ⟨⟨hext.trans hs''.toExtends, hs''.table⟩, fun hheld => hq (hext.holds hheld)⟩
    · refine (ih hls hrest hstrict).bind fun r s' ⟨hs', hr⟩ => ?_
      exact stack_beyond hs.toReduced hs' hl fun hheld => hr hheld.1

theorem cube_of_sorted (h : literals.Pairwise fun k l => k.natAbs ≤ l.natAbs) :
    cube literals = literals.foldrM stack .one := by
  have hsort : (literals.mergeSort fun a b => a.natAbs ≤ b.natAbs) = literals :=
    List.mergeSort_of_pairwise (h.imp decide_eq_true)
  exact congrArg (fun ls : List Int => ls.foldrM stack .one) hsort

/-- A cube with two literals on one variable is beyond the nodes that were there. -/
theorem cube_beyond (hs : s.WellFormed) (hzero : ∀ l ∈ literals, l ≠ 0)
    (hrepeated : ¬ (literals.map Int.natAbs).Nodup) :
    Ensures (cube literals) s (fun q s' => s.Enlarges s' ∧ ¬ s.Holds q)
      fun e _ => e = .full s.capacity :=
  foldrM_stack_beyond hs (fun l hl => hzero l ((mergeSort_perm literals).mem_iff.mp hl))
    (pairwise_le_mergeSort literals) fun h => hrepeated (pairwise_lt_mergeSort_iff.mp h)

end Stacking

end StoreM

namespace DiagramStore

variable {s : DiagramStore} {literals : List Int}

/-- The conjunction of literals denotes what it asks for, and is false if it asks for a literal and
its negation. The cube of the literals is the same reference exactly if no two of them are on one
variable, and then in either order of the two. -/
theorem Reached.cube_eq_conjoin_iff (hs : Reached s) (hzero : ∀ l ∈ literals, l ≠ 0) :
    Ensures (StoreM.conjoinAndCube literals) s
        (fun (q, r) s' => s'.Denotes (fun x => literals.all (StoreM.literalValue x)) q ∧
          ((∃ l ∈ literals, -l ∈ literals) → q = .zero) ∧
          (r = q ↔ (literals.map Int.natAbs).Nodup))
        (fun e _ => e = .full s.capacity) ∧
      ((literals.map Int.natAbs).Nodup → Ensures (StoreM.cubeAndConjoin literals) s
        (fun (r, q) s' => s'.Denotes (fun x => literals.all (StoreM.literalValue x)) q ∧ r = q)
        fun e _ => e = .full s.capacity) := by
  constructor
  · have hconjoin := StoreM.conjoin_grows hs.wellFormed hzero
    refine (hconjoin.mono (fun _ _ => id) fun e _ hf => hf.isFull).bind ?_
    intro q s₁ ⟨hext, hs₁, hq⟩
    have hfalse : (∃ l ∈ literals, -l ∈ literals) → q = .zero := by
      rintro ⟨l, hl, hneg⟩
      apply hs₁.eq_of_eval_eq hq.holds (holds_zero hs₁.toReduced)
      intro x
      rw [hq.eval_eq, StoreM.all_literalValue_eq_false hzero hl hneg, eval_zero]
    by_cases hdistinct : (literals.map Int.natAbs).Nodup
    · have hcube := StoreM.cube_grows hs₁ hzero hdistinct
      refine (hcube.mono (fun _ _ => id) fun e _ hf => hext.capacity_eq ▸ hf.isFull).bind ?_
      intro r s₂ ⟨hext₂, hs₂, hr⟩
      have hq₂ := hq.of_extends hs₁.toReduced hext₂
      have heq : r = q :=
        hs₂.eq_of_eval_eq hr.holds hq₂.holds fun x => (hr.eval_eq x).trans (hq₂.eval_eq x).symm
      exact .result ⟨hq₂, hfalse, iff_of_true heq hdistinct⟩
    · have hcube := StoreM.cube_beyond hs₁ hzero hdistinct
      refine (hcube.mono (fun _ _ => id) fun e _ he => hext.capacity_eq ▸ he).bind ?_
      intro r s₂ ⟨hs₂, hr⟩
      have hq₂ := hq.of_extends hs₁.toReduced hs₂.toExtends
      exact .result ⟨hq₂, hfalse, iff_of_false (fun heq => hr (heq ▸ hq.holds)) hdistinct⟩
  · intro hdistinct
    have hboth : Grows (StoreM.cubeAndConjoin literals) s fun (r, q) s' =>
        s'.Denotes (fun x => literals.all (StoreM.literalValue x)) q ∧ r = q := by
      refine (StoreM.cube_grows hs.wellFormed hzero hdistinct).bind fun r s₁ _ hs₁ hr => ?_
      refine (StoreM.conjoin_grows hs₁ hzero).bind fun q s₂ hext₂ hs₂ hq => .result hs₂ ⟨hq, ?_⟩
      have hr₂ := hr.of_extends hs₁.toReduced hext₂
      exact hs₂.eq_of_eval_eq hr₂.holds hq.holds fun x => (hr₂.eval_eq x).trans (hq.eval_eq x).symm
    exact hboth.mono (fun _ _ h => h.2.2) fun e _ hf => hf.isFull

/-- With a variable and its negation the conjunction is false, and the cube is a new node. -/
theorem Reached.cube_eq_conjoin_iff_crossing :
    Reached crossing ∧ (∀ l ∈ ([1, -1] : List Int), l ≠ 0) ∧
      ((StoreM.conjoinAndCube [1, -1]).run crossing).1.toOption = some (.zero, ⟨-7⟩) ∧
      ¬ (([1, -1] : List Int).map Int.natAbs).Nodup ∧
      (∀ l ∈ ([-2, 3] : List Int), l ≠ 0) ∧ (([-2, 3] : List Int).map Int.natAbs).Nodup ∧
      ((StoreM.cubeAndConjoin [-2, 3]).run crossing).1.toOption = some (⟨-7⟩, ⟨-7⟩) ∧
      ∀ x, ((StoreM.cubeAndConjoin [-2, 3]).run crossing).2.eval x ⟨-7⟩ = (!x 2 && x 3) := by
  have hopposite : ∀ l ∈ ([1, -1] : List Int), l ≠ 0 := by decide
  have hnew : ((StoreM.conjoinAndCube [1, -1]).run crossing).1.toOption =
      some (.zero, ⟨-7⟩) := by
    rw [StoreM.conjoinAndCube, StoreM.cube_of_sorted (by decide)]
    decide +kernel
  have hrepeated := (Reached.cube_eq_conjoin_iff crossing_reached hopposite).1.of_toOption_eq hnew
  have hliterals : ∀ l ∈ ([-2, 3] : List Int), l ≠ 0 := by decide
  have hdistinct : (([-2, 3] : List Int).map Int.natAbs).Nodup := by decide
  have hsame : ((StoreM.cubeAndConjoin [-2, 3]).run crossing).1.toOption =
      some (⟨-7⟩, ⟨-7⟩) := by
    rw [StoreM.cubeAndConjoin, StoreM.cube_of_sorted (by decide)]
    decide +kernel
  have hconjoin :=
    ((Reached.cube_eq_conjoin_iff crossing_reached hliterals).2 hdistinct).of_toOption_eq hsame
  refine ⟨crossing_reached, hopposite, hnew, fun hnodup => ?_, hliterals, hdistinct, hsame,
    fun x => ?_⟩
  · exact absurd (hrepeated.2.2.mpr hnodup) (by decide)
  · rw [hconjoin.1.eval_eq]
    simp [StoreM.literalValue]

/-- A variable and its negation have the conjunction false; their cube is another reference. -/
theorem not_cube_eq_conjoin : ¬ ∀ s : DiagramStore, Reached s → ∀ literals : List Int,
    (∀ l ∈ literals, l ≠ 0) → ∀ q r : Ref,
      ((StoreM.conjoinAndCube literals).run s).1.toOption = some (q, r) → r = q := by
  intro hall
  have hstart : ofBits? 4 = .ok (ofBits 4) := rfl
  have hreached : Reached single := .step (.start hstart) (by decide)
  have hrun : ((StoreM.conjoinAndCube [1, -1]).run single).1.toOption = some (.zero, ⟨-3⟩) := by
    rw [StoreM.conjoinAndCube, StoreM.cube_of_sorted (by decide)]
    decide +kernel
  exact absurd (hall single hreached [1, -1] (by decide) _ _ hrun) (by decide)

end DiagramStore

end AndInverter
