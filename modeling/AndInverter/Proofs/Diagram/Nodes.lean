import AndInverter.Proofs.Diagram.Growth

/-!
# New nodes keep a store well-formed

A node that is reduced at its variable is found or added, and only a full store refuses it. What is
made of nodes in the right order denotes what the nodes test.
-/

namespace AndInverter

namespace DiagramStore

variable {s : DiagramStore} {i : Nat}

structure Tests (s : DiagramStore) (v : Nat) (low high r : Ref) : Prop where
  holds : s.Holds r
  eval_eq (x : Nat → Bool) : s.eval x r = if x v then s.eval x high else s.eval x low
  below {w : Nat} : w < v → s.Below w r

def IsFull (s : DiagramStore) : Prop := s.size + 1 = s.capacity

theorem size_values_of_wellFormed (h : s.nodes.WellFormed) :
    s.nodes.values.size = s.size + 1 :=
  h.size_values

theorem Reduced.size_values (hs : s.Reduced) : s.nodes.values.size = s.size + 1 :=
  size_values_of_wellFormed hs.table

theorem Reduced.size_lt (hs : s.Reduced) : s.size + 1 ≤ s.capacity :=
  hs.size_values ▸ hs.table.values_le

/-- No store has more nodes than a reference has room for. -/
theorem Reduced.ofIndex_eq (hs : s.Reduced) (hle : i ≤ s.size) : Ref.ofIndex i = ⟨i⟩ := by
  have hlt := hs.size_lt
  have hcapacity := hs.capacity_le
  exact Ref.ofIndex_eq (by omega)

/-- A node is found, or the store is full, or the node takes the next cell. -/
theorem Reduced.intern_cases (hs : s.Reduced) (n : DiagramNode) :
    (∃ j, s.nodes.search n = .found j ∧ s.nodes.intern n = (some j, s.nodes)) ∨
    (s.IsFull ∧ s.nodes.intern n = (none, s.nodes)) ∨
    ∃ nodes, ¬ s.IsFull ∧ s.nodes.intern n = (some (s.size + 1), nodes) ∧
      s.nodes.Adds nodes n ∧ ∀ j, s.nodes.search n ≠ .found j := by
  have hvalues := hs.size_values
  rcases s.nodes.intern_cases hs.table n with hfound | ⟨hfull, hnone⟩ | ⟨nodes, hsome, hadds, hnew⟩
  · exact .inl hfound
  · exact .inr (.inl ⟨hvalues.symm.trans hfull.symm, hnone⟩)
  · have hroom := hadds.wellFormed.values_le
    rw [hadds.values_eq, Array.size_push, hadds.capacity_eq, hvalues] at hroom
    rw [hvalues] at hsome
    exact .inr (.inr ⟨nodes, Nat.ne_of_lt hroom, hsome, hadds, hnew⟩)

/-- A node that is found is one of the nodes beyond the terminal. -/
theorem Reduced.of_search_eq_found (hs : s.Reduced) {n : DiagramNode} {j : Nat}
    (hn : s.Proper i n) (h : s.nodes.search n = .found j) :
    1 < j ∧ j ≤ s.size ∧ s.nodes.get j = n := by
  obtain ⟨hpos, hlt, hget⟩ := UniqueTable.get_of_search_eq_found h
  have hone : j ≠ 1 := by
    rintro rfl
    exact hn.var_ne_zero (hget ▸ hs.terminal)
  have hle : j ≤ s.nodes.values.size - 1 := by omega
  exact ⟨by omega, hle, hget⟩

/-- One more node leaves the others in their places. -/
theorem extends_of_adds {node : DiagramNode} {nodes : UniqueTable DiagramNode}
    (hs : s.nodes.WellFormed) (h : s.nodes.Adds nodes node) :
    s.Extends ⟨nodes, s.computed⟩ ∧ nodes.size = s.size + 1 ∧ nodes.get (s.size + 1) = node := by
  have hvalues := size_values_of_wellFormed hs
  have hsize : nodes.size = s.size + 1 := by
    rw [UniqueTable.size, h.values_eq, Array.size_push, hvalues]
    omega
  have hold {i : Nat} (hi : i ≤ s.size) : nodes.get i = s.nodes.get i := by
    rw [UniqueTable.get, UniqueTable.get, h.values_eq, Array.getD_eq_getD_getElem?,
      Array.getD_eq_getD_getElem?, Array.getElem?_push, if_neg (by omega)]
  have hnew : nodes.get (s.size + 1) = node := by
    rw [UniqueTable.get, h.values_eq, Array.getD_eq_getD_getElem?, Array.getElem?_push,
      if_pos hvalues.symm, Option.getD_some]
  exact ⟨⟨⟨by change s.size ≤ nodes.size; omega, fun _ hi => hold hi⟩, h.capacity_eq⟩, hsize, hnew⟩

/-- A new node that is reduced at its variable keeps the store reduced. -/
theorem Reduced.of_adds (hs : s.Reduced) {node : DiagramNode} {nodes : UniqueTable DiagramNode}
    (hn : s.Proper (s.size + 1) node) (h : s.nodes.Adds nodes node) :
    s.Extends ⟨nodes, s.computed⟩ ∧ (⟨nodes, s.computed⟩ : DiagramStore).Reduced ∧
      nodes.size = s.size + 1 ∧ nodes.get (s.size + 1) = node := by
  have hvalues := hs.size_values
  obtain ⟨hext, hsize, hnew⟩ := extends_of_adds hs.table h
  have hold {i : Nat} (hpos : 1 < i) (hi : i ≤ s.size) : nodes.get i = s.nodes.get i :=
    hext.get_eq (Nat.lt_of_succ_lt hpos) hi
  refine ⟨hext, ⟨h.wellFormed, ?_, ?_, ?_, fun {i} hi hle => ?_, fun {i} hi hle => ?_⟩, hsize, hnew⟩
  · change nodes.capacity ≤ _
    rw [h.capacity_eq]
    exact hs.capacity_le
  · change 0 < nodes.size
    omega
  · exact (congrArg DiagramNode.var (hext.get_eq Nat.one_pos hs.size_pos)).trans hs.terminal
  · change i ≤ nodes.size at hle
    change Proper _ i (nodes.get i)
    by_cases hlast : i ≤ s.size
    · rw [hold hi hlast]
      exact hext.proper (by omega) (hs.proper hi hlast)
    · obtain rfl : i = s.size + 1 := by omega
      rw [hnew]
      exact hext.proper (Nat.le_refl _) hn
  · change i ≤ nodes.size at hle
    change nodes.search (nodes.get i) = .found i
    by_cases hlast : i ≤ s.size
    · rw [hold hi hlast]
      exact h.search_old (hs.found hi hlast)
    · obtain rfl : i = s.size + 1 := by omega
      rw [hnew, h.search_new, hvalues]

theorem Reduced.tests_get (hs : s.Reduced) (hi : 1 < i) (hle : i ≤ s.size) :
    s.Tests (s.nodes.get i).var (s.nodes.get i).low (s.nodes.get i).high ⟨i⟩ := by
  have hindex : (⟨i⟩ : Ref).index = i := Int.natAbs_natCast i
  have hholds : s.Holds ⟨i⟩ := by
    rw [Holds, hindex]
    omega
  have hsign : ¬ (⟨i⟩ : Ref).IsNegated := Int.not_lt.mpr (Int.natCast_nonneg i)
  have hone : 1 < (⟨i⟩ : Ref).index := by rwa [hindex]
  have htop : s.topVar ⟨i⟩ = (s.nodes.get i).var := by rw [topVar_eq hone, hindex]
  refine ⟨hholds, fun x => ?_, fun hw => ?_⟩
  · rw [eval_of_topVar_ne_zero (hs.topVar_ne_zero hholds hone), hs.child_eq hholds hone, hindex,
      htop, decide_eq_false hsign, Ref.negIf]
    cases x (s.nodes.get i).var <;> rfl
  · rw [Below, htop]
    exact .inr hw

theorem capacity_ofBits (bits : Nat) : (ofBits bits).capacity = 1 <<< bits := by
  rw [capacity, ofBits, UniqueTable.append]
  split <;> rfl

theorem nodes_ofBits {bits : Nat} (hpos : 1 ≤ bits) :
    (ofBits bits).nodes = (UniqueTable.ofBits bits).add default := by
  have hcapacity : 1 < 1 <<< bits := by
    rw [Nat.one_shiftLeft]
    exact Nat.one_lt_two_pow (by omega)
  exact congrArg Prod.snd (if_pos hcapacity)

theorem wellFormed_ofBits {bits : Nat} (hpos : 1 ≤ bits) (hle : bits ≤ 31) :
    (ofBits bits).WellFormed := by
  have hcapacity : 1 < 1 <<< bits ∧ 1 <<< bits ≤ 2147483648 := by
    rw [Nat.one_shiftLeft]
    exact ⟨Nat.one_lt_two_pow (by omega), Nat.pow_le_pow_right Nat.zero_lt_two hle⟩
  have hnodes := nodes_ofBits hpos
  have hsize : (ofBits bits).size = 1 := by rw [size, hnodes]; rfl
  have hempty {i : Nat} {c : Choice} {r : Ref} :
      (ofBits bits).computed.slots[i]? ≠ some (some (c, r)) := by
    intro h
    change (Array.replicate _ none)[i]? = _ at h
    rw [Array.getElem?_replicate] at h
    split at h
    · cases h
    · cases h
  refine ⟨⟨?_, ?_, ?_, ?_, fun hi hle => ?_, fun hi hle => ?_⟩, fun h => absurd h hempty,
    fun h => absurd h hempty⟩
  · rw [hnodes]
    exact (UniqueTable.wellFormed_ofBits bits).add hcapacity.1 default
  · rw [capacity, hnodes]
    exact hcapacity.2
  · rw [hsize]
    exact Nat.one_pos
  · rw [hnodes]
    rfl
  · omega
  · omega

end DiagramStore

open DiagramStore

namespace StoreM

variable {s : DiagramStore} {low high : Ref} {v : Nat}

theorem nodeOf_grows (hs : s.WellFormed) {n : DiagramNode} (hn : s.Proper (s.size + 1) n) :
    Grows (nodeOf n) s fun r s' => s'.Tests n.var n.low n.high r := by
  refine Ensures.bindUpdateGet (show _ = ((s.nodes.intern n).1,
    (⟨(s.nodes.intern n).2, s.computed⟩ : DiagramStore)) from rfl) ?_
  rcases hs.intern_cases n with ⟨j, hfound, h⟩ | ⟨hfull, h⟩ | ⟨nodes, -, h, hadds, -⟩
  · rw [h]
    obtain ⟨hj, hle, hget⟩ := hs.of_search_eq_found hn hfound
    have htests := hs.tests_get hj hle
    rw [hget] at htests
    refine Grows.result hs ?_
    rwa [hs.ofIndex_eq hle]
  · rw [h]
    exact .bindGet (.failure ⟨.refl s, hs, rfl, hfull⟩)
  · rw [h]
    obtain ⟨hext, hreduced, hnew, hget⟩ := hs.of_adds hn hadds
    have hs' := hs.of_extends hext hreduced rfl
    have hone : 1 < s.size + 1 := Nat.lt_succ_of_le hs.size_pos
    have htests := hreduced.tests_get hone (Nat.le_of_eq hnew.symm)
    change Tests _ (nodes.get _).var (nodes.get _).low (nodes.get _).high _ at htests
    rw [hget] at htests
    refine .result ⟨hext, hs', ?_⟩
    rwa [hs'.ofIndex_eq (Nat.le_of_eq hnew.symm)]

theorem proper_of_holds (hv : v ≠ 0) (hsign : ¬ high.IsNegated) (hne : low ≠ high)
    (hlow : s.Holds low) (hhigh : s.Holds high) (hblow : s.Below v low) (hbhigh : s.Below v high) :
    s.Proper (s.size + 1) ⟨v, low, high⟩ :=
  ⟨hv, hsign, hne, hlow.1, Nat.lt_succ_of_le hlow.2, hhigh.1, Nat.lt_succ_of_le hhigh.2, hblow,
    hbhigh⟩

theorem proper_neg_of_holds (hv : v ≠ 0) (hsign : high.IsNegated) (hne : low ≠ high)
    (hlow : s.Holds low) (hhigh : s.Holds high) (hblow : s.Below v low) (hbhigh : s.Below v high) :
    s.Proper (s.size + 1) ⟨v, -low, -high⟩ :=
  proper_of_holds hv (Ref.not_isNegated_neg hsign) (fun h => hne (Ref.neg_inj.mp h))
    (holds_neg.mpr hlow) (holds_neg.mpr hhigh) (below_neg.mpr hblow) (below_neg.mpr hbhigh)

theorem tests_self (hr : s.Holds low) (hb : s.Below v low) : s.Tests v low low low :=
  ⟨hr, fun _ => (ite_self _).symm, fun hw => hb.trans (Nat.le_of_lt hw)⟩

theorem node_grows (hs : s.WellFormed) (hv : v ≠ 0) (hlow : s.Holds low) (hhigh : s.Holds high)
    (hblow : s.Below v low) (hbhigh : s.Below v high) :
    Grows (node v low high) s fun r s' => s'.Tests v low high r := by
  rw [node, if_neg hv]
  by_cases heq : low = high
  · subst heq
    rw [if_pos rfl, if_pos rfl]
    split
    · exact .result hs (tests_self hlow hblow)
    · exact .result hs (tests_self hlow hblow)
  · rw [if_neg heq, if_neg heq]
    split
    · rename_i hsign
      have hproper := proper_neg_of_holds hv hsign heq hlow hhigh hblow hbhigh
      refine (nodeOf_grows hs hproper).bind fun r s' hext hs' htests => .result hs'
        ⟨holds_neg.mpr htests.holds, fun x => ?_, fun hw => below_neg.mpr (htests.below hw)⟩
      rw [hs'.eval_neg htests.holds, htests.eval_eq, hs'.eval_neg (hext.holds hhigh),
        hs'.eval_neg (hext.holds hlow)]
      cases x v <;> simp
    · rename_i hsign
      exact nodeOf_grows hs (proper_of_holds hv hsign heq hlow hhigh hblow hbhigh)

theorem var_grows (hs : s.WellFormed) (hv : v ≠ 0) :
    Grows (var v) s fun r s' => s'.Tests v .zero .one r :=
  node_grows hs hv (holds_zero hs.toReduced) (holds_one hs.toReduced) (below_zero s v)
    (below_one s v)

def literalValue (x : Nat → Bool) (l : Int) : Bool := if l < 0 then !x l.natAbs else x l.natAbs

/-- A conjunction of literals whose nodes start no earlier than its variables. -/
structure IsCube (s : DiagramStore) (literals : List Int) (r : Ref) : Prop
    extends s.Denotes (fun x => literals.all (literalValue x)) r where
  below {w : Nat} : (∀ l ∈ literals, w < l.natAbs) → s.Below w r

theorem foldrM_node_grows (hs : s.WellFormed) {literals : List Int} (hzero : ∀ l ∈ literals, l ≠ 0)
    (hsorted : literals.Pairwise fun k l => k.natAbs < l.natAbs) :
    Grows (literals.foldrM (fun l r =>
        if l < 0 then node l.natAbs r .zero else node l.natAbs .zero r) .one) s
      fun r s' => IsCube s' literals r := by
  induction literals with
  | nil => exact .result hs ⟨⟨holds_one hs.toReduced, eval_one s⟩, fun _ => below_one s _⟩
  | cons l ls ih =>
    obtain ⟨hlast, hsorted⟩ := List.pairwise_cons.mp hsorted
    rw [List.foldrM_cons]
    refine (ih (fun k hk => hzero k (List.mem_cons_of_mem _ hk)) hsorted).bind
      fun r s' _ hs' hr => ?_
    have hv : l.natAbs ≠ 0 := Int.natAbs_ne_zero.mpr (hzero l List.mem_cons_self)
    have hbelow := hr.below hlast
    have hzero := holds_zero hs'.toReduced
    split
    · rename_i hneg
      refine (node_grows hs' hv hr.holds hzero hbelow (below_zero _ _)).imp fun q s'' hext _ hq =>
        ⟨⟨hq.holds, fun x => ?_⟩, fun hw => hq.below (hw l List.mem_cons_self)⟩
      rw [hq.eval_eq, hext.eval_eq hs'.toReduced hr.holds, hr.eval_eq, eval_zero, List.all_cons,
        literalValue, if_pos hneg]
      cases x l.natAbs <;> simp
    · rename_i hpos
      refine (node_grows hs' hv hzero hr.holds (below_zero _ _) hbelow).imp fun q s'' hext _ hq =>
        ⟨⟨hq.holds, fun x => ?_⟩, fun hw => hq.below (hw l List.mem_cons_self)⟩
      rw [hq.eval_eq, hext.eval_eq hs'.toReduced hr.holds, hr.eval_eq, eval_zero, List.all_cons,
        literalValue, if_neg hpos]
      cases x l.natAbs <;> simp

theorem mergeSort_perm (literals : List Int) :
    (literals.mergeSort fun a b => a.natAbs ≤ b.natAbs).Perm literals :=
  List.mergeSort_perm _ _

theorem pairwise_le_mergeSort (literals : List Int) :
    (literals.mergeSort fun a b => a.natAbs ≤ b.natAbs).Pairwise fun k l => k.natAbs ≤ l.natAbs :=
  (List.pairwise_mergeSort (fun _ _ _ => by simp; omega) (fun _ _ => by simp; omega) _).imp
    (by simp)

/-- The literals of a cube are sorted strictly if none of them is on the variable of another. -/
theorem pairwise_lt_mergeSort_iff {literals : List Int} :
    ((literals.mergeSort fun a b => a.natAbs ≤ b.natAbs).Pairwise
      fun k l => k.natAbs < l.natAbs) ↔ (literals.map Int.natAbs).Nodup := by
  rw [← ((mergeSort_perm literals).map Int.natAbs).nodup_iff, List.Nodup, List.pairwise_map]
  constructor
  · exact fun hlt => hlt.imp Nat.ne_of_lt
  · exact fun hne => (pairwise_le_mergeSort literals).imp₂
      (fun _ _ hle hne => Nat.lt_of_le_of_ne hle hne) hne

theorem cube_grows (hs : s.WellFormed) {literals : List Int} (hzero : ∀ l ∈ literals, l ≠ 0)
    (hdistinct : (literals.map Int.natAbs).Nodup) :
    Grows (cube literals) s
      fun r s' => s'.Denotes (fun x => literals.all (literalValue x)) r := by
  have hperm := mergeSort_perm literals
  refine (foldrM_node_grows hs (fun l hl => hzero l (hperm.mem_iff.mp hl))
    (pairwise_lt_mergeSort_iff.mpr hdistinct)).imp fun r s' _ _ hr => ⟨hr.holds, fun x => ?_⟩
  rw [hr.eval_eq, hperm.all_eq]

end StoreM

end AndInverter
