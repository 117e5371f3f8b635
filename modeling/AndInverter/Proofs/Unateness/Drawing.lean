import AndInverter.Proofs.Unateness.Cofactors
import AndInverter.Unateness.Diagrams

/-!
# Diagrams of nodes

Built in the order of their numbers, the nodes of a set that is closed under fanins get references
to the functions they compute, over the variables that stand for the inputs of the set.
-/

namespace AndInverter.Graph

open DiagramStore DiagramQuery

variable {g : Graph} {varOf : Nat → Nat} {built : Array (Option Ref)} {s s' : DiagramStore}
  {P Q : Nat → Prop} {e : Edge} {n : Node} {id : Nat} {r : Ref}

def nodeFun (g : Graph) (varOf : Nat → Nat) (id : Nat) (y : Nat → Bool) : Bool :=
  g.valueOf (fun i => y (varOf i)) id

def Draws (g : Graph) (varOf : Nat → Nat) (s : DiagramStore) (built : Array (Option Ref))
    (P : Nat → Prop) : Prop :=
  ∀ id, P id → ∃ r, built[id]? = some (some r) ∧ s.Denotes (g.nodeFun varOf id) r

namespace Draws

theorem of_includes (h : g.Draws varOf s built P) (hs : s.Reduced) (hinc : s.Includes s') :
    g.Draws varOf s' built P := by
  intro id hid
  obtain ⟨r, hr, hden⟩ := h id hid
  exact ⟨r, hr, hden.of_includes hs hinc⟩

theorem set (h : g.Draws varOf s built P) (hlt : id < built.size)
    (hr : s.Denotes (g.nodeFun varOf id) r) :
    g.Draws varOf s (built.setIfInBounds id (some r)) fun j => j = id ∨ P j := by
  intro j hj
  by_cases hji : j = id
  · subst hji
    exact ⟨r, by rw [Array.getElem?_setIfInBounds_self_of_lt hlt], hr⟩
  · obtain ⟨q, hq, hden⟩ := h j (hj.resolve_left hji)
    exact ⟨q, by rwa [Array.getElem?_setIfInBounds_ne (Ne.symm hji)], hden⟩

theorem edgeFunction_eq_ok (h : g.Draws varOf s built P) (hs : s.Reduced) (he : P e.node) :
    ∃ r, edgeFunction built e = .ok r ∧
      s.Denotes (fun y => g.edgeValueOf (fun i => y (varOf i)) e) r := by
  obtain ⟨r, hr, hden⟩ := h e.node he
  refine ⟨r.negIf e.complemented, by rw [edgeFunction, hr]; rfl, ?_, fun y => ?_⟩
  · exact holds_negIf.mpr hden.holds
  · rw [hs.eval_negIf hden.holds, hden.eval_eq]
    rfl

end Draws

theorem nodeFunction_grows (hg : g.WellFormed) (hs : s.WellFormed)
    (h : g.Draws varOf s built P) (hn : g.nodes[id]? = some n)
    (hfanins : ∀ e ∈ n.fanins, P e.node) (hvar : ∀ i, n = .input i → varOf i ≠ 0) :
    Grows (g.nodeFunction varOf built id) s fun r s' => s'.Denotes (g.nodeFun varOf id) r := by
  rw [nodeFunction]
  simp only [hn]
  cases n with
  | constant =>
    refine .result hs ⟨holds_zero hs.toReduced, fun y => ?_⟩
    rw [eval_zero, nodeFun, valueOf_constant hn]
  | input i =>
    refine ((StoreM.var_grows hs (hvar i rfl)).during _).imp
      fun r s' _ _ hr => ⟨hr.holds, fun y => ?_⟩
    rw [hr.eval_eq, eval_one, eval_zero, nodeFun, valueOf_input hn]
    cases y (varOf i) <;> rfl
  | gate a b =>
    obtain ⟨f, hf, hfden⟩ := h.edgeFunction_eq_ok hs.toReduced (hfanins a (by simp))
    obtain ⟨k, hk, hkden⟩ := h.edgeFunction_eq_ok hs.toReduced (hfanins b (by simp))
    refine .bindExcept hf (.bindExcept hk (((StoreM.and_grows hs hfden.holds hkden.holds).during
      _).imp fun r s' _ _ hr => ⟨hr.holds, fun y => ?_⟩))
    rw [hr.eval_eq, hfden.eval_eq, hkden.eval_eq, nodeFun, valueOf_gate hg hn]
  | output i e =>
    obtain ⟨f, hf, hfden⟩ := h.edgeFunction_eq_ok hs.toReduced (hfanins e (by simp))
    dsimp only
    rw [hf]
    refine Grows.result hs ⟨hfden.holds, fun y => ?_⟩
    rw [hfden.eval_eq, nodeFun, valueOf_output hg hn]

/-- The nodes can be drawn in the order of the list once those of `P` are drawn: fanins come first,
and all inputs have variables. -/
structure Drawable (g : Graph) (varOf : Nat → Nat) (ids : List Nat) (P : Nat → Prop) : Prop where
  ascending : ids.Pairwise (· < ·)
  lt_size {id : Nat} : id ∈ ids → id < g.size
  fanin {id : Nat} {n : Node} {e : Edge} : id ∈ ids → g.nodes[id]? = some n → e ∈ n.fanins →
    e.node ∈ ids ∨ P e.node
  var_ne_zero {id i : Nat} : id ∈ ids → g.nodes[id]? = some (.input i) → varOf i ≠ 0

namespace Drawable

variable {ids : List Nat}

/-- The first node has all of its fanins drawn, since a fanin is no later node. -/
theorem head (h : g.Drawable varOf (id :: ids) P) (hg : g.WellFormed) :
    ∃ n, g.nodes[id]? = some n ∧ (∀ e ∈ n.fanins, P e.node) ∧ ∀ i, n = .input i → varOf i ≠ 0 := by
  have hmem := List.mem_cons_self (a := id) (l := ids)
  have hlt : id < g.nodes.size := h.lt_size hmem
  have hn : g.nodes[id]? = some g.nodes[id] := Array.getElem?_eq_getElem hlt
  refine ⟨_, hn, fun e he => ?_, fun i hi => h.var_ne_zero hmem (hi ▸ hn)⟩
  refine (h.fanin hmem hn he).resolve_left fun hlater => ?_
  have hbefore := hg.fanin_lt hn he
  rcases List.mem_cons.mp hlater with heq | hlater
  · omega
  · have := (List.pairwise_cons.mp h.ascending).1 _ hlater
    omega

theorem tail (h : g.Drawable varOf (id :: ids) P) :
    g.Drawable varOf ids fun j => j = id ∨ P j where
  ascending := (List.pairwise_cons.mp h.ascending).2
  lt_size hj := h.lt_size (List.mem_cons_of_mem _ hj)
  fanin hj hn he := by
    have hfanin := h.fanin (List.mem_cons_of_mem _ hj) hn he
    rw [List.mem_cons, or_assoc] at hfanin
    exact or_left_comm.mp hfanin
  var_ne_zero hj := h.var_ne_zero (List.mem_cons_of_mem _ hj)

end Drawable

/-- All nodes can be drawn in the order of their numbers. -/
theorem WellFormed.drawable (hg : g.WellFormed) :
    g.Drawable (· + 1) (List.range g.size) fun _ => False where
  ascending := List.pairwise_lt_range
  lt_size := List.mem_range.mp
  fanin hid hn he := by
    have := hg.fanin_lt hn he
    rw [List.mem_range] at hid ⊢
    exact .inl (by omega)
  var_ne_zero _ _ := Nat.succ_ne_zero _

/-- The nodes of a cone can be drawn if its inputs have variables. -/
theorem IsCone.drawable {root : Nat} {c : Cone} (hc : g.IsCone root c) (hg : g.WellFormed)
    (hroot : root < g.size) (hvar : ∀ i ∈ g.coneInputs c, varOf i ≠ 0) :
    g.Drawable varOf c.nodes fun _ => False where
  ascending := hc.ascending
  lt_size := hc.lt_size hg hroot
  fanin hid hn he := .inl (hc.fanin_mem hid hn he)
  var_ne_zero {id i} hid hn := hvar i ((mem_coneInputs hg hc).mpr ⟨id, hid, hn⟩)

theorem foldlM_nodeFunction_grows (hg : g.WellFormed) {ids : List Nat}
    (hids : g.Drawable varOf ids P) (hs : s.WellFormed) (hsize : built.size = g.size)
    (h : g.Draws varOf s built P) :
    Grows (ids.foldlM (fun built id => do
        let r ← g.nodeFunction varOf built id
        return built.setIfInBounds id (some r)) built) s
      fun built s' => g.Draws varOf s' built fun id => id ∈ ids ∨ P id := by
  induction ids generalizing s built P with
  | nil => exact .result hs fun id hid => h id (hid.resolve_left List.not_mem_nil)
  | cons id ids ih =>
    obtain ⟨n, hn, hdrawn, hvar⟩ := hids.head hg
    rw [List.foldlM_cons, bind_assoc]
    refine (nodeFunction_grows hg hs h hn hdrawn hvar).bind fun r s₁ hext hs₁ hr => ?_
    rw [pure_bind]
    have hlt : id < built.size := hsize ▸ hids.lt_size List.mem_cons_self
    have hset := (h.of_includes hs.toReduced hext.toIncludes).set hlt hr
    refine (ih hids.tail hs₁ (by rwa [Array.size_setIfInBounds]) hset).imp
      fun built s' _ _ h j hj => h j ?_
    dsimp only at hj ⊢
    rw [List.mem_cons, or_assoc] at hj
    exact or_left_comm.mp hj

theorem nodeFunctions_grows (hg : g.WellFormed) {ids : List Nat}
    (hids : g.Drawable varOf ids fun _ => False) (hs : s.WellFormed) :
    Grows (g.nodeFunctions varOf ids) s fun built s' => g.Draws varOf s' built (· ∈ ids) :=
  (foldlM_nodeFunction_grows hg hids hs Array.size_replicate fun _ => False.elim).imp
    fun _ _ _ _ h id hid => h id (.inl hid)

end AndInverter.Graph
