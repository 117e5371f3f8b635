import AndInverter.Proofs.Aiger.Covering
import Mathlib.Data.Finite.Defs
import Mathlib.Order.WellFoundedSet

/-!
# Settling the equations

The rounds settle the equations that rest on the constant and the inputs, in at most as many rounds
as there are equations. The others are left over in their order: each of them depends on a variable
that nothing defines, or on a cycle of equations that wait for each other.
-/

namespace AndInverter.Aiger

namespace Description

variable {d : Description} {qs : List Equation} {q : Equation} {v w : Nat}

/-- All that the variable depends on is defined, and nothing of it depends on itself. -/
def Grounded (d : Description) (v : Nat) : Prop :=
  ∀ w, Relation.ReflTransGen d.DependsOn v w → d.Defines w ∧ ¬ Relation.TransGen d.DependsOn w w

theorem Grounded.of_dependsOn (h : d.Grounded v) (hvw : d.DependsOn v w) : d.Grounded w :=
  fun u hwu => h u (.head hvw hwu)

theorem grounded_of_acyclic
    (hdefined : ∀ q ∈ d.gates, d.Defines (variableOf q.left) ∧ d.Defines (variableOf q.right))
    (hacyclic : ∀ v, ¬ Relation.TransGen d.DependsOn v v) (hv : d.Defines v) : d.Grounded v := by
  intro w hvw
  refine ⟨?_, hacyclic w⟩
  induction hvw with
  | refl => exact hv
  | tail _ hstep _ =>
    obtain ⟨q, hq, -, rfl | rfl⟩ := hstep
    · exact (hdefined q hq).1
    · exact (hdefined q hq).2

/-- Among equations of which one is grounded, some grounded one reads no head of the others. -/
theorem exists_independent (hq : q ∈ qs) (h : d.Grounded (variableOf q.head)) :
    ∃ q ∈ qs, d.Grounded (variableOf q.head) ∧
      ∀ r ∈ qs, ¬ d.DependsOn (variableOf q.head) (variableOf r.head) := by
  let heads := {v // v ∈ qs.map (fun q => variableOf q.head) ∧ d.Grounded v}
  let below (v w : heads) : Prop := Relation.TransGen d.DependsOn w.1 v.1
  have hfinite : Finite heads :=
    (qs.map fun q => variableOf q.head).finite_toSet.subset fun _ => And.left
  have htrans : IsTrans heads below := ⟨fun _ _ _ hvu hwv => hwv.trans hvu⟩
  have hirrefl : Std.Irrefl below := ⟨fun v => (v.2.2 v.1 .refl).2⟩
  have hfounded := Finite.wellFounded_of_trans_of_irrefl below
  obtain ⟨⟨v, hv, hground⟩, -, hmin⟩ :=
    hfounded.has_min Set.univ ⟨⟨_, List.mem_map_of_mem hq, h⟩, trivial⟩
  obtain ⟨q, hq, rfl⟩ := List.mem_map.mp hv
  exact ⟨q, hq, hground, fun r hr hqr =>
    hmin ⟨_, List.mem_map_of_mem hr, hground.of_dependsOn hqr⟩ trivial (.single hqr)⟩

end Description

namespace Scope

open AndInverter.Graph

variable {s s' : Scope} {inputs : List Nat} {gates todo : List Equation}
  {outputs : List OutputLine} {e : Edge} {q : Equation}

namespace Covers

section Description

variable {d : Description}

theorem head_not_mem (h : s.Covers d.inputs d.gates todo outputs) (hd : d.InRange)
    (hq : q ∈ todo) : variableOf q.head ∉ s.edges := by
  have hmem := h.sublist.subset hq
  rw [h.mem_iff]
  rintro (hzero | hinput | ⟨-, hhead⟩)
  · exact (hd.heads q hmem).variableOf_ne_zero hzero
  · exact hd.heads_not_inputs q hmem hinput
  · exact hhead (List.mem_map_of_mem hq)

theorem round (hd : d.InRange) (skipped : List Equation)
    (h : s.Covers d.inputs d.gates (skipped ++ todo) outputs) :
    (s.round todo).2.Covers d.inputs d.gates (skipped ++ (s.round todo).1) outputs := by
  induction todo generalizing s skipped with
  | nil => exact h
  | cons q todo ih =>
    rw [Scope.round]
    split
    · rename_i a b hab
      have hfresh := h.head_not_mem hd (q := q) (by simp)
      exact ih skipped (h.addGate hfresh hd.heads_nodup hab)
    · have hrest := ih (skipped ++ [q]) (by simpa using h)
      simpa using hrest

theorem solve (h : s.Covers d.inputs d.gates todo outputs) (hd : d.InRange)
    (hsolve : s.solve todo = .ok s') : s'.Covers d.inputs d.gates [] outputs :=
  solve_induction (P := fun s todo => s.Covers d.inputs d.gates todo outputs)
    (fun _ _ h => h.round hd []) h hsolve

/-- An operand that is not known is the head of another equation still to do, if it is defined. -/
theorem exists_dependsOn (h : s.Covers d.inputs d.gates todo outputs) (hq : q ∈ todo)
    (hground : d.Grounded (variableOf q.head)) (hnone : s.operands? q = none) :
    ∃ r ∈ todo, d.DependsOn (variableOf q.head) (variableOf r.head) := by
  obtain ⟨v, hv, hfree⟩ := exists_not_mem_of_operands?_eq_none hnone
  have hmem := h.sublist.subset hq
  have hdef : d.Defines v := (hground v (.single ⟨q, hmem, rfl, hv⟩)).1
  rw [h.mem_iff] at hfree
  push Not at hfree
  rcases hdef with hzero | hinput | hhead
  · exact absurd hzero hfree.1
  · exact absurd hinput hfree.2.1
  · obtain ⟨r, hr, hrv⟩ := List.mem_map.mp (hfree.2.2 hhead)
    exact ⟨r, hr, q, hmem, rfl, hrv ▸ hv⟩

/-- Where no equation has known operands none is grounded, since there are only so many for each to
wait for the next. -/
theorem not_grounded (h : s.Covers d.inputs d.gates todo outputs)
    (hstuck : ∀ q ∈ todo, s.operands? q = none) (hq : q ∈ todo) :
    ¬ d.Grounded (variableOf q.head) := by
  intro hground
  obtain ⟨q, hq, hground, hmin⟩ := Description.exists_independent hq hground
  obtain ⟨r, hr, hqr⟩ := h.exists_dependsOn hq hground (hstuck q hq)
  exact hmin r hr hqr

end Description

end Covers

theorem length_round_lt (hq : q ∈ todo) (h : s.operands? q ≠ none) :
    (s.round todo).1.length < todo.length := by
  induction todo with
  | nil => cases hq
  | cons r todo ih =>
    rw [round]
    split
    · exact Nat.lt_succ_of_le (length_round_le _ _)
    · rename_i hnone
      have hq' : q ∈ todo := by
        rcases List.mem_cons.mp hq with rfl | hq
        · exact absurd hnone h
        · exact hq
      exact Nat.succ_lt_succ (ih hq')

theorem Covers.addOutputs {os : List OutputLine} (h : s.Covers inputs gates todo outputs)
    (hout : s.addOutputs os.toArray = .ok s') :
    s'.Covers inputs gates todo (outputs ++ os) := by
  rw [Scope.addOutputs, ← Array.foldlM_toList] at hout
  induction os generalizing s outputs with
  | nil =>
    cases hout
    rwa [List.append_nil]
  | cons o os ih =>
    rw [List.foldlM_cons, Except.bind_eq_ok_iff] at hout
    obtain ⟨t, ht, hout⟩ := hout
    split at ht
    · rename_i e he
      cases ht
      have hrest := ih (h.addOutput he) hout
      rwa [List.append_assoc] at hrest
    · cases ht

theorem exists_addOutputs {os : List OutputLine}
    (h : ∀ o ∈ os, variableOf o.literal ∈ s.edges) : ∃ s', s.addOutputs os.toArray = .ok s' := by
  simp only [addOutputs, ← Array.foldlM_toList]
  induction os generalizing s with
  | nil => exact ⟨s, rfl⟩
  | cons o os ih =>
    obtain ⟨ho, hos⟩ := List.forall_mem_cons.mp h
    obtain ⟨e, he⟩ := exists_edge?_iff.mpr ho
    obtain ⟨s', hs'⟩ := ih (s := s.addOutput e) hos
    refine ⟨s', ?_⟩
    rw [List.foldlM_cons, he]
    exact hs'

section Description

variable {d : Description} {v w : Nat}

theorem Covers.mem_iff_defines (h : s.Covers d.inputs d.gates [] outputs) :
    v ∈ s.edges ↔ d.Defines v := by
  rw [h.mem_iff, Description.Defines]
  simp

theorem Covers.defines (h : s.Covers d.inputs d.gates todo outputs) (hv : v ∈ s.edges) :
    d.Defines v :=
  (h.mem_iff.mp hv).imp_right (Or.imp_right And.left)

def rank (s : Scope) (v : Nat) : Nat := (s.edges[v]?.map Edge.node).getD 0

theorem rank_of_edge? {literal : Nat} (h : s.edge? literal = some e) :
    s.rank (variableOf literal) = e.node := by
  obtain ⟨d, hd, rfl⟩ := edge?_eq_some_iff.mp h
  rw [rank, hd]
  rfl

theorem Covers.settles (h : s.Covers inputs gates [] outputs) (hq : q ∈ gates) : s.Settles q :=
  (h.gate hq).resolve_left List.not_mem_nil

theorem Settles.head_mem (h : s.Settles q) : variableOf q.head ∈ s.edges := by
  obtain ⟨id, a, b, hhead, -⟩ := h
  exact Std.HashMap.mem_iff_isSome_getElem?.mpr (by rw [hhead]; rfl)

/-- What a settled variable reads is settled before it. -/
theorem Covers.rank_lt (h : s.Covers d.inputs d.gates todo outputs) (hd : d.InRange)
    (hv : v ∈ s.edges) (hvw : d.DependsOn v w) : w ∈ s.edges ∧ s.rank w < s.rank v := by
  obtain ⟨q, hq, rfl, hw⟩ := hvw
  obtain ⟨id, a, b, hhead, hab, hn⟩ :=
    (h.gate hq).resolve_left fun htodo => h.head_not_mem hd htodo hv
  obtain ⟨ha, hb⟩ := operands?_eq_some_iff.mp hab
  have hrank : s.rank (variableOf q.head) = id := by
    rw [rank, hhead]
    rfl
  rw [hrank]
  rcases hw with rfl | rfl
  · rw [rank_of_edge? ha]
    exact ⟨exists_edge?_iff.mp ⟨a, ha⟩, h.wellFormed.graph.fanin_lt hn (by simp)⟩
  · rw [rank_of_edge? hb]
    exact ⟨exists_edge?_iff.mp ⟨b, hb⟩, h.wellFormed.graph.fanin_lt hn (by simp)⟩

theorem Covers.rank_lt_of_transGen (h : s.Covers d.inputs d.gates todo outputs) (hd : d.InRange)
    (hv : v ∈ s.edges) (hvw : Relation.TransGen d.DependsOn v w) :
    w ∈ s.edges ∧ s.rank w < s.rank v := by
  induction hvw with
  | single hstep => exact h.rank_lt hd hv hstep
  | tail _ hstep ih =>
    have hnext := h.rank_lt hd ih.1 hstep
    exact ⟨hnext.1, Nat.lt_trans hnext.2 ih.2⟩

/-- Nodes are settled in turn, so what is settled is grounded. -/
theorem Covers.grounded (h : s.Covers d.inputs d.gates todo outputs) (hd : d.InRange)
    (hv : v ∈ s.edges) : d.Grounded v := by
  intro w hvw
  have hw : w ∈ s.edges := by
    rcases Relation.reflTransGen_iff_eq_or_transGen.mp hvw with rfl | hvw
    · exact hv
    · exact (h.rank_lt_of_transGen hd hv hvw).1
  exact ⟨h.defines hw, fun hww => Nat.lt_irrefl _ (h.rank_lt_of_transGen hd hw hww).2⟩

theorem Covers.acyclic (h : s.Covers d.inputs d.gates [] outputs) (hd : d.InRange) (v : Nat) :
    ¬ Relation.TransGen d.DependsOn v v := by
  intro hvv
  obtain ⟨w, ⟨q, hq, rfl, -⟩, -⟩ := Relation.TransGen.head'_iff.mp hvv
  exact (h.grounded hd (h.settles hq).head_mem _ .refl).2 hvv

/-- When nothing can be settled any more, exactly the equations that are not grounded are left. -/
theorem Covers.mem_todo_iff (h : s.Covers d.inputs d.gates todo outputs) (hd : d.InRange)
    (hstuck : ∀ q ∈ todo, s.operands? q = none) (hq : q ∈ d.gates) :
    q ∈ todo ↔ ¬ d.Grounded (variableOf q.head) :=
  ⟨h.not_grounded hstuck, fun hground =>
    (h.gate hq).resolve_right fun hsettles => hground (h.grounded hd hsettles.head_mem)⟩

end Description

/-- How the rounds end: their number, the equations that are left open, and the scope. -/
structure Settlement where
  rounds : Nat
  left : List Equation
  scope : Scope

def settle (s : Scope) (qs : List Equation) : Settlement :=
  if qs = [] then ⟨0, [], s⟩
  else if (s.round qs).1.length < qs.length then
    let t := (s.round qs).2.settle (s.round qs).1
    ⟨t.rounds + 1, t.left, t.scope⟩
  else ⟨1, (s.round qs).1, (s.round qs).2⟩
termination_by qs.length

theorem operands?_eq_none_of_length_le (h : todo.length ≤ (s.round todo).1.length) (hq : q ∈ todo) :
    s.operands? q = none := by
  by_contra hknown
  exact absurd (length_round_lt hq hknown) (Nat.not_lt.mpr h)

theorem round_eq_self (h : ∀ q ∈ todo, s.operands? q = none) : s.round todo = (todo, s) := by
  induction todo with
  | nil => rfl
  | cons q todo ih =>
    obtain ⟨hq, htodo⟩ := List.forall_mem_cons.mp h
    simp only [round, hq, ih htodo]

/-- Every round but the last one settles an equation. -/
theorem rounds_settle_le (s : Scope) (qs : List Equation) : (s.settle qs).rounds ≤ qs.length := by
  fun_induction settle s qs with
  | case1 => exact Nat.zero_le _
  | case2 s qs hne hlt t ih => exact Nat.lt_of_le_of_lt ih hlt
  | case3 s qs hne hlt => exact List.length_pos_of_ne_nil hne

/-- No equation that is left over has known operands. -/
theorem operands?_of_mem_left (hq : q ∈ (s.settle todo).left) :
    (s.settle todo).scope.operands? q = none := by
  fun_induction settle s todo with
  | case1 => exact absurd hq List.not_mem_nil
  | case2 s qs hne hlt t ih => exact ih hq
  | case3 s qs hne hlt =>
    have hnone : ∀ q ∈ qs, s.operands? q = none := fun q hq =>
      operands?_eq_none_of_length_le (Nat.not_lt.mp hlt) hq
    rw [round_eq_self hnone] at hq ⊢
    exact hnone q hq

theorem Covers.settle {d : Description} (h : s.Covers d.inputs d.gates todo outputs)
    (hd : d.InRange) :
    (s.settle todo).scope.Covers d.inputs d.gates (s.settle todo).left outputs := by
  fun_induction Scope.settle s todo with
  | case1 s => exact h
  | case2 s qs hne hlt t ih => exact ih (h.round hd [])
  | case3 s qs hne hlt => exact h.round hd []

/-- Solving succeeds when no equation is left over, and else blames the first one. -/
theorem solve_eq (s : Scope) (qs : List Equation) : s.solve qs =
    ((s.settle qs).left.head?.elim (.ok (s.settle qs).scope) fun q =>
      .error ((Problem.undefinedFanin q.head q.left q.right).at q.line)) := by
  fun_induction settle s qs with
  | case1 s => rw [solve, round]; rfl
  | case2 s qs hne hlt t ih =>
    rw [solve]
    split
    · rename_i s' heq
      have ht : t = ⟨0, [], s'⟩ := by
        simp only [t, heq]
        rw [settle, if_pos rfl]
      rw [ht]
      rfl
    · rename_i q rest s' heq
      rw [heq] at hlt ih
      rw [dif_pos hlt, ih]
      simp only [t, heq]
  | case3 s qs hne hlt =>
    rw [solve]
    split
    · rename_i s' heq
      rw [heq] at hlt
      exact absurd (List.length_pos_of_ne_nil hne) hlt
    · rename_i q rest s' heq
      rw [heq] at hlt
      rw [dif_neg hlt, heq]
      rfl

theorem Covers.exists_solve {d : Description} (h : s.Covers d.inputs d.gates todo outputs)
    (hd : d.InRange)
    (hdefined : ∀ q ∈ d.gates, d.Defines (variableOf q.left) ∧ d.Defines (variableOf q.right))
    (hacyclic : ∀ v, ¬ Relation.TransGen d.DependsOn v v) : ∃ s', s.solve todo = .ok s' := by
  have hsettled := h.settle hd
  have hleft : (s.settle todo).left = [] := by
    refine List.eq_nil_iff_forall_not_mem.mpr fun q hq => ?_
    refine hsettled.not_grounded (fun _ => operands?_of_mem_left) hq ?_
    have hmem := hsettled.sublist.subset hq
    exact Description.grounded_of_acyclic hdefined hacyclic (.inr (.inr (List.mem_map_of_mem hmem)))
  exact ⟨_, by rw [solve_eq, hleft]; rfl⟩

end Scope

end AndInverter.Aiger
