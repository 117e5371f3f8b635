import AndInverter.Diagram.Constancy
import AndInverter.Diagram.Restriction
import AndInverter.Proofs.Diagram.Growth

/-!
# No operation moves a node

Whatever references and variables an operation is given, sound or not, and whether it succeeds or
fails, the nodes that were in the store before stay where they are.
-/

namespace AndInverter

namespace UniqueTable

variable {α : Type} [BEq α] [BucketKey α]

/-- A value is found, is refused, or is put after all others. -/
theorem intern_values (t : UniqueTable α) (value : α) :
    (t.intern value).2.capacity = t.capacity ∧
      ((t.intern value).2.values = t.values ∨
        (t.intern value).2.values = t.values.push value) := by
  cases hsearch : t.search value with
  | found j =>
    simp [intern, hsearch]
  | empty =>
    simp only [intern, hsearch]
    split
    · exact ⟨rfl, .inr rfl⟩
    · exact ⟨rfl, .inl rfl⟩
  | last j =>
    simp only [intern, hsearch]
    split
    · exact ⟨rfl, .inr rfl⟩
    · exact ⟨rfl, .inl rfl⟩

end UniqueTable

open DiagramStore

variable {s t : DiagramStore}

namespace DiagramStore

theorem extends_intern (s : DiagramStore) (n : DiagramNode) :
    s.Extends ⟨(s.nodes.intern n).2, s.computed⟩ := by
  obtain ⟨hcapacity, hvalues | hvalues⟩ := s.nodes.intern_values n
  · refine ⟨⟨?_, fun _ _ => ?_⟩, hcapacity⟩
    · change s.nodes.values.size - 1 ≤ (s.nodes.intern n).2.values.size - 1
      exact Nat.le_of_eq (by rw [hvalues])
    · rw [UniqueTable.get, UniqueTable.get, hvalues]
  · refine ⟨⟨?_, fun {i} hpos hle => ?_⟩, hcapacity⟩
    · change s.nodes.values.size - 1 ≤ (s.nodes.intern n).2.values.size - 1
      rw [hvalues, Array.size_push]
      omega
    · change i ≤ s.nodes.values.size - 1 at hle
      rw [UniqueTable.get, UniqueTable.get, hvalues, Array.getD_eq_getD_getElem?,
        Array.getD_eq_getD_getElem?, Array.getElem?_push, if_neg (by omega)]

theorem Extends.of_computed (h : t.Extends s) (computed : ComputedTable Choice Ref) :
    t.Extends ⟨s.nodes, computed⟩ :=
  ⟨⟨h.size_le, h.get_eq⟩, h.capacity_eq⟩

end DiagramStore

namespace StoreM

theorem nodeOf_keeps (t : DiagramStore) (n : DiagramNode) : Keeps t.Extends (nodeOf n) := by
  intro s hs
  have hext := hs.trans (s.extends_intern n)
  refine Ensures.bindUpdateGet (show _ = ((s.nodes.intern n).1,
    (⟨(s.nodes.intern n).2, s.computed⟩ : DiagramStore)) from rfl) ?_
  split
  · exact .result hext
  · exact .bindGet (.failure hext)

theorem node_keeps (t : DiagramStore) (v : Nat) (low high : Ref) :
    Keeps t.Extends (node v low high) := by
  unfold node
  by_cases hv : v = 0
  · rw [if_pos hv]
    exact fun _ hs => hs
  · rw [if_neg hv]
    split
    · split
      · exact .result _
      · exact (nodeOf_keeps t _).bind fun _ => .result _
    · split
      · exact .result _
      · exact nodeOf_keeps t _

theorem ofFault_keeps {α : Type} (t : DiagramStore) (x : Except Fault α) :
    Keeps t.Extends (ofFault x) := by
  cases x with
  | ok a => exact .result a
  | error f => exact .failure _

theorem settled?_keeps (t : DiagramStore) (c : Choice) : Keeps t.Extends (settled? c) :=
  fun _ hs => Ensures.updateGet (hs.of_computed _)

theorem remember_keeps (t : DiagramStore) (c : Choice) (r : Ref) : Keeps t.Extends (remember c r) :=
  fun _ hs => Ensures.update (hs.of_computed _)

theorem choose_keeps (t : DiagramStore) (c : Choice) : Keeps t.Extends (choose c) := by
  intro s hs
  induction hw : c.weight using Nat.strongRecOn generalizing c s with
  | ind m ih =>
    rw [choose]
    refine .bindGet ?_
    split
    · exact .result hs
    · rename_i n d hform
      split
      · exact .failure hs
      · rename_i htop
        have hlt (b : Bool) : (s.cofactorChoice d b).weight < m :=
          hw ▸ Nat.lt_of_lt_of_le (weight_cofactorChoice_lt htop)
            (Choice.weight_le_of_form_eq_split hform)
        refine (settled?_keeps t d s hs).bind fun r? s₁ hs₁ => ?_
        split
        · exact .result hs₁
        · refine (ofFault_keeps t _ s₁ hs₁).bind fun _ s₂ hs₂ => ?_
          refine (ih _ (hlt false) _ _ hs₂ rfl).bind fun e s₃ hs₃ => ?_
          refine (ih _ (hlt true) _ _ hs₃ rfl).bind fun t' s₄ hs₄ => ?_
          refine (node_keeps t _ e t' s₄ hs₄).bind fun r s₅ hs₅ => ?_
          exact (remember_keeps t d r s₅ hs₅).bind fun _ _ hs₆ => .result hs₆

theorem and_keeps (t : DiagramStore) (f g : Ref) : Keeps t.Extends (and f g) := choose_keeps t _

theorem restrictNode_keeps (t : DiagramStore) (v : Nat) (b : Bool) (f : Ref)
    (memo : Std.HashMap Ref Ref) : Keeps t.Extends ((restrictNode v b f).run memo) := by
  intro s hs
  induction hi : f.index using Nat.strongRecOn generalizing f s memo with
  | ind i ih =>
    rw [restrictNode]
    refine Ensures.bindRunStore ?_
    refine Ensures.bindRunLift (ofFault_keeps t _ s hs) fun _ s₁ hs₁ => ?_
    dsimp only [view]
    split
    · exact .result hs₁
    · rename_i htop
      have hsmall (b : Bool) : (s.child f b).index < i := hi ▸ index_child_lt (one_lt_index htop)
      split
      · exact .result hs₁
      · split
        · exact .result hs₁
        · refine Ensures.bindRunGet ?_
          cases memo[f]? with
          | some r => exact .result hs₁
          | none =>
            refine (ih _ (hsmall false) _ _ _ hs₁ rfl).bindRun fun e memo₁ s₂ hs₂ => ?_
            refine (ih _ (hsmall true) _ _ _ hs₂ rfl).bindRun fun t' memo₂ s₃ hs₃ => ?_
            exact (node_keeps t _ e t' s₃ hs₃).bindRunLift fun r s₄ hs₄ => hs₄

theorem restrict_keeps (t : DiagramStore) (f : Ref) (v : Nat) (b : Bool) :
    Keeps t.Extends (restrict f v b) := by
  unfold restrict
  by_cases hv : v = 0
  · rw [if_pos hv]
    exact fun _ hs => hs
  · rw [if_neg hv]
    exact (restrictNode_keeps t v b f ∅).bind fun _ => .result _

theorem constantChoice?_keeps (t : DiagramStore) (c : Choice) (memo : ConstancyMemo) :
    Keeps t.Extends ((constantChoice? c).run memo) := by
  intro s hs
  induction hw : c.weight using Nat.strongRecOn generalizing c s memo with
  | ind m ih =>
    rw [constantChoice?]
    cases c.known? with
    | some r => exact .result hs
    | none =>
      refine Ensures.bindRunLift (settled?_keeps t c s hs) fun r? s₁ hs₁ => ?_
      cases r? with
      | some r => exact .result hs₁
      | none =>
        refine Ensures.bindRunGet ?_
        cases memo[c]? with
        | some b? => exact .result hs₁
        | none =>
          refine Ensures.bindRunStore ?_
          split
          · exact .failure hs₁
          · rename_i htop
            have hlt (b : Bool) : (s₁.cofactorChoice c b).weight < m :=
              hw ▸ weight_cofactorChoice_lt htop
            refine Ensures.bindRunLift (ofFault_keeps t _ s₁ hs₁) fun _ s₂ hs₂ => ?_
            refine (ih _ (hlt true) _ _ _ hs₂ rfl).bindRun fun t? memo₃ s₃ hs₃ => ?_
            cases t? with
            | none => exact .result hs₃
            | some b =>
              exact (ih _ (hlt false) _ _ _ hs₃ rfl).bindRun fun e? memo₄ s₄ hs₄ => hs₄

theorem implies_keeps (t : DiagramStore) (f g : Ref) : Keeps t.Extends (implies f g) :=
  ((constantChoice?_keeps t _ ∅).bind fun _ => .result _).bind fun _ => .result _

end StoreM

end AndInverter
