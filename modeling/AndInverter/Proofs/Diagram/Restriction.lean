import AndInverter.Diagram.Restriction
import AndInverter.Proofs.Diagram.Connectives

/-!
# Restriction fixes a variable

The restriction of a function takes the values that the function takes where the variable is fixed.
Its memory of the functions done so far never answers anything else.
-/

namespace AndInverter

namespace DiagramStore

variable {s s' : DiagramStore} {memo : Std.HashMap Ref Ref} {f e t r : Ref} {b : Bool} {v : Nat}

structure Restricts (s : DiagramStore) (v : Nat) (b : Bool) (f r : Ref) : Prop where
  holds_arg : s.Holds f
  holds : s.Holds r
  below {w : Nat} : s.Below w f → s.Below w r
  eval_eq (x : Nat → Bool) : s.eval x r = s.eval (Function.update x v b) f

namespace Restricts

theorem of_includes (h : s.Restricts v b f r) (hs : s.Reduced) (hinc : s.Includes s') :
    s'.Restricts v b f r where
  holds_arg := hinc.holds h.holds_arg
  holds := hinc.holds h.holds
  below hb := (hinc.below h.holds).mpr (h.below ((hinc.below h.holds_arg).mp hb))
  eval_eq x := by rw [hinc.eval_eq hs h.holds, hinc.eval_eq hs h.holds_arg, h.eval_eq]

theorem of_extends (h : s.Restricts v b f r) (hs : s.Reduced) (hext : s.Extends s') :
    s'.Restricts v b f r :=
  h.of_includes hs hext.toIncludes

/-- A function that starts after the variable is its own restriction. -/
theorem of_below (hs : s.Reduced) (hf : s.Holds f) (hb : s.Below v f) : s.Restricts v b f f where
  holds_arg := hf
  holds := hf
  below := id
  eval_eq x := hs.eval_congr hf hb fun w hw => by rw [Function.update_of_ne (by omega)]

theorem of_child (hs : s.Reduced) (hf : s.Holds f) (htop : s.topVar f ≠ 0) :
    s.Restricts (s.topVar f) b f (s.child f b) := by
  have hchild : s.cofactor (s.topVar f) b f = s.child f b := if_pos rfl
  rw [← hchild]
  exact ⟨hf, hs.holds_cofactor hf htop, hs.below_cofactor_of_below hf htop,
    fun x => hs.eval_cofactor hf htop (.inr (Nat.le_refl _))⟩

theorem of_children (hf : s.Holds f) (htop : s.topVar f ≠ 0) (hv : s.topVar f < v)
    (he : s.Restricts v b (s.child f false) e) (ht : s.Restricts v b (s.child f true) t)
    (hr : s.Tests (s.topVar f) e t r) : s.Restricts v b f r where
  holds_arg := hf
  holds := hr.holds
  below hb := hr.below (hb.resolve_left htop)
  eval_eq x := by
    have hself : Function.update x v b (s.topVar f) = x (s.topVar f) :=
      Function.update_of_ne (by omega) _ _
    rw [hr.eval_eq, eval_of_topVar_ne_zero htop, hself]
    cases x (s.topVar f) with
    | false => exact he.eval_eq x
    | true => exact ht.eval_eq x

end Restricts

end DiagramStore

namespace StoreM

open DiagramStore

variable {s : DiagramStore} {memo : Std.HashMap Ref Ref} {f : Ref} {b : Bool} {v : Nat}

theorem restrictNode_grows (hs : s.WellFormed) (hf : s.Holds f)
    (hmemo : Remembers (s.Restricts v b) memo) :
    Grows ((restrictNode v b f).run memo) s
      fun p s' => s'.Restricts v b f p.1 ∧ Remembers (s'.Restricts v b) p.2 := by
  induction hi : f.index using Nat.strongRecOn generalizing f s memo with
  | ind i ih =>
    rw [restrictNode]
    refine .bindRunStore ?_
    refine .bindRunFault (hs.check_eq_ok hf) ?_
    dsimp only [view]
    split
    · rename_i htop
      exact .result hs ⟨.of_below hs.toReduced hf (.inl htop), hmemo⟩
    · rename_i htop
      have hlt := one_lt_index htop
      have hchild (b : Bool) : s.Holds (s.child f b) := hs.holds_child hf hlt
      have hsmall (b : Bool) : (s.child f b).index < i := hi ▸ index_child_lt hlt
      split
      · rename_i hv
        exact .result hs ⟨.of_below hs.toReduced hf (.inr hv), hmemo⟩
      · split
        · rename_i hv
          subst hv
          refine .result hs ⟨?_, hmemo⟩
          cases b with
          | false => exact .of_child hs.toReduced hf htop
          | true => exact .of_child hs.toReduced hf htop
        · rename_i hle hne
          refine .bindRunGet ?_
          cases hr? : memo[f]? with
          | some r => exact .result hs ⟨hmemo f r hr?, hmemo⟩
          | none =>
            refine (ih _ (hsmall false) hs (hchild false) hmemo rfl).bindRun
              fun e memo₁ s₁ hext₁ hs₁ ⟨he, hmemo₁⟩ => ?_
            refine (ih _ (hsmall true) hs₁ (hext₁.holds (hchild true)) hmemo₁ rfl).bindRun
              fun t memo₂ s₂ hext₂ hs₂ ⟨ht, hmemo₂⟩ => ?_
            -- What the low child came to is still right in the store of the high child.
            have he := he.of_extends hs₁.toReduced hext₂
            have hext₂ := hext₁.trans hext₂
            have hbelow (b : Bool) : s₂.Below (s.topVar f) (s.child f b) :=
              (hext₂.below (hchild b)).mpr (hs.below_child hf hlt)
            refine (node_grows hs₂ htop he.holds ht.holds (he.below (hbelow false))
              (ht.below (hbelow true))).bindRunLift fun r s₃ hext₃ hs₃ hr => ?_
            have he := he.of_extends hs₂.toReduced hext₃
            have ht := ht.of_extends hs₂.toReduced hext₃
            have hmemo₃ := hmemo₂.imp fun _ _ h => h.of_extends hs₂.toReduced hext₃
            have hext₃ := hext₂.trans hext₃
            rw [← hext₃.child_eq hf] at he ht
            rw [← hext₃.topVar_eq hf] at htop hr hle hne
            have hr := Restricts.of_children (hext₃.holds hf) htop (by omega) he ht hr
            exact .bindRunUpdate (.result hs₃ ⟨hr, hmemo₃.insert hr⟩)

theorem restrict_grows (hs : s.WellFormed) (hf : s.Holds f) (hv : v ≠ 0) :
    Grows (restrict f v b) s
      fun r s' => s'.Denotes (fun x => s.eval (Function.update x v b) f) r := by
  rw [restrict, if_neg hv]
  refine (restrictNode_grows hs hf .empty).bind fun p s' hext hs' ⟨hr, _⟩ => .result hs'
    ⟨hr.holds, fun x => ?_⟩
  rw [hr.eval_eq, hext.eval_eq hs.toReduced hf]

end StoreM

end AndInverter
