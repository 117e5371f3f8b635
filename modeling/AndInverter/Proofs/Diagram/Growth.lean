import AndInverter.Diagram.Connectives
import AndInverter.Proofs.Diagram.Splitting

/-!
# Growing stores

A store is well-formed if it is reduced and every remembered choice is settled right. An operation
lets such a store grow, so that what it held stays, and fails only if the store is full.
-/

namespace AndInverter

/-- The errors that report a store of some capacity, all of its cells taken. -/
class Exhaustion (ε : Type) where
  IsFull : Nat → ε → Prop

instance : Exhaustion Halt := ⟨fun capacity e => e = .full capacity⟩

namespace DiagramStore

variable {ε : Type} [Exhaustion ε] {s s' s'' : DiagramStore} {x : Nat → Bool} {c d : Choice}
  {low high q r : Ref} {top : Ref → Nat} {e : ε} {n : Bool} {i v w : Nat}

/-- A reference is what a choice comes to: the function of the choice, but for the assignments
where the choice errs. -/
structure Settled (s : DiagramStore) (c : Choice) (r : Ref) : Prop where
  all_holds : c.All s.Holds
  holds : s.Holds r
  below {w : Nat} : c.All (s.Below w) → s.Below w r
  eval_eq_iff (x : Nat → Bool) : s.eval x r = c.denote (s.eval x) ↔ ¬ s.Errs x c

structure WellFormed (s : DiagramStore) : Prop extends s.Reduced where
  settled {i : Nat} {c : Choice} {r : Ref} :
    s.computed.slots[i]? = some (some (c, r)) → s.Settled c r
  regular {i : Nat} {c : Choice} {r : Ref} :
    s.computed.slots[i]? = some (some (c, r)) → c.Regular

structure Fails (s : DiagramStore) (e : ε) (s' : DiagramStore) : Prop where
  grows : s.Extends s'
  wellFormed : s'.WellFormed
  isFull : Exhaustion.IsFull s.capacity e
  size_eq : s'.size + 1 = s'.capacity

structure Denotes (s : DiagramStore) (F : (Nat → Bool) → Bool) (r : Ref) : Prop where
  holds : s.Holds r
  eval_eq (x : Nat → Bool) : s.eval x r = F x

theorem Fails.of_extends (h : s.Extends s') (hf : s'.Fails e s'') : s.Fails e s'' :=
  ⟨h.trans hf.grows, hf.wellFormed, h.capacity_eq ▸ hf.isFull, hf.size_eq⟩

namespace Settled

theorem eval_eq (h : s.Settled c r) (hs : s.Reduced) (hconn : c.IsConnective) (x : Nat → Bool) :
    s.eval x r = c.denote (s.eval x) :=
  (h.eval_eq_iff x).mpr (hs.not_errs h.all_holds hconn)

theorem of_includes (h : s.Settled c r) (hs : s.Reduced) (hinc : s.Includes s') :
    s'.Settled c r where
  all_holds := hinc.all_holds h.all_holds
  holds := hinc.holds h.holds
  below hb := (hinc.below h.holds).mpr (h.below ((hinc.all_below h.all_holds).mp hb))
  eval_eq_iff x := by
    rw [hinc.eval_eq hs h.holds, hinc.denote_eq hs h.all_holds, hinc.errs_iff hs h.all_holds]
    exact h.eval_eq_iff x

theorem of_extends (h : s.Settled c r) (hs : s.Reduced) (hext : s.Extends s') : s'.Settled c r :=
  h.of_includes hs hext.toIncludes

theorem of_form_known (hs : s.Reduced) (hc : c.All s.Holds) (h : c.form s.topVar = .known r) :
    s.Settled c r where
  all_holds := hc
  holds := hc.form_known hs.stable_holds h
  below hb := hb.form_known (s.stable_below _) h
  eval_eq_iff _ := hs.eval_eq_iff_of_form_known hc h

/-- A choice and its normal form denote one function up to the sign, and err together. -/
theorem of_form_split (hs : s.Reduced) (hc : c.All s.Holds) (h : c.form s.topVar = .split n d)
    (hr : s.Settled d r) : s.Settled c (r.negIf n) where
  all_holds := hc
  holds := holds_negIf.mpr hr.holds
  below hb := Reduced.below_negIf.mpr (hr.below (hb.form_split (s.stable_below _) h))
  eval_eq_iff x := by
    have herrs : s.Errs x c ↔ s.Errs x d := by
      rw [errs_iff_of_form_split h, errs_iff_of_form_split (hs.of_form_split hc h).2.2]
    rw [hs.eval_negIf hr.holds, ← Choice.denote_form_split hs.stable_holds (hs.valuation x) hc h,
      herrs, ← hr.eval_eq_iff x, Bool.xor_left_inj]

end Settled

theorem Denotes.of_includes {F : (Nat → Bool) → Bool} (h : s.Denotes F r) (hs : s.Reduced)
    (hinc : s.Includes s') : s'.Denotes F r :=
  ⟨hinc.holds h.holds, fun x => (hinc.eval_eq hs h.holds).trans (h.eval_eq x)⟩

theorem Denotes.of_extends {F : (Nat → Bool) → Bool} (h : s.Denotes F r) (hs : s.Reduced)
    (hext : s.Extends s') : s'.Denotes F r :=
  h.of_includes hs hext.toIncludes

theorem Denotes.congr {F G : (Nat → Bool) → Bool} (h : s.Denotes F r) (hFG : ∀ x, F x = G x) :
    s.Denotes G r :=
  ⟨h.holds, fun x => (h.eval_eq x).trans (hFG x)⟩

theorem Denotes.neg {F : (Nat → Bool) → Bool} (h : s.Denotes F r) (hs : s.Reduced) :
    s.Denotes (fun x => !F x) (-r) :=
  ⟨holds_neg.mpr h.holds, fun x => by rw [hs.eval_neg h.holds, h.eval_eq]⟩

theorem WellFormed.of_extends (hs : s.WellFormed) (hext : s.Extends s') (hs' : s'.Reduced)
    (hcomputed : s'.computed = s.computed) : s'.WellFormed where
  toReduced := hs'
  settled h := by
    rw [hcomputed] at h
    exact (hs.settled h).of_extends hs.toReduced hext
  regular h := by
    rw [hcomputed] at h
    exact hs.regular h

end DiagramStore

open DiagramStore

theorem Ensures.bindRunStore {ε β τ : Type}
    {k : DiagramStore → StateT τ (ExceptT ε (StateM DiagramStore)) β} {m : τ}
    {s : DiagramStore} {ok : β × τ → DiagramStore → Prop} {err : ε → DiagramStore → Prop}
    (h : Ensures ((k s).run m) s ok err) :
    Ensures ((getThe DiagramStore >>= k).run m) s ok err := h

theorem Ensures.bindRunFault {α β τ : Type} {x : Except Fault α} {k : α → StateT τ StoreM β} {a : α}
    {m : τ} {s : DiagramStore} {ok : β × τ → DiagramStore → Prop} {err : Halt → DiagramStore → Prop}
    (hx : x = .ok a) (h : Ensures ((k a).run m) s ok err) :
    Ensures ((liftM (StoreM.ofFault x) >>= k).run m) s ok err := by
  subst hx
  exact h

/-- An operation that lets the store grow and keeps it well-formed, with a result that has a
property. It fails on a full store only. -/
def Grows {ε α : Type} [Exhaustion ε] (op : ExceptT ε (StateM DiagramStore) α) (s : DiagramStore)
    (P : α → DiagramStore → Prop) : Prop :=
  Ensures op s (fun a s' => s.Extends s' ∧ s'.WellFormed ∧ P a s') s.Fails

namespace Grows

variable {ε α β τ : Type} [Exhaustion ε] {op : ExceptT ε (StateM DiagramStore) α}
  {k : α → ExceptT ε (StateM DiagramStore) β} {s : DiagramStore} {m : τ}
  {P Q : α → DiagramStore → Prop} {R : β → DiagramStore → Prop}

theorem result {a : α} (hs : s.WellFormed) (h : P a s) :
    Grows (pure a : ExceptT ε (StateM DiagramStore) α) s P := ⟨.refl s, hs, h⟩

theorem imp (h : Grows op s P) (hP : ∀ a s', s.Extends s' → s'.WellFormed → P a s' → Q a s') :
    Grows op s Q :=
  h.mono (fun a s' ⟨hext, hs', ha⟩ => ⟨hext, hs', hP a s' hext hs' ha⟩) fun _ _ => id

/-- Whether it succeeds or fails, the operation leaves a well-formed store that has grown. -/
theorem final_extends (h : Grows op s P) : s.Extends (op.run s).2 ∧ (op.run s).2.WellFormed :=
  have hboth : Ensures op s (fun _ s' => s.Extends s' ∧ s'.WellFormed)
      fun _ s' => s.Extends s' ∧ s'.WellFormed :=
    h.mono (fun _ _ ⟨hext, hs', _⟩ => ⟨hext, hs'⟩) fun _ _ hf => ⟨hf.grows, hf.wellFormed⟩
  hboth.final

/-- What the store has grown by carries over. -/
theorem of_extends {s' : DiagramStore} (hext : s.Extends s') (h : Grows op s' P) :
    Ensures op s' (fun a s'' => s.Extends s'' ∧ s''.WellFormed ∧ P a s'') s.Fails :=
  h.mono (fun _ _ ⟨hext', hs', ha⟩ => ⟨hext.trans hext', hs', ha⟩) fun _ _ hf => hf.of_extends hext

theorem bind (h : Grows op s P)
    (hk : ∀ a s', s.Extends s' → s'.WellFormed → P a s' → Grows (k a) s' R) :
    Grows (op >>= k) s R :=
  Ensures.bind h fun a s' ⟨hext, hs', ha⟩ => (hk a s' hext hs' ha).of_extends hext

theorem bindGet {k : DiagramStore → ExceptT ε (StateM DiagramStore) β} (h : Grows (k s) s R) :
    Grows (get >>= k) s R :=
  Ensures.bindGet h

theorem bindExcept {x : Except ε α} {a : α} (hx : x = .ok a) (h : Grows (k a) s R) :
    Grows ((liftM x : ExceptT ε (StateM DiagramStore) α) >>= k) s R :=
  Ensures.bindExcept hx h

theorem bindFault {x : Except Fault α} {k : α → StoreM β} {a : α} (hx : x = .ok a)
    (h : Grows (k a) s R) : Grows (StoreM.ofFault x >>= k) s R := by
  subst hx
  exact h

section Memory

variable {op : StateT τ (ExceptT ε (StateM DiagramStore)) α}
  {k : α → StateT τ (ExceptT ε (StateM DiagramStore)) β} {P : α × τ → DiagramStore → Prop}
  {R : β × τ → DiagramStore → Prop}

theorem bindRun (h : Grows (op.run m) s P)
    (hk : ∀ a m' s', s.Extends s' → s'.WellFormed → P (a, m') s' → Grows ((k a).run m') s' R) :
    Grows ((op >>= k).run m) s R :=
  Ensures.bindRun h fun a m' s' ⟨hext, hs', ha⟩ => (hk a m' s' hext hs' ha).of_extends hext

theorem bindRunLift {op : ExceptT ε (StateM DiagramStore) α} {P : α → DiagramStore → Prop}
    (h : Grows op s P)
    (hk : ∀ a s', s.Extends s' → s'.WellFormed → P a s' → Grows ((k a).run m) s' R) :
    Grows ((liftM op >>= k).run m) s R :=
  Ensures.bindRunLift h fun a s' ⟨hext, hs', ha⟩ => (hk a s' hext hs' ha).of_extends hext

theorem bindRunFault {x : Except Fault α} {k : α → StateT τ StoreM β} {a : α} (hx : x = .ok a)
    (h : Grows ((k a).run m) s R) : Grows ((liftM (StoreM.ofFault x) >>= k).run m) s R :=
  Ensures.bindRunFault hx h

theorem bindRunStore {k : DiagramStore → StateT τ (ExceptT ε (StateM DiagramStore)) β}
    (h : Grows ((k s).run m) s R) : Grows ((getThe DiagramStore >>= k).run m) s R :=
  Ensures.bindRunStore h

theorem bindRunGet {k : τ → StateT τ (ExceptT ε (StateM DiagramStore)) β}
    (h : Grows ((k m).run m) s R) : Grows ((get >>= k).run m) s R :=
  Ensures.bindRunGet h

theorem bindRunUpdate {f : τ → τ} {k : PUnit → StateT τ (ExceptT ε (StateM DiagramStore)) β}
    (h : Grows ((k ⟨⟩).run (f m)) s R) : Grows ((modify f >>= k).run m) s R :=
  Ensures.bindRunUpdate h

end Memory

end Grows

end AndInverter
