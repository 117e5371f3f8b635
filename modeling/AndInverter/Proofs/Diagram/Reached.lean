import AndInverter.Proofs.Diagram.Restriction

/-!
# Stores that operations can reach

A store starts with the terminal alone and is changed by operations on references it holds, failed
ones included. What an operation asks for is its `denote`, in terms of the functions of the
arguments. The store stays canonical all along, and `Preserves` the references it holds with their
functions.
-/

namespace AndInverter

open DiagramStore

inductive Operation where
  | var (v : Nat)
  | node (v : Nat) (low high : Ref)
  | cube (literals : List Int)
  | ite (f g h : Ref)
  | and (f g : Ref)
  | or (f g : Ref)
  | xor (f g : Ref)
  | iff (f g : Ref)
  | conjunction (fs : List Ref)
  | restrict (f : Ref) (v : Nat) (b : Bool)

namespace Operation

def run : Operation → StoreM Ref
  | var v => StoreM.var v
  | node v low high => StoreM.node v low high
  | cube literals => StoreM.cube literals
  | ite f g h => StoreM.ite f g h
  | and f g => StoreM.and f g
  | or f g => StoreM.or f g
  | xor f g => StoreM.xor f g
  | iff f g => StoreM.iff f g
  | conjunction fs => StoreM.conjunction fs
  | restrict f v b => StoreM.restrict f v b

/-- The arguments are references that the store holds and variables, which are not zero. A new node
is put before its children, and a cube names no variable twice. The absolute values of its literals
are numbers of 31 bits. -/
def Admissible (s : DiagramStore) : Operation → Prop
  | var v => v ≠ 0
  | node v low high => v ≠ 0 ∧ s.Holds low ∧ s.Holds high ∧ s.Below v low ∧ s.Below v high
  | cube literals => (∀ l ∈ literals, l ≠ 0) ∧ (∀ l ∈ literals, l.natAbs < 0x80000000) ∧
    (literals.map Int.natAbs).Nodup
  | ite f g h => s.Holds f ∧ s.Holds g ∧ s.Holds h
  | and f g => s.Holds f ∧ s.Holds g
  | or f g => s.Holds f ∧ s.Holds g
  | xor f g => s.Holds f ∧ s.Holds g
  | iff f g => s.Holds f ∧ s.Holds g
  | conjunction fs => ∀ f ∈ fs, s.Holds f
  | restrict f v _ => s.Holds f ∧ v ≠ 0

def denote (s : DiagramStore) (x : Nat → Bool) : Operation → Bool
  | var v => x v
  | node v low high => if x v then s.eval x high else s.eval x low
  | cube literals => literals.all (StoreM.literalValue x)
  | ite f g h => s.eval x f && s.eval x g || !s.eval x f && s.eval x h
  | and f g => s.eval x f && s.eval x g
  | or f g => s.eval x f || s.eval x g
  | xor f g => s.eval x f ^^ s.eval x g
  | iff f g => s.eval x f == s.eval x g
  | conjunction fs => fs.all (s.eval x)
  | restrict f v b => s.eval (Function.update x v b) f

instance (s : DiagramStore) : (op : Operation) → Decidable (op.Admissible s)
  | var v => inferInstanceAs (Decidable (v ≠ 0))
  | node v low high =>
    inferInstanceAs
      (Decidable (v ≠ 0 ∧ s.Holds low ∧ s.Holds high ∧ s.Below v low ∧ s.Below v high))
  | cube literals =>
    inferInstanceAs (Decidable ((∀ l ∈ literals, l ≠ 0) ∧ (∀ l ∈ literals, l.natAbs < 0x80000000) ∧
      (literals.map Int.natAbs).Nodup))
  | ite f g h => inferInstanceAs (Decidable (s.Holds f ∧ s.Holds g ∧ s.Holds h))
  | and f g | or f g | xor f g | iff f g => inferInstanceAs (Decidable (s.Holds f ∧ s.Holds g))
  | conjunction fs => inferInstanceAs (Decidable (∀ f ∈ fs, s.Holds f))
  | restrict f v _ => inferInstanceAs (Decidable (s.Holds f ∧ v ≠ 0))

end Operation

namespace DiagramStore

variable {s s' : DiagramStore} {op : Operation} {q r : Ref} {i j : Nat}

/-- The stores that operations lead to, whether they succeed or fail. -/
inductive Reached : DiagramStore → Prop
  | start {bits : Nat} {s : DiagramStore} : ofBits? bits = .ok s → Reached s
  | step {s : DiagramStore} {op : Operation} : Reached s → op.Admissible s →
    Reached (op.run.run s).2

/-- Nodes are reduced, ordered and unique, and equal functions have equal references. -/
structure Canonical (s : DiagramStore) : Prop where
  high_regular {i : Nat} : 1 < i → i ≤ s.size → ¬ (s.nodes.get i).high.IsNegated
  low_ne_high {i : Nat} : 1 < i → i ≤ s.size → (s.nodes.get i).low ≠ (s.nodes.get i).high
  var_lt_low {i : Nat} : 1 < i → i ≤ s.size → s.Holds (s.nodes.get i).low ∧
    (1 < (s.nodes.get i).low.index → (s.nodes.get i).var < s.topVar (s.nodes.get i).low)
  var_lt_high {i : Nat} : 1 < i → i ≤ s.size → s.Holds (s.nodes.get i).high ∧
    (1 < (s.nodes.get i).high.index → (s.nodes.get i).var < s.topVar (s.nodes.get i).high)
  unique {i j : Nat} : 1 < i → i ≤ s.size → 1 < j → j ≤ s.size →
    s.nodes.get i = s.nodes.get j → i = j
  eval_eq_iff {q r : Ref} : s.Holds q → s.Holds r → ((∀ x, s.eval x q = s.eval x r) ↔ q = r)

def Preserves (s s' : DiagramStore) : Prop :=
  ∀ r, s.Holds r → s'.Holds r ∧ ∀ x, s'.eval x r = s.eval x r

theorem Extends.preserves (h : s.Extends s') (hs : s.Reduced) : s.Preserves s' :=
  fun _ hr => ⟨h.holds hr, fun _ => h.eval_eq hs hr⟩

theorem Reduced.canonical (hs : s.Reduced) : s.Canonical where
  high_regular hi hle := (hs.proper hi hle).high_regular
  low_ne_high hi hle := (hs.proper hi hle).low_ne_high
  var_lt_low hi hle := by
    have hn := hs.proper hi hle
    have hholds := hn.holds_low (Nat.le_succ_of_le hle)
    exact ⟨hholds, fun h => hn.below_low.resolve_left (hs.topVar_ne_zero hholds h)⟩
  var_lt_high hi hle := by
    have hn := hs.proper hi hle
    have hholds := hn.holds_high (Nat.le_succ_of_le hle)
    exact ⟨hholds, fun h => hn.below_high.resolve_left (hs.topVar_ne_zero hholds h)⟩
  unique hi hile hj hjle heq := by
    have h := hs.found hi hile
    rw [heq, hs.found hj hjle, UniqueTable.Search.found.injEq] at h
    exact h.symm
  eval_eq_iff hq hr := hs.eval_eq_iff hq hr

end DiagramStore

namespace Operation

variable {s : DiagramStore} {op : Operation}

/-- Every operation but a choice makes a reference to the function it asks for. -/
theorem run_grows_denotes (hs : s.WellFormed) (hop : op.Admissible s)
    (hite : ∀ f g h, op ≠ .ite f g h) : Grows op.run s fun r s' => s'.Denotes (op.denote s) r := by
  cases op with
  | var v =>
    refine (StoreM.var_grows hs hop).imp fun r s' _ _ hr => ⟨hr.holds, fun x => ?_⟩
    rw [hr.eval_eq, eval_one, eval_zero, denote]
    cases x v <;> rfl
  | node v low high =>
    obtain ⟨hv, hlow, hhigh, hblow, hbhigh⟩ := hop
    refine (StoreM.node_grows hs hv hlow hhigh hblow hbhigh).imp fun r s' hext _ hr =>
      ⟨hr.holds, fun x => ?_⟩
    rw [hr.eval_eq, hext.eval_eq hs.toReduced hlow, hext.eval_eq hs.toReduced hhigh, denote]
  | cube literals => exact StoreM.cube_grows hs hop.1 hop.2.2
  | ite f g h => exact absurd rfl (hite f g h)
  | and f g => exact StoreM.and_grows hs hop.1 hop.2
  | or f g => exact StoreM.or_grows hs hop.1 hop.2
  | xor f g => exact StoreM.xor_grows hs hop.1 hop.2
  | iff f g => exact StoreM.iff_grows hs hop.1 hop.2
  | conjunction fs => exact StoreM.conjunction_grows hs hop
  | restrict f v b => exact StoreM.restrict_grows hs hop.1 hop.2

theorem ite_grows_denotes_iff {f g h : Ref} (hs : s.WellFormed)
    (hop : (Operation.ite f g h).Admissible s) : Grows (Operation.ite f g h).run s fun r s' =>
      s'.Holds r ∧ ∀ x, s'.eval x r = (Operation.ite f g h).denote s x ↔ ¬ s.Errs x ⟨f, g, h⟩ := by
  have hc : (⟨f, g, h⟩ : Choice).All s.Holds := hop
  refine (StoreM.choose_grows hs hc).imp fun r s' hext _ hr => ⟨hr.holds, fun x => ?_⟩
  have hdenote : (Operation.ite f g h).denote s x = (⟨f, g, h⟩ : Choice).denote (s.eval x) := by
    rw [denote, Choice.denote]
    cases s.eval x f <;> simp
  rw [hdenote, ← hext.denote_eq hs.toReduced hc, hr.eval_eq_iff, hext.errs_iff hs.toReduced hc]

theorem run_grows (hs : s.WellFormed) (hop : op.Admissible s) :
    Grows op.run s fun r s' => s'.Holds r := by
  by_cases hite : ∃ f g h, op = .ite f g h
  · obtain ⟨f, g, h, rfl⟩ := hite
    exact (ite_grows_denotes_iff hs hop).imp fun _ _ _ _ hr => hr.1
  · exact (run_grows_denotes hs hop fun f g h heq => hite ⟨f, g, h, heq⟩).imp
      fun _ _ _ _ hr => hr.holds

end Operation

namespace DiagramStore

variable {s : DiagramStore} {op : Operation}

theorem Reached.wellFormed (hs : Reached s) : s.WellFormed := by
  induction hs with
  | start h =>
    rw [ofBits?] at h
    split at h
    · rename_i hbits
      cases h
      exact wellFormed_ofBits hbits.1 hbits.2
    · cases h
  | step _ hop ih =>
    exact ((Operation.run_grows ih hop).mono (fun _ _ h => h.2.1) fun _ _ h => h.wellFormed).final

/-- A store that operations lead to is canonical. The next operation answers with a reference, or
fails because the store is full, and changes no function that the store holds. -/
theorem Reached.stays_canonical (hs : Reached s) :
    s.Canonical ∧ ∀ op : Operation, op.Admissible s →
      Ensures op.run s (fun r s' => s'.Holds r ∧ s.Preserves s')
        (fun e s' => e = .full s.capacity ∧ s'.size = s'.capacity - 1 ∧ s.Preserves s') := by
  have hwf := hs.wellFormed
  refine ⟨hwf.canonical, fun op hop => (Operation.run_grows hwf hop).mono
    (fun r s' ⟨hext, _, hr⟩ => ⟨hr, hext.preserves hwf.toReduced⟩)
    fun e s' hf => ⟨hf.isFull, ?_, hf.grows.preserves hwf.toReduced⟩⟩
  have := hf.size_eq
  omega

def filled : DiagramStore :=
  ((Operation.and ⟨2⟩ ⟨3⟩).run.run ((Operation.var 2).run.run
    ((Operation.var 1).run.run (ofBits 2)).2).2).2

theorem filled_reached : Reached filled :=
  have hstart : ofBits? 2 = .ok (ofBits 2) := rfl
  .step (.step (.step (.start hstart) (by decide)) (by decide +kernel)) (by decide +kernel)

theorem Reached.stays_canonical_filled :
    Reached filled ∧ filled.Canonical ∧
      ((Operation.and ⟨2⟩ ⟨3⟩).run.run filled).1.toOption = none ∧
      Ensures (Operation.and ⟨2⟩ ⟨3⟩).run filled (fun r s' => s'.Holds r ∧ filled.Preserves s')
        fun e s' => e = .full filled.capacity ∧ s'.size = s'.capacity - 1 ∧ filled.Preserves s' :=
  ⟨filled_reached, (Reached.stays_canonical filled_reached).1, by decide +kernel,
    (Reached.stays_canonical filled_reached).2 _ (by decide +kernel)⟩

end DiagramStore

end AndInverter
