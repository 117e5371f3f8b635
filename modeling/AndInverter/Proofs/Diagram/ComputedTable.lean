import AndInverter.Diagram.ComputedTable
import AndInverter.Proofs.Diagram.Chains
import AndInverter.Proofs.Diagram.Pairing
import Mathlib.Data.List.Induction

/-!
# What a computed table remembers

A `slot` holds the latest entry that was put there since all entries were last forgotten, whatever
keys share the slot. A look-up answers the value of that entry if its key is equal to the one in
question, and nothing else.
-/

namespace AndInverter.ComputedTable

variable {κ υ : Type}

section Latest

inductive Call (κ υ : Type) where
  | insert (key : κ) (value : υ)
  | lookup (key : κ)
  | clear

def Call.isLookup : Call κ υ → Bool
  | .lookup _ => true
  | _ => false

variable {p q : κ → Prop} {calls : List (Call κ υ)} {c : Call κ υ} {key : κ} {value : υ}

/-- Since all entries were last forgotten, some key with the property `p` has been inserted, and the
latest such call inserted `value` for `key`. -/
def Latest (p : κ → Prop) (calls : List (Call κ υ)) (key : κ) (value : υ) : Prop :=
  p key ∧ ∃ before rest, calls = before ++ .insert key value :: rest ∧ .clear ∉ rest ∧
    ∀ k v, .insert k v ∈ rest → ¬ p k

theorem not_latest_nil : ¬ Latest p ([] : List (Call κ υ)) key value := by
  rintro ⟨-, before, rest, heq, -⟩
  simp at heq

/-- The last call is the latest one, or it leaves the latest one of the calls before it. -/
theorem latest_concat_iff : Latest p (calls ++ [c]) key value ↔
    p key ∧ c = .insert key value ∨
      Latest p calls key value ∧ c ≠ .clear ∧ ∀ k v, c = .insert k v → ¬ p k := by
  constructor
  · rintro ⟨hp, before, rest, heq, hclear, hlater⟩
    obtain rfl | ⟨rest, d, rfl⟩ : rest = [] ∨ ∃ init d, rest = init ++ [d] := by
      simpa using List.eq_nil_or_concat rest
    · obtain ⟨-, hc⟩ := List.append_inj' heq rfl
      exact .inl ⟨hp, List.head_eq_of_cons_eq hc⟩
    · rw [← List.cons_append, ← List.append_assoc] at heq
      obtain ⟨hcalls, hc⟩ := List.append_inj' heq rfl
      obtain rfl := List.head_eq_of_cons_eq hc
      refine .inr ⟨⟨hp, before, rest, hcalls, ?_, ?_⟩, ?_, ?_⟩
      · exact fun h => hclear (List.mem_append_left _ h)
      · exact fun k v h => hlater k v (List.mem_append_left _ h)
      · rintro rfl
        exact hclear List.mem_concat_self
      · rintro k v rfl
        exact hlater k v List.mem_concat_self
  · rintro (⟨hp, rfl⟩ | ⟨⟨hp, before, rest, rfl, hclear, hlater⟩, hc, hnew⟩)
    · exact ⟨hp, calls, [], rfl, List.not_mem_nil, fun _ _ h => absurd h List.not_mem_nil⟩
    · refine ⟨hp, before, rest ++ [c], by simp, ?_, ?_⟩
      · simpa using ⟨hclear, Ne.symm hc⟩
      · intro k v h
        rcases List.mem_append.mp h with h | h
        · exact hlater k v h
        · exact hnew k v (List.mem_singleton.mp h).symm

/-- The latest of some keys is the latest of those among them that have a narrower property. -/
theorem Latest.narrow (h : Latest p calls key value) (hq : ∀ k, q k → p k) (hkey : q key) :
    Latest q calls key value := by
  obtain ⟨-, before, rest, heq, hclear, hlater⟩ := h
  exact ⟨hkey, before, rest, heq, hclear, fun k v hmem hk => hlater k v hmem (hq k hk)⟩

end Latest

section Slots

variable [BucketKey κ] {t : ComputedTable κ υ} {calls : List (Call κ υ)} {bits : Nat} {key : κ}
  {value : υ}

def slot (bits : Nat) (key : κ) : Nat := (word key).toNat % 2 ^ bits

theorem bucket_eq_slot (hsize : t.slots.size = 2 ^ bits) (hbits : bits ≤ 31) (key : κ) :
    (bucket t.slots_pos key : Nat) = slot bits key := by
  have hdvd : t.slots.size ∣ 2 ^ 32 := hsize ▸ Nat.pow_dvd_pow 2 (Nat.le_succ_of_le hbits)
  rw [bucket_eq_mod t.slots_pos hdvd, hsize, slot]

structure Keeps (t : ComputedTable κ υ) (bits : Nat) (calls : List (Call κ υ)) : Prop where
  size_slots : t.slots.size = 2 ^ bits
  slot_iff {i : Nat} {key : κ} {value : υ} :
    t.slots[i]? = some (some (key, value)) ↔ Latest (slot bits · = i) calls key value

namespace Keeps

theorem ofBits (bits : Nat) : (ofBits bits : ComputedTable κ υ).Keeps bits [] where
  size_slots := Array.size_replicate.trans (Nat.one_shiftLeft bits)
  slot_iff {i key value} := by
    refine iff_of_false ?_ not_latest_nil
    simp [ComputedTable.ofBits, Array.getElem?_replicate]

theorem clear (h : t.Keeps bits calls) : t.clear.Keeps bits (calls ++ [.clear]) where
  size_slots := Array.size_replicate.trans h.size_slots
  slot_iff {i key value} := by
    rw [latest_concat_iff]
    simp [ComputedTable.clear, Array.getElem?_replicate]

theorem insert (h : t.Keeps bits calls) (hbits : bits ≤ 31) (key : κ) (value : υ) :
    (t.insert key value).Keeps bits (calls ++ [.insert key value]) where
  size_slots := (Array.size_set (bucket t.slots_pos key).isLt).trans h.size_slots
  slot_iff {i k v} := by
    have hslots : (t.insert key value).slots[i]? =
        if slot bits key = i then some (some (key, value)) else t.slots[i]? := by
      rw [← bucket_eq_slot h.size_slots hbits]
      exact Array.getElem?_set (bucket t.slots_pos key).isLt
    rw [hslots, latest_concat_iff, ← h.slot_iff]
    by_cases hi : slot bits key = i
    · rw [if_pos hi]
      constructor
      · rintro ⟨⟩
        exact .inl ⟨hi, rfl⟩
      · rintro (⟨-, ⟨⟩⟩ | ⟨-, -, hnew⟩)
        · rfl
        · exact absurd hi (hnew key value rfl)
    · rw [if_neg hi]
      constructor
      · intro hk
        refine .inr ⟨hk, nofun, fun k v heq => ?_⟩
        cases heq
        exact hi
      · rintro (⟨hk, ⟨⟩⟩ | ⟨hk, -⟩)
        · exact absurd hk hi
        · exact hk

end Keeps

variable [BEq κ]

theorem find?_eq_some_iff : t.find? key = some value ↔
    ∃ k, k == key ∧ t.slots[(bucket t.slots_pos key : Nat)]? = some (some (k, value)) := by
  have hslot : t.slots[(bucket t.slots_pos key : Nat)]? = some t.slots[bucket t.slots_pos key] :=
    Array.getElem?_eq_getElem (bucket t.slots_pos key).isLt
  rw [hslot, find?]
  cases t.slots[bucket t.slots_pos key] with
  | none => simp
  | some entry =>
    obtain ⟨k, v⟩ := entry
    simp

theorem lookup_fst (t : ComputedTable κ υ) (key : κ) : (t.lookup key).1 = t.find? key := by
  rw [lookup]
  split
  · rename_i h
    exact h.symm
  · rename_i h
    exact h.symm

theorem slots_lookup (t : ComputedTable κ υ) (key : κ) : (t.lookup key).2.slots = t.slots := by
  rw [lookup]
  split <;> rfl

theorem Keeps.lookup_eq_some_iff (h : t.Keeps bits calls) (hbits : bits ≤ 31) :
    (t.lookup key).1 = some value ↔
      ∃ k, k == key ∧ Latest (slot bits · = slot bits key) calls k value := by
  rw [lookup_fst, find?_eq_some_iff, bucket_eq_slot h.size_slots hbits]
  simp only [h.slot_iff]

theorem Keeps.lookup (h : t.Keeps bits calls) (key : κ) :
    (t.lookup key).2.Keeps bits (calls ++ [.lookup key]) where
  size_slots := by rw [slots_lookup, h.size_slots]
  slot_iff {i k v} := by
    rw [slots_lookup, h.slot_iff, latest_concat_iff]
    simp

end Slots

section Runs

variable [BucketKey κ] [BEq κ] {t : ComputedTable κ υ} {bits : Nat}

def serve (t : ComputedTable κ υ) : Call κ υ → ComputedTable κ υ
  | .insert key value => t.insert key value
  | .lookup key => (t.lookup key).2
  | .clear => t.clear

def after (t : ComputedTable κ υ) (calls : List (Call κ υ)) : ComputedTable κ υ :=
  calls.foldl serve t

def answers (t : ComputedTable κ υ) : List (Call κ υ) → List (Option υ)
  | [] => []
  | .lookup key :: calls => (t.lookup key).1 :: (t.lookup key).2.answers calls
  | .insert key value :: calls => (t.insert key value).answers calls
  | .clear :: calls => t.clear.answers calls

theorem after_concat (t : ComputedTable κ υ) (calls : List (Call κ υ)) (c : Call κ υ) :
    t.after (calls ++ [c]) = (t.after calls).serve c :=
  List.foldl_append

theorem keeps_after_ofBits (hbits : bits ≤ 31) (calls : List (Call κ υ)) :
    ((ofBits bits : ComputedTable κ υ).after calls).Keeps bits calls := by
  induction calls using List.reverseRecOn with
  | nil => exact .ofBits bits
  | append_singleton calls c ih =>
    rw [after_concat]
    cases c with
    | insert key value => exact ih.insert hbits key value
    | lookup key => exact ih.lookup key
    | clear => exact ih.clear

theorem length_answers (t : ComputedTable κ υ) (calls : List (Call κ υ)) :
    (t.answers calls).length = calls.countP Call.isLookup := by
  induction calls generalizing t with
  | nil => rfl
  | cons c calls ih =>
    cases c with
    | insert key value => exact ih _
    | lookup key => exact (congrArg (· + 1) (ih _)).trans (List.countP_cons_of_pos rfl).symm
    | clear => exact ih _

theorem counts_lookup (t : ComputedTable κ υ) (key : κ) :
    (t.lookup key).2.hits = t.hits + (if (t.lookup key).1.isSome then 1 else 0) ∧
      (t.lookup key).2.misses = t.misses + if (t.lookup key).1.isNone then 1 else 0 := by
  rw [lookup]
  split <;> exact ⟨rfl, rfl⟩

/-- Each look-up adds a hit or a miss, and nothing else does. -/
theorem counts_after (t : ComputedTable κ υ) (calls : List (Call κ υ)) :
    (t.after calls).hits = t.hits + (t.answers calls).countP Option.isSome ∧
      (t.after calls).misses = t.misses + (t.answers calls).countP Option.isNone := by
  induction calls generalizing t with
  | nil => exact ⟨rfl, rfl⟩
  | cons c calls ih =>
    cases c with
    | insert key value => exact ih (t.insert key value)
    | clear => exact ih t.clear
    | lookup key =>
      obtain ⟨hhits, hmisses⟩ := ih (t.lookup key).2
      obtain ⟨hhit, hmiss⟩ := t.counts_lookup key
      have hanswers : t.answers (.lookup key :: calls) =
          (t.lookup key).1 :: (t.lookup key).2.answers calls := rfl
      have hafter : t.after (.lookup key :: calls) = (t.lookup key).2.after calls := rfl
      rw [hanswers, hafter, List.countP_cons, List.countP_cons]
      omega

/-- However an empty table is called, a look-up answers a value exactly if the latest entry for the
slot of its key was that value, for an equal key. So where equal keys have equal words, the answer is
the latest value for the key itself. Every look-up counts once, as a hit if it answers a value. -/
theorem ofBits_remembers (hbits : bits ≤ 31) (calls : List (Call κ υ)) :
    ∃ t : ComputedTable κ υ, ofBits? bits = .ok t ∧
      (∀ key value, ((t.after calls).lookup key).1 = some value ↔
        ∃ k, k == key ∧ Latest (slot bits · = slot bits key) calls k value) ∧
      (LawfulKey κ → ∀ key value, ((t.after calls).lookup key).1 = some value →
        ∃ k, Latest (· == key) calls k value) ∧
      (t.after calls).hits = (t.answers calls).countP Option.isSome ∧
      (t.after calls).misses = (t.answers calls).countP Option.isNone ∧
      (t.after calls).hits + (t.after calls).misses = calls.countP Call.isLookup := by
  let t : ComputedTable κ υ := ofBits bits
  have hkeeps : (t.after calls).Keeps bits calls := keeps_after_ofBits hbits calls
  obtain ⟨hhits, hmisses⟩ := t.counts_after calls
  rw [show t.hits = 0 from rfl, Nat.zero_add] at hhits
  rw [show t.misses = 0 from rfl, Nat.zero_add] at hmisses
  refine ⟨t, if_pos hbits, fun key value => hkeeps.lookup_eq_some_iff hbits, ?latest, hhits, hmisses,
    ?total⟩
  case latest =>
    intro _ key value h
    obtain ⟨k, hk, hlatest⟩ := (hkeeps.lookup_eq_some_iff hbits).mp h
    refine ⟨k, hlatest.narrow (fun k' hk' => ?_) hk⟩
    rw [slot, slot, LawfulKey.word_eq hk']
  case total =>
    have hnone : (fun a : Option υ => decide ¬ a.isSome) = Option.isNone := by
      funext a
      cases a <;> rfl
    rw [hhits, hmisses, ← t.length_answers, List.length_eq_countP_add_countP Option.isSome, hnone]

end Runs

def sharedSlotCalls : List (Call UInt64 Nat) :=
  [.insert 1 5, .clear, .insert 0 10, .lookup 2, .insert 2 20, .lookup 0, .lookup 2, .lookup 1]

theorem ofBits_remembers_sharedSlot : 1 ≤ 31 ∧
    ∃ t : ComputedTable UInt64 Nat, ofBits? 1 = .ok t ∧
      t.answers sharedSlotCalls = [none, none, some 20, none] ∧
      Latest (slot 1 · = slot 1 (0 : UInt64)) sharedSlotCalls 2 20 ∧
      ((t.after sharedSlotCalls).lookup 2).1 = some 20 ∧
      (t.after sharedSlotCalls).hits + (t.after sharedSlotCalls).misses = 4 := by
  obtain ⟨t, ht, hlookup, -, -, -, htotal⟩ :=
    ofBits_remembers (show 1 ≤ 31 by decide) sharedSlotCalls
  have hlatest (key : UInt64) (hkey : slot 1 key = 0) :
      Latest (slot 1 · = slot 1 key) sharedSlotCalls 2 20 := by
    exact ⟨hkey.symm, [.insert 1 5, .clear, .insert 0 10, .lookup 2],
      [.lookup 0, .lookup 2, .lookup 1], rfl, by simp, by simp⟩
  refine ⟨by decide, t, ht, ?_, hlatest 0 rfl, (hlookup 2 20).mpr ⟨2, rfl, hlatest 2 rfl⟩, htotal⟩
  cases ht
  rfl

end AndInverter.ComputedTable
