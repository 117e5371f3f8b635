import AndInverter.Fault
import AndInverter.Diagram.Pairing

/-!
# Computed tables

A direct-mapped memory of results. Every slot keeps its full key, so a look-up never answers with
the result of another key that shares the slot; a new entry evicts the old one.
-/

namespace AndInverter

structure ComputedTable (κ υ : Type) where
  slots : Array (Option (κ × υ))
  slots_pos : 0 < slots.size
  hits : Nat := 0
  misses : Nat := 0

namespace ComputedTable

variable {κ υ : Type}

def ofBits (bits : Nat) : ComputedTable κ υ where
  slots := .replicate (1 <<< bits) none
  slots_pos := by
    rw [Array.size_replicate]
    exact one_shiftLeft_pos bits

def ofBits? (bits : Nat) : Except Fault (ComputedTable κ υ) :=
  if bits ≤ 31 then .ok (ofBits bits) else .error .computedTableBits

def clear (t : ComputedTable κ υ) : ComputedTable κ υ :=
  { t with
    slots := .replicate t.slots.size none
    slots_pos := by
      rw [Array.size_replicate]
      exact t.slots_pos }

variable [BucketKey κ]

/-- The value stored for an equal key, in the slot that is its bucket. -/
def find? [BEq κ] (t : ComputedTable κ υ) (key : κ) : Option υ :=
  match t.slots[bucket t.slots_pos key] with
  | some (k, v) => if k == key then some v else none
  | none => none

def lookup [BEq κ] (t : ComputedTable κ υ) (key : κ) : Option υ × ComputedTable κ υ :=
  match t.find? key with
  | some v => (some v, { t with hits := t.hits + 1 })
  | none => (none, { t with misses := t.misses + 1 })

/-- Stores a value, in place of whatever shared its slot. -/
def insert : ComputedTable κ υ → κ → υ → ComputedTable κ υ
  | ⟨slots, slots_pos, hits, misses⟩, key, value =>
    ⟨slots.set (bucket slots_pos key) (some (key, value)), by rwa [Array.size_set], hits, misses⟩

end ComputedTable

end AndInverter
