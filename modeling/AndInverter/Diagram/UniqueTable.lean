import AndInverter.Fault
import AndInverter.Diagram.Pairing

/-!
# Unique tables

A bounded table that gives equal values one index. Occupied cells are numbered from one upwards and
never freed; the values of a bucket are chained through their cells in the order of their arrival.
-/

namespace AndInverter

/-- A table of `capacity` cells, of which cell zero is a sentry that no value occupies. -/
structure UniqueTable (α : Type) where
  capacity : Nat
  /-- The values of the sentry and of the occupied cells. -/
  values : Array α
  /-- For each of these cells the next one of its bucket, zero for none. -/
  nexts : Array Nat
  /-- The first cell of each bucket, zero for an empty one. -/
  heads : Array Nat
  heads_pos : 0 < heads.size

namespace UniqueTable

variable {α : Type}

def ofBits [Inhabited α] (bits : Nat) : UniqueTable α where
  capacity := 1 <<< bits
  values := #[default]
  nexts := #[0]
  heads := .replicate (1 <<< min bits 16) 0
  heads_pos := by
    rw [Array.size_replicate]
    exact one_shiftLeft_pos (min bits 16)

def ofBits? [Inhabited α] (bits : Nat) : Except Fault (UniqueTable α) :=
  if bits ≤ 31 then .ok (ofBits bits) else .error .uniqueTableBits

def size (t : UniqueTable α) : Nat := t.values.size - 1

def check (t : UniqueTable α) (index : Nat) : Except Fault Unit :=
  if index = 0 then .error .sentryCell
  else if t.capacity ≤ index then .error .outOfRange
  else .ok ()

def get [Inhabited α] (t : UniqueTable α) (index : Nat) : α :=
  t.values.getD index default

/-- The next cell of the bucket of an occupied cell, zero elsewhere. -/
def next (t : UniqueTable α) (index : Nat) : Nat := t.nexts.getD index 0

def add : UniqueTable α → α → UniqueTable α
  | ⟨capacity, values, nexts, heads, heads_pos⟩, value =>
    ⟨capacity, values.push value, nexts.push 0, heads, heads_pos⟩

def append (t : UniqueTable α) (value : α) : Option Nat × UniqueTable α :=
  let i := t.values.size
  if i < t.capacity then (some i, t.add value) else (none, t)

inductive Search where
  | empty
  | found (index : Nat)
  | last (index : Nat)
deriving DecidableEq, Repr

/-- Follows a chain from the given cell. Chains run upwards, so a link that does not is their
end. -/
def walk [BEq α] (values : Array α) (nexts : Array Nat) (value : α) (index : Nat) :
    Search :=
  if h : index < values.size then
    if value == values[index] then .found index
    else
      let next := nexts.getD index 0
      if index < next then walk values nexts value next else .last index
  else .last index
termination_by values.size - index
decreasing_by omega

variable [BucketKey α]

def search [BEq α] (t : UniqueTable α) (value : α) : Search :=
  let head := t.heads[bucket t.heads_pos value]
  if head = 0 then .empty else walk t.values t.nexts value head

def startChain : UniqueTable α → α → UniqueTable α
  | ⟨capacity, values, nexts, heads, heads_pos⟩, value =>
    let i := values.size
    ⟨capacity, values.push value, nexts.push 0, heads.set (bucket heads_pos value) i,
      by rwa [Array.size_set]⟩

def extendChain : UniqueTable α → α → Nat → UniqueTable α
  | ⟨capacity, values, nexts, heads, heads_pos⟩, value, last =>
    let i := values.size
    ⟨capacity, values.push value, (nexts.push 0).setIfInBounds last i, heads, heads_pos⟩

/-- The index of an equal value of the bucket if there is one, else of a new cell at the end of its
chain; `none` if the table is full. -/
def intern [BEq α] (t : UniqueTable α) (value : α) : Option Nat × UniqueTable α :=
  let i := t.values.size
  match t.search value with
  | .found j => (some j, t)
  | .empty => if i < t.capacity then (some i, t.startChain value) else (none, t)
  | .last j => if i < t.capacity then (some i, t.extendChain value j) else (none, t)

end UniqueTable

end AndInverter
