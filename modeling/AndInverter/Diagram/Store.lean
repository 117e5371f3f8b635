import AndInverter.Diagram.ComputedTable
import AndInverter.Diagram.Ref
import AndInverter.Diagram.UniqueTable

/-!
# Stores of decision diagrams

All diagrams of a store share their nodes. A node tests a variable and refers to a low and a high
child; the high child is never complemented, no node has equal children and no node occurs twice.
The store has a bounded number of cells, and an operation that needs one more ends.
-/

namespace AndInverter

structure DiagramNode where
  var : Nat
  low : Ref
  high : Ref
deriving DecidableEq, Repr, Inhabited

instance : BucketKey DiagramNode :=
  ⟨fun n => tripling n.var.toUInt64 (word n.low) (word n.high)⟩

structure Choice where
  test : Ref
  high : Ref
  low : Ref
deriving DecidableEq, Hashable, Repr

instance : BucketKey Choice := ⟨fun c => tripling (word c.test) (word c.high) (word c.low)⟩

/-- The nodes of all diagrams, and a memory of choices that have been settled. -/
structure DiagramStore where
  nodes : UniqueTable DiagramNode
  computed : ComputedTable Choice Ref

inductive Halt where
  /-- All cells of the store are taken. -/
  | full (capacity : Nat)
  | fault (f : Fault)
deriving DecidableEq, Repr

/-- An operation on a store. What it has added before it ends stays in the store. -/
abbrev StoreM := ExceptT Halt (StateM DiagramStore)

namespace DiagramStore

def ofBits (bits : Nat) : DiagramStore where
  nodes := ((UniqueTable.ofBits bits).append default).2
  computed := .ofBits (min bits 16)

def ofBits? (bits : Nat) : Except Fault DiagramStore :=
  if 1 ≤ bits ∧ bits ≤ 31 then .ok (ofBits bits) else .error .diagramBits

def capacity (s : DiagramStore) : Nat := s.nodes.capacity

def size (s : DiagramStore) : Nat := s.nodes.size

def topVar (s : DiagramStore) (r : Ref) : Nat :=
  if r.index ≤ 1 then 0 else (s.nodes.get r.index).var

/-- The function that remains when the first variable has the given value. Children lie at smaller
indices than their parent; one that does not is read as a constant. -/
def child (s : DiagramStore) (r : Ref) (b : Bool) : Ref :=
  let n := s.nodes.get r.index
  let c := if b then n.high else n.low
  (if c.index < r.index then c else .one).negIf (decide r.IsNegated)

theorem index_child_lt {s : DiagramStore} {r : Ref} {b : Bool} (h : 1 < r.index) :
    (s.child r b).index < r.index := by
  simp only [child, Ref.index_negIf]
  split <;> split
  · assumption
  · exact h
  · assumption
  · exact h

theorem one_lt_index {s : DiagramStore} {r : Ref} (h : s.topVar r ≠ 0) : 1 < r.index := by
  simp only [topVar] at h
  split at h <;> omega

structure View where
  var : Nat
  low : Ref
  high : Ref

/-- The view of a function, all of it taken before the store may change. -/
@[noinline] def view (s : DiagramStore) (r : Ref) : View :=
  ⟨s.topVar r, s.child r false, s.child r true⟩

end DiagramStore

namespace StoreM

def ofFault {α : Type} : Except Fault α → StoreM α
  | .ok a => return a
  | .error f => throw (.fault f)

def nodeOf (n : DiagramNode) : StoreM Ref := do
  let i? ← modifyGet fun (s : DiagramStore) =>
    match s with
    | ⟨nodes, computed⟩ =>
      let (i?, nodes) := nodes.intern n
      (i?, ⟨nodes, computed⟩)
  match i? with
  | some i => return .ofIndex i
  | none => throw (.full (← get).capacity)

def node (v : Nat) (low high : Ref) : StoreM Ref := do
  if v = 0 then throw (.fault .variableZero)
  if high.IsNegated then
    if low = high then return low
    return -(← nodeOf ⟨v, -low, -high⟩)
  if low = high then return low
  nodeOf ⟨v, low, high⟩

def var (v : Nat) : StoreM Ref := node v .zero .one

/-- The conjunction of literals, written as signed numbers. Their nodes are stacked from the largest
variable up. The absolute values have to be numbers of 31 bits. -/
def cube (literals : List Int) : StoreM Ref :=
  let sorted := literals.mergeSort fun a b => a.natAbs ≤ b.natAbs
  sorted.foldrM (fun l r => if l < 0 then node l.natAbs r .zero else node l.natAbs .zero r) .one

end StoreM

end AndInverter
