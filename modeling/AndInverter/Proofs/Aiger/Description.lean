import AndInverter.Aiger.Sections
import AndInverter.Aiger.Symbols
import Mathlib.Data.List.Forall2
import Mathlib.Logic.Relation

/-!
# Descriptions

What the lines of a text say, apart from how they are read, and when it makes sense. `Reads`
compares sections of lines with a description; `LinesInRange` is the part of `InRange` that concerns
each line by itself. The gates of a description are equations between the values of its variables,
in any order: `Defines` tells the variables that have a line or are constant, `DependsOn` which of
them a gate reads.
-/

namespace AndInverter.Aiger

/-- A word for a number: decimal digits, after a plus sign or not, of a value that fits 64 bits. -/
def IsNumeral (w : List Char) (n : Nat) : Prop :=
  ∃ ds, (w = ds ∨ w = '+' :: ds) ∧ ds ≠ [] ∧ (∀ c ∈ ds, c.isDigit = true) ∧
    digitsValue ds = n ∧ n < 0x10000000000000000

def Line.Holds (l : Line) (ns : List Nat) : Prop := List.Forall₂ IsNumeral (words l.text) ns

def Symbol.Kind.letter : Symbol.Kind → Char
  | input => 'i'
  | output => 'o'

def Line.Names (l : Line) (s : Symbol) : Prop :=
  ∃ w, l.text = s.kind.letter :: (w ++ ' ' :: s.name) ∧ IsNumeral w s.position

def symbolLines (ls : List Line) : List Line :=
  (ls.takeWhile fun l => l.text ≠ ['c']).filter fun l => l.text ≠ []

def Header.counts (h : Header) : List Nat :=
  [h.maxVar, h.numInputs, h.numLatches, h.numOutputs, h.numGates]

/-- A literal that may stand for the variable that its line defines: even, not of the constant, and
in range. -/
def Header.MayDefine (h : Header) (literal : Nat) : Prop :=
  literal % 2 = 0 ∧ 2 ≤ literal ∧ variableOf literal ≤ h.maxVar

theorem Header.MayDefine.variableOf_ne_zero {h : Header} {n : Nat} (hn : h.MayDefine n) :
    variableOf n ≠ 0 := by
  have hpos := hn.2.1
  rw [variableOf]
  omega

/-- The literals and names that the lines of a text hold, in the order of the lines. -/
@[ext] structure Description where
  header : Header
  inputs : List Nat
  outputs : List OutputLine
  gates : List Equation
  symbols : List Symbol

structure Sections where
  first : Line
  inputs : List Line
  outputs : List Line
  gates : List Line
  rest : List Line

def Sections.lines (s : Sections) : List Line :=
  s.first :: (s.inputs ++ (s.outputs ++ (s.gates ++ s.rest)))

namespace Description

structure Reads (d : Description) (s : Sections) : Prop where
  header : ∃ ws, words s.first.text = "aag".toList :: ws ∧
    List.Forall₂ IsNumeral ws d.header.counts
  length_inputs : d.inputs.length = d.header.numInputs
  length_outputs : d.outputs.length = d.header.numOutputs
  length_gates : d.gates.length = d.header.numGates
  inputs : List.Forall₂ (fun l n => l.Holds [n]) s.inputs d.inputs
  outputs : List.Forall₂ (fun l o => l.number = o.line ∧ l.Holds [o.literal]) s.outputs d.outputs
  gates : List.Forall₂ (fun l q => l.number = q.line ∧ l.Holds [q.head, q.left, q.right])
    s.gates d.gates
  symbols : List.Forall₂ Line.Names (symbolLines s.rest) d.symbols

/-- The text consists of lines that say what the description says. -/
def Spelled (d : Description) (text : String) : Prop :=
  ∃ s, Line.ofText text.toList = s.lines ∧ d.Reads s

def Begins (d : Description) (text : String) : Prop :=
  ∃ ls : Sections, Line.ofText text.toList = ls.lines ∧ d.Reads { ls with rest := [] }

structure LinesInRange (d : Description) : Prop where
  numLatches_eq : d.header.numLatches = 0
  numVars_le : d.header.numInputs + d.header.numGates ≤ d.header.maxVar
  inputs : ∀ l ∈ d.inputs, d.header.MayDefine l
  outputs : ∀ o ∈ d.outputs, variableOf o.literal ≤ d.header.maxVar
  heads : ∀ q ∈ d.gates, d.header.MayDefine q.head
  operands : ∀ q ∈ d.gates,
    variableOf q.left ≤ d.header.maxVar ∧ variableOf q.right ≤ d.header.maxVar

def definitions (d : Description) : List Nat :=
  d.inputs.map variableOf ++ d.gates.map fun q => variableOf q.head

/-- Every line makes sense by itself, and no variable is defined twice. -/
structure InRange (d : Description) : Prop extends d.LinesInRange where
  inputs_nodup : (d.inputs.map variableOf).Nodup
  heads_nodup : (d.gates.map fun q => variableOf q.head).Nodup
  heads_not_inputs : ∀ q ∈ d.gates, variableOf q.head ∉ d.inputs.map variableOf

theorem LinesInRange.inRange {d : Description} (hd : d.LinesInRange)
    (hnodup : d.definitions.Nodup) : d.InRange := by
  obtain ⟨hinputs, hheads, hne⟩ := List.nodup_append.mp hnodup
  exact { hd with
    inputs_nodup := hinputs
    heads_nodup := hheads
    heads_not_inputs := fun q hq hinput => hne _ hinput _ (List.mem_map_of_mem hq) rfl }

def Defines (d : Description) (v : Nat) : Prop :=
  v = 0 ∨ v ∈ d.inputs.map variableOf ∨ v ∈ d.gates.map fun q => variableOf q.head

def DependsOn (d : Description) (v w : Nat) : Prop :=
  ∃ q ∈ d.gates, variableOf q.head = v ∧ (variableOf q.left = w ∨ variableOf q.right = w)

def count (d : Description) : Symbol.Kind → Nat
  | .input => d.header.numInputs
  | .output => d.header.numOutputs

/-- All that is read is defined, no gate reads itself along others, and all names are of inputs and
outputs that exist. -/
structure Valid (d : Description) : Prop extends d.InRange where
  operands_defined : ∀ q ∈ d.gates, d.Defines (variableOf q.left) ∧ d.Defines (variableOf q.right)
  acyclic : ∀ v, ¬ Relation.TransGen d.DependsOn v v
  outputs_defined : ∀ o ∈ d.outputs, d.Defines (variableOf o.literal)
  positions_lt : ∀ s ∈ d.symbols, s.position < d.count s.kind

end Description

end AndInverter.Aiger
