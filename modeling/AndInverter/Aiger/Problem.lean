import AndInverter.Error

/-!
# Problems of a description

What can be wrong with a line of a description, and how it is worded.
-/

namespace AndInverter.Aiger

inductive Problem where
  | emptyText
  | noHeader
  | unknownFormat (word : List Char)
  | notANumber (word : List Char)
  | numberCount (expected found : Nat)
  /-- The maximum variable index is below the number of inputs and gates together. -/
  | tooFewVariables (maximum required : Nat)
  /-- The text ends where an item of the given description is due. -/
  | missingItem (item : String)
  | inputLiteral (literal : Nat)
  | gateLiteral (literal : Nat)
  | beyondMaximum (literal maximum : Nat)
  | definedTwice (var : Nat)
  | undefinedFanin (head left right : Nat)
  | undefinedOutput (literal : Nat)
  | symbolKind (text : List Char)
  | malformedSymbol (text : List Char)
  | symbolPosition (position : Nat)
deriving DecidableEq, Repr

def Problem.message : Problem → String
  | emptyText => "empty input"
  | noHeader => "missing header"
  | unknownFormat w => s!"unknown format '{String.ofList w}'"
  | notANumber w => s!"expected a number, found '{String.ofList w}'"
  | numberCount expected found => s!"expected {expected} numbers, found {found}"
  | tooFewVariables maximum required =>
    s!"maximum variable index {maximum} is below I + A = {required}"
  | missingItem item => s!"unexpected end of input, expected {item}"
  | inputLiteral l => s!"invalid input literal {l}"
  | gateLiteral l => s!"invalid AND literal {l}"
  | beyondMaximum l maximum => s!"literal {l} exceeds the maximum variable index {maximum}"
  | definedTwice v => s!"variable {v} is defined twice"
  | undefinedFanin head left right =>
    s!"AND gate {head} has an undefined or cyclic fanin ({left} {right})"
  | undefinedOutput l => s!"output literal {l} is undefined"
  | symbolKind t => s!"unknown symbol kind in '{String.ofList t}'"
  | malformedSymbol t => s!"malformed symbol '{String.ofList t}'"
  | symbolPosition p => s!"symbol position {p} is out of range"

def Problem.at (p : Problem) (line : Nat) : Error := .parse line p.message

end AndInverter.Aiger
