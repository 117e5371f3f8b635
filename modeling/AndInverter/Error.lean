import AndInverter.Fault

/-!
# Errors

The errors that a query can report, their kind and their wording.
-/

namespace AndInverter

inductive Error where
  | cutBounds (k l : Nat) (expected : String)
  | outputOutOfRange (index count : Nat)
  | inputOutOfRange (index count : Nat)
  | storageBits (bits : Nat)
  | notHashed
  | noDiagrams
  /-- The diagram store of the given capacity filled up at the given stage. -/
  | nodeLimit (stage : String) (capacity : Nat)
  | inconclusive (output input : Nat) (reason : String)
  | parse (line : Nat) (problem : String)
  | unsupported (feature : String)
deriving DecidableEq, Repr

inductive Error.Kind where
  /-- An invalid parameter, refused before any work is done. -/
  | usage
  /-- The network is not in the form that the query needs. -/
  | precondition
  /-- The answer is unknown, since storage or the solver gave out. -/
  | exhausted
  /-- The description of a network is malformed. -/
  | parse
deriving DecidableEq, Repr

namespace Error

def kind : Error → Kind
  | cutBounds .. | outputOutOfRange .. | inputOutOfRange .. | storageBits .. => .usage
  | notHashed | noDiagrams => .precondition
  | nodeLimit .. | inconclusive .. => .exhausted
  | parse .. | unsupported .. => .parse

def storageFull (capacity : Nat) : String := s!"node storage is full (capacity {capacity})"

def message : Error → String
  | cutBounds k l expected => s!"invalid cut bounds: k = {k}, l = {l} (expected {expected})"
  | outputOutOfRange index count =>
    s!"output index {index} is out of range (the network has {count} outputs)"
  | inputOutOfRange index count =>
    s!"input index {index} is out of range (the network has {count} inputs)"
  | storageBits bits => s!"invalid BDD storage size: {bits} bits (expected 1..=31)"
  | notHashed => "the network is not a structurally hashed AIG (run strash first)"
  | noDiagrams => "the network has no BDD representation (run collapse first)"
  | nodeLimit stage capacity =>
    s!"BDD node limit reached while {stage}: {storageFull capacity}"
  | inconclusive output input reason =>
    s!"inconclusive result for output {output}, input {input}: {reason}"
  | parse line problem => s!"parse error at line {line}: {problem}"
  | unsupported feature => s!"unsupported feature: {feature}"

end Error

/-- How a query ends without an answer: by an error it reports or by a fault of its caller. -/
inductive Failure where
  | error (e : Error)
  | fault (f : Fault)
deriving DecidableEq, Repr

end AndInverter
