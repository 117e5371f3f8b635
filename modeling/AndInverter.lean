import AndInverter.Aiger.Reader
import AndInverter.Clausal.Learning
import AndInverter.Cut.Validity
import AndInverter.Diagram.Constancy
import AndInverter.Diagram.Models
import AndInverter.Diagram.Restriction
import AndInverter.Diagram.Shape
import AndInverter.Network
import AndInverter.Proofs.Contract
import AndInverter.Proofs.Cut.Sharing
import AndInverter.Proofs.Diagram.Denotation
import AndInverter.Proofs.Graph.Rehashing
import AndInverter.Proofs.Unateness.Diagrams
import AndInverter.Proofs.Unateness.Satisfiability
import AndInverter.Proofs.Clausal.Models
import AndInverter.Proofs.Network
import AndInverter.Proofs.Aiger.Description
import AndInverter.Proofs.Aiger.Reading
import AndInverter.Proofs.Aiger.Symbols
import AndInverter.Proofs.Aiger.Covering
import AndInverter.Proofs.Aiger.Settling
import AndInverter.Proofs.Aiger.Acceptance
import AndInverter.Proofs.Aiger.Meaning
import AndInverter.Proofs.Aiger.Blame
import AndInverter.Proofs.Unateness.Agreement
import AndInverter.Proofs.Queries
import AndInverter.Proofs.Unateness.Storage
import AndInverter.Proofs.Reports
import AndInverter.Proofs.Diagram.Repetition
import AndInverter.Proofs.Graph.Connectives
import AndInverter.Proofs.Graph.RepeatedHashing
import AndInverter.Proofs.Cut.Levels
import AndInverter.Proofs.Unateness.Models
import AndInverter.Proofs.Cut.Determinacy
import AndInverter.Proofs.Cut.Offers
import AndInverter.Proofs.Unateness.LowestPatterns
import AndInverter.Proofs.Unateness.Counts
import AndInverter.Proofs.Graph.GateCounts
import AndInverter.Proofs.Graph.Support
import AndInverter.Proofs.Clausal.Blocks
import AndInverter.Proofs.Diagram.Answers
import AndInverter.Proofs.Diagram.Calls
import AndInverter.Proofs.Diagram.Counting
import AndInverter.Proofs.Diagram.Cubes
import AndInverter.Proofs.Diagram.TableCalls
import AndInverter.Proofs.Unateness.Checking
import AndInverter.Proofs.Cut.Unions
import AndInverter.Proofs.Graph.ConeOrder
