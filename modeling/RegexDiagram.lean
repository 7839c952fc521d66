import RegexDiagram.Service
import RegexDiagram.Session
import RegexDiagram.Json.Printer
import RegexDiagram.Proofs.Gathering
import RegexDiagram.Proofs.Resemblance
import RegexDiagram.Proofs.Defect
import RegexDiagram.Proofs.Tokenization
import RegexDiagram.Proofs.Ledger
import RegexDiagram.Proofs.Emptiness
import RegexDiagram.Proofs.Settlement
import RegexDiagram.Proofs.Chains
import RegexDiagram.Proofs.Report
import RegexDiagram.Proofs.Diagnosis
import RegexDiagram.Proofs.Accounting
import RegexDiagram.Proofs.Descent
import RegexDiagram.Proofs.Wiring
import RegexDiagram.Proofs.Overlap
import RegexDiagram.Proofs.Invisible
import RegexDiagram.Proofs.Conversation
import RegexDiagram.Proofs.Separation
import RegexDiagram.Proofs.BracketReading
import RegexDiagram.Proofs.Requests
import RegexDiagram.Proofs.Composition
import RegexDiagram.Proofs.Folding
import RegexDiagram.Proofs.Blame
import RegexDiagram.Proofs.Nesting
import RegexDiagram.Proofs.Operands
import RegexDiagram.Proofs.OperandTexts
import RegexDiagram.Proofs.Pairing
import RegexDiagram.Proofs.UnclosedTexts
import RegexDiagram.Proofs.Extents
import RegexDiagram.Proofs.Ownership
import RegexDiagram.Proofs.Chronology
import RegexDiagram.Proofs.Edges
import RegexDiagram.Proofs.Postfix
import RegexDiagram.Proofs.Sequences
import RegexDiagram.Proofs.Display
import RegexDiagram.Proofs.Shapes
import RegexDiagram.Proofs.Tags
import RegexDiagram.Proofs.Highlighting
import RegexDiagram.Proofs.Coordinates
import RegexDiagram.Proofs.Offsets
import RegexDiagram.Proofs.Balancing
