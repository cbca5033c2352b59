import StackLang.Main
import StackLang.Proofs.RoundTrip
import StackLang.Reader
import StackLang.Session
import StackLang.Proofs.Flow
import StackLang.Proofs.Span
import StackLang.Proofs.Simulation
import StackLang.Proofs.ControlFlow
import StackLang.Proofs.Variables
import StackLang.Proofs.Operands
import StackLang.Proofs.Evaluation
import StackLang.Proofs.Entry
import StackLang.Proofs.Illegible
import StackLang.Proofs.StraightLine
import StackLang.Proofs.Invariance
import StackLang.Proofs.Reaching
import StackLang.Proofs.Calls
import StackLang.Proofs.HeapGrowth
import StackLang.Proofs.Engine
import StackLang.Proofs.Presence
import StackLang.Proofs.Computation
import StackLang.Proofs.Fragments
import StackLang.Proofs.Choices
import StackLang.Proofs.Languages
import StackLang.Proofs.Endings
import StackLang.Proofs.References
import StackLang.Proofs.Spacing
import StackLang.Proofs.StructNames
import StackLang.Proofs.Reprinting
import StackLang.Proofs.Targets
import StackLang.Proofs.Failures
import StackLang.Proofs.Streams
import StackLang.Proofs.Expressions
import StackLang.Proofs.Negation
import StackLang.Proofs.Parameters
import StackLang.Proofs.Places
import StackLang.Proofs.Creation
import StackLang.Proofs.Locations
import StackLang.Proofs.Numbering
import StackLang.Proofs.Assignment
import StackLang.Proofs.Concrete
import StackLang.Proofs.Spelling
import StackLang.Proofs.Wording
import StackLang.Proofs.Retention
import StackLang.Proofs.Blocks
import StackLang.Proofs.Displacement
import StackLang.Proofs.Comments
import StackLang.Proofs.Quotation
import StackLang.Proofs.Division
import StackLang.Proofs.Words
import StackLang.Proofs.Rounds
import StackLang.Proofs.Advance
import StackLang.Proofs.Numerals
import StackLang.Proofs.Literals
import StackLang.Proofs.Conversions
import StackLang.Proofs.Enclosure
import StackLang.Proofs.RunningCount
import StackLang.Proofs.Lockstep
