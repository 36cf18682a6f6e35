import CoreWar.Assembly.Assemble
import CoreWar.Assembly.Diagnostic
import CoreWar.Assembly.Listing
import CoreWar.Assembly.Resolve
import CoreWar.Assembly.SymbolTable
import CoreWar.Battle.Basic
import CoreWar.Battle.Error
import CoreWar.Battle.Event
import CoreWar.Battle.Placement
import CoreWar.Battle.Warrior
import CoreWar.Calendar
import CoreWar.Command.Assembler
import CoreWar.Command.MatchRunner
import CoreWar.Command.Transcript
import CoreWar.Command.Workspace
import CoreWar.Core.Basic
import CoreWar.Core.Step
import CoreWar.Core.Target
import CoreWar.Expr
import CoreWar.File
import CoreWar.Instruction.Basic
import CoreWar.Instruction.Default
import CoreWar.Instruction.Field
import CoreWar.Instruction.Mode
import CoreWar.Instruction.Opcode
import CoreWar.Log.Level
import CoreWar.Log.Line
import CoreWar.Main
import CoreWar.Operator
import CoreWar.Program
import CoreWar.Proofs.AddressMaps
import CoreWar.Proofs.Bounds
import CoreWar.Proofs.Checks
import CoreWar.Proofs.Guarded
import CoreWar.Proofs.Loading
import CoreWar.Proofs.Scheduling
import CoreWar.Queue
import CoreWar.Random.ChaCha
import CoreWar.Random.Draws
import CoreWar.Settings
import CoreWar.Source.Document
import CoreWar.Source.Error
import CoreWar.Source.Fault
import CoreWar.Source.Line
import CoreWar.Source.Metadata
import CoreWar.Source.Phrase
import CoreWar.Source.Record
import CoreWar.Source.Token
import CoreWar.Text.Blank
import CoreWar.Text.Case
import CoreWar.Text.Decimal
import CoreWar.Text.Lines
import CoreWar.Proofs.Invariant
import CoreWar.Proofs.Safety
import CoreWar.Proofs.Rotation
import CoreWar.Proofs.RotatedMatch
import CoreWar.Proofs.Verdict
import CoreWar.Proofs.Footprint
import CoreWar.Proofs.Locality
import CoreWar.Proofs.LoadedPrograms
import CoreWar.Proofs.Equates
import CoreWar.Proofs.Symbols
import CoreWar.Proofs.Resolution
import CoreWar.Proofs.Assembly
import CoreWar.Proofs.Labels
import CoreWar.Proofs.Recording
import CoreWar.Proofs.Causality
import CoreWar.Proofs.Substitution
import CoreWar.Proofs.Phrases
import CoreWar.Proofs.Lines
import CoreWar.Proofs.Scanning
import CoreWar.Proofs.RoundTrip
import CoreWar.Proofs.TextLines
import CoreWar.Proofs.Documents
import CoreWar.Proofs.LoneInstruction
import CoreWar.Proofs.Columns
import CoreWar.Proofs.Locations
import CoreWar.Proofs.Comments
import CoreWar.Proofs.Listings
import CoreWar.Proofs.Arithmetic
import CoreWar.Proofs.Rounds
import CoreWar.Proofs.Arguments
import CoreWar.Proofs.Failures
import CoreWar.Proofs.Indirection
import CoreWar.Proofs.LabelLines
import CoreWar.Proofs.SharedWindow
import CoreWar.Proofs.DuplicateLabels
import CoreWar.Proofs.Operators
import CoreWar.Proofs.Fairness
import CoreWar.Proofs.Marching
import CoreWar.Proofs.Dates
import CoreWar.Proofs.Folding
import CoreWar.Proofs.Rendering
