import RegisterMachine.Text.Numeral
import RegisterMachine.Text.CodePoint
import RegisterMachine.Text.Blank
import RegisterMachine.Text.Split
import RegisterMachine.Text.Printable
import RegisterMachine.Text.Quoted
import RegisterMachine.Word
import RegisterMachine.Number.Binary
import RegisterMachine.Number.Arithmetic
import RegisterMachine.Number.Decimal
import RegisterMachine.Number.Style
import RegisterMachine.Number.Literal
import RegisterMachine.Opcode
import RegisterMachine.Fault
import RegisterMachine.Numeric
import RegisterMachine.RandomStream
import RegisterMachine.Registers
import RegisterMachine.Lists
import RegisterMachine.CallStack
import RegisterMachine.Output
import RegisterMachine.Table
import RegisterMachine.Instr
import RegisterMachine.Program
import RegisterMachine.Symbolic
import RegisterMachine.Layout
import RegisterMachine.Assembly
import RegisterMachine.Listing
import RegisterMachine.Effect
import RegisterMachine.World
import RegisterMachine.Context
import RegisterMachine.Pool
import RegisterMachine.Config
import RegisterMachine.Sink
import RegisterMachine.Preload.Source
import RegisterMachine.Preload.Resolve
import RegisterMachine.Machine
import RegisterMachine.Json.Number
import RegisterMachine.Json.Token
import RegisterMachine.Json.Reader
import RegisterMachine.Json.Word
import RegisterMachine.Json.Symbolic
import RegisterMachine.Json.Config
import RegisterMachine.Proofs.Placement
import RegisterMachine.Proofs.Blocks
import RegisterMachine.Proofs.Scanning
import RegisterMachine.Proofs.Matching
import RegisterMachine.Proofs.Acceptance
import RegisterMachine.Proofs.Encoding
import RegisterMachine.Proofs.SymbolicContext
import RegisterMachine.Proofs.Targets
import RegisterMachine.Proofs.Simulation
import RegisterMachine.Proofs.CodeTree
import RegisterMachine.Proofs.TreeExecution
import RegisterMachine.Proofs.ListModel
import RegisterMachine.Proofs.ListRefinement
import RegisterMachine.Proofs.Footprint
import RegisterMachine.Proofs.Executions
import RegisterMachine.Proofs.Conversations
import RegisterMachine.Proofs.Workers
import RegisterMachine.Proofs.Independence
import RegisterMachine.Proofs.Accounting
import RegisterMachine.Proofs.Padding
import RegisterMachine.Proofs.Relocation
import RegisterMachine.Proofs.CheckedExecution
import RegisterMachine.Proofs.Bounds
import RegisterMachine.Proofs.ExactEncoding
import RegisterMachine.Proofs.FaultedSteps
import RegisterMachine.Proofs.JsonTokens
import RegisterMachine.Proofs.JsonPrograms
import RegisterMachine.Proofs.FloatRounding
import RegisterMachine.Proofs.FloatText
import RegisterMachine.Proofs.Splitting
import RegisterMachine.Proofs.ResultText
import RegisterMachine.Proofs.Dispatch
import RegisterMachine.Proofs.DeclaredEffects
import RegisterMachine.Proofs.RegisterFaults
import RegisterMachine.Proofs.InstructionBudget
import RegisterMachine.Proofs.Calls
import RegisterMachine.Proofs.ForwardBranches
import RegisterMachine.Proofs.PreloadResolution
import RegisterMachine.Proofs.PaddedText
import RegisterMachine.Proofs.PreloadFormat
import RegisterMachine.Proofs.CheckedAssembly
import RegisterMachine.Proofs.OpenBlocks
import RegisterMachine.Proofs.FaultReport
import RegisterMachine.Proofs.StreamDraws
import RegisterMachine.Proofs.Grouping
import RegisterMachine.Proofs.CompactText
import RegisterMachine.Proofs.ListingText
import RegisterMachine.Proofs.DecodedListing
import RegisterMachine.Proofs.CheckedListing
import RegisterMachine.Proofs.LosslessListing
import RegisterMachine.Proofs.FloatArithmetic
import RegisterMachine.Proofs.HalfUpRounding
import RegisterMachine.Proofs.UnambiguousResults
import RegisterMachine.Proofs.IntegerDivision
