import KnightCode.Bytes
import KnightCode.Register
import KnightCode.Text.Blank
import KnightCode.Text.Letter
import KnightCode.Jvm.ModifiedUtf8
import KnightCode.Jvm.ClassName
import KnightCode.Jvm.JavaType
import KnightCode.Jvm.Constant
import KnightCode.Operator
import KnightCode.Jvm.Instruction
import KnightCode.Jvm.Frame
import KnightCode.Jvm.ConstantPool
import KnightCode.Jvm.ClassFile
import KnightCode.Source.Token
import KnightCode.Source.Scanning
import KnightCode.Source.Program
import KnightCode.Source.Reading
import KnightCode.Compile.Fault
import KnightCode.Compile.Body
import KnightCode.Compile.Scope
import KnightCode.Compile.Session
import KnightCode.Compile.Generation
import KnightCode.Compile.Artifact
import KnightCode.Main
import KnightCode.Proofs.Words
import KnightCode.Proofs.CodeArray
import KnightCode.Proofs.TextBytes
import KnightCode.Proofs.Work
import KnightCode.Proofs.Pool
import KnightCode.Proofs.Calls
import KnightCode.Proofs.Runs
import KnightCode.Proofs.Plan
import KnightCode.Proofs.Translation
import KnightCode.Proofs.Declarations
import KnightCode.Proofs.ScopeHistory
import KnightCode.Proofs.Layout
import KnightCode.Proofs.Attempts
import KnightCode.Proofs.Planning
import KnightCode.Proofs.Labels
import KnightCode.Proofs.Typing
import KnightCode.Proofs.Discipline
import KnightCode.Proofs.Prologue
import KnightCode.Proofs.Resolution
import KnightCode.Proofs.Assembly
import KnightCode.Proofs.MainMethod
import KnightCode.Proofs.Slots
import KnightCode.Proofs.Failures
import KnightCode.Proofs.Behaviour
import KnightCode.Proofs.Meaning
import KnightCode.Proofs.Machine
import KnightCode.Proofs.Constants
import KnightCode.Proofs.CallMachine
import KnightCode.Proofs.Simulation
import KnightCode.Proofs.Storage
import KnightCode.Proofs.CodeExecution
import KnightCode.Proofs.Console
import KnightCode.Proofs.Correctness
import KnightCode.Proofs.Capacity
import KnightCode.Proofs.FrameTable
import KnightCode.Proofs.NamedTypes
import KnightCode.Proofs.Verifier
import KnightCode.Proofs.Junctions
import KnightCode.Proofs.TypeEffects
import KnightCode.Proofs.Verification
import KnightCode.Proofs.Verifiability
import KnightCode.Proofs.ClassCodec
import KnightCode.Proofs.Policies
import KnightCode.Proofs.Requests
import KnightCode.Proofs.Grammar
import KnightCode.Proofs.Parsing
import KnightCode.Proofs.Integrity
import KnightCode.Proofs.FrameRecords
import KnightCode.Proofs.Lexemes
import KnightCode.Proofs.Lexing
import KnightCode.Proofs.PoolInclusion
import KnightCode.Proofs.BodyRequests
import KnightCode.Proofs.BranchTargets
import KnightCode.Proofs.FrameOption
import KnightCode.Proofs.FaultPosition
import KnightCode.Proofs.InstructionCodec
import KnightCode.Proofs.Balance
import KnightCode.Proofs.BranchResolution
import KnightCode.Proofs.StackDepth
import KnightCode.Proofs.Edges
import KnightCode.Proofs.FrameCoverage
import KnightCode.Proofs.TextConstants
import KnightCode.Proofs.LooseText
import KnightCode.Proofs.Descriptors
import KnightCode.Proofs.Redeclarations
import KnightCode.Proofs.Correspondence
import KnightCode.Proofs.Renaming
import KnightCode.Proofs.Values
import KnightCode.Proofs.ScopeGrowth
import KnightCode.Proofs.Remarks
import KnightCode.Proofs.ReadingEnds
