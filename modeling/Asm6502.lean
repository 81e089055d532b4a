import Asm6502.Main
import Asm6502.Command
import Asm6502.ComponentIds
import Asm6502.Disassembly
import Asm6502.Output.DebuggerFile
import Asm6502.Source.Printer
import Asm6502.Proofs.OperandModes
import Asm6502.Proofs.Operations
import Asm6502.Proofs.Events
import Asm6502.Proofs.Ownership
import Asm6502.Proofs.LabelAgreement
import Asm6502.Proofs.CommandTrees
import Asm6502.Proofs.OwnerScopes
import Asm6502.Proofs.EmitterPasses
import Asm6502.Proofs.ComponentIdentity
import Asm6502.Proofs.Serialization
import Asm6502.Proofs.ComponentLayout
import Asm6502.Proofs.Parsing
import Asm6502.Proofs.Spelling
import Asm6502.Proofs.Rederivation
import Asm6502.Proofs.LineComposition
import Asm6502.Proofs.Printing
import Asm6502.Proofs.LetterCase
import Asm6502.Proofs.Formatting
import Asm6502.Proofs.SyntaxFaults
import Asm6502.Proofs.Failures
import Asm6502.Proofs.Words
import Asm6502.Proofs.CommandLineRuns
import Asm6502.Proofs.Renaming
import Asm6502.Proofs.OwnerPartition
import Asm6502.Proofs.Displacements
import Asm6502.Proofs.OperandOutcomes
import Asm6502.Proofs.UnitOffsets
import Asm6502.Proofs.Fills
import Asm6502.Proofs.HexDumps
import Asm6502.Proofs.BreakpointExport
import Asm6502.Proofs.CellCopies
import Asm6502.Proofs.ReferenceTracking
import Asm6502.Proofs.CountedOperations
