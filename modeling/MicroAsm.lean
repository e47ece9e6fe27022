import MicroAsm.Assembly
import MicroAsm.CommandLine.Parsers
import MicroAsm.Disassembly
import MicroAsm.Flow
import MicroAsm.Main
import MicroAsm.Proofs.Concatenation
import MicroAsm.Proofs.Constraint
import MicroAsm.Proofs.Emitted
import MicroAsm.Proofs.Faithful
import MicroAsm.Proofs.History
import MicroAsm.Proofs.ImageFormat
import MicroAsm.Proofs.ImportedNames
import MicroAsm.Proofs.PrintedRows
import MicroAsm.Proofs.LineFaults
import MicroAsm.Proofs.FirstFault
import MicroAsm.Proofs.OptionValues
import MicroAsm.Proofs.PlainNames
import MicroAsm.Proofs.CommandRuns
import MicroAsm.Proofs.HandOver
import MicroAsm.Proofs.Constants
import MicroAsm.Proofs.LoneToken
import MicroAsm.Proofs.ControlFlow
import MicroAsm.Proofs.InsertedLines
import MicroAsm.Proofs.AddedTokens
import MicroAsm.Proofs.Chains
import MicroAsm.Proofs.TextFields
import MicroAsm.Proofs.ShownLine
import MicroAsm.Proofs.Peeling
import MicroAsm.Proofs.Surface
import MicroAsm.Proofs.Edits
import MicroAsm.Proofs.ReservedAddress
import MicroAsm.Proofs.LabelReferences
import MicroAsm.Proofs.Exports
import MicroAsm.Proofs.LabelLookup
import MicroAsm.Proofs.EdgeText
