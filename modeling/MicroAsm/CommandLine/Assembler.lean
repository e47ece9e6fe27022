import MicroAsm.Assembly
import MicroAsm.CommandLine.Command
import MicroAsm.Program.Export
/-!
The assembler's job: a source is read and assembled, its listing is printed if that is asked for,
and the program is written in one of three formats. The parser of the arguments and the writer of
JSON documents are given from outside.
-/
namespace MicroAsm.Assembler
open Text

inductive Format where
  | bin | verilog | json
  deriving DecidableEq, Repr

structure Request where
  source : Text
  output : Text
  format : Format
  listing : Bool
  deriving DecidableEq, Repr

def Format.render (format : Format) (writeJson : Json → Text) (p : Program) : Bytes :=
  match format with
  | .bin => p.toBytes
  | .verilog => toUtf8 p.toVerilog
  | .json => toUtf8 (writeJson p.toJson)

def assembleFile (path : Text) : Job Assembly := do
  let source ← Job.readText path
  Job.ofExcept ((assemble source).mapError fun d => ⟨d.message, none⟩)

/-- The listing is printed before the output is written. -/
def job (writeJson : Json → Text) (request : Request) : Job Unit := do
  let assembly ← assembleFile request.source
  if request.listing then Job.print assembly.listing
  Job.writeBytes request.output (request.format.render writeJson assembly.program)

def command (parse : List Text → Except Stop Request) (writeJson : Json → Text) :
    Command Request :=
  ⟨parse, job writeJson⟩

end MicroAsm.Assembler
