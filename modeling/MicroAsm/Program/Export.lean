import MicroAsm.Json
import MicroAsm.Program.Image
/-!
A program for other tools: rows of a hardware case statement with the word in binary, and records
with the fields of each instruction.
-/
namespace MicroAsm
open Text

def romRow (pc : Nat) (w : Word) : Text :=
  "8'h".toList ++ fixed 16 2 pc ++ ":   data = 32'b".toList ++ fixed 2 32 w.toNat ++ ";\n".toList

namespace Program

def toVerilog (p : Program) : Text := p.words.zipIdx.flatMap fun (w, pc) => romRow pc w

end Program

def Instruction.fields (i : Instruction) : List (Text × Json) :=
  [("a".toList, .int i.a), ("b".toList, .int i.b), ("c".toList, .int i.c), ("d".toList, .int i.d),
    ("w".toList, .int i.w), ("o".toList, .int i.o), ("f".toList, .int i.f), ("j".toList, .int i.j),
    ("alu".toList, .int i.alu), ("io".toList, .int i.io),
    ("two_constants".toList, .bool i.twoConstants), ("value".toList, .int i.value)]

def Program.toJson (p : Program) : Json := .arr (p.instructions.map fun i => .obj i.fields)

end MicroAsm
