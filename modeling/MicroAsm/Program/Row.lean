import MicroAsm.Instruction.Mnemonic
import MicroAsm.Instruction.Word
import MicroAsm.Program.Basic
/-!
The rows of a listing: each instruction with its address, the name of the address and its text, in
which branch targets go by their names.
-/
namespace MicroAsm
open Text

structure Row where
  pc : Nat
  label : Option Text
  instruction : Instruction
  text : Text
  deriving DecidableEq, Repr

def Program.rows (p : Program) (name : Address → Option Text) : List Row :=
  p.addressed.map fun (i, pc) => ⟨pc, name (UInt8.ofNat pc), i, i.textWith name⟩

/-- The word of a row as eight digits of base sixteen. -/
def Row.word (r : Row) : Text := fixed 16 8 r.instruction.encode.toNat

end MicroAsm
