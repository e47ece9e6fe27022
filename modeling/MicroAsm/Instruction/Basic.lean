import MicroAsm.AluOp
import MicroAsm.FuncUnit
import MicroAsm.Source.LabelTable
/-!
An instruction is a selector for every unit, the index of an ALU operation, a port bit and a value
of twelve signed bits. The value holds one constant, or two: the literal in its upper half and the
branch target in its lower six bits.
-/
namespace MicroAsm

/-- Selectors are those of the catalog, except that three stands for either input port of A and
one for either output port of O; the port bit tells the ports apart. -/
structure Instruction extends Selectors where
  alu : Nat := 0
  io : Nat := 0
  twoConstants : Bool := false
  value : Int := 0
  deriving DecidableEq, Repr

/-- The signed number in the low twelve bits. -/
def valueField (z : Int) : Int := z.bmod 4096

namespace Instruction

def aluOp? (i : Instruction) : Option AluOp := AluOp.ofIndex? i.alu

def literal (i : Instruction) : Int := if i.twoConstants then i.value / 64 else i.value

def branchTarget (i : Instruction) : Address :=
  UInt8.ofNat (if i.twoConstants then i.value % 64 else i.value % 256).toNat

def readsAlu (i : Instruction) : Bool :=
  i.a == 2 || i.b == 2 || i.c == 1 || i.w == 2 || i.f != 0

def readsLiteral (i : Instruction) : Bool := i.b == 3 || i.w == 3

def branches (i : Instruction) : Bool := i.j != 0 || i.c == 3

/-- Where the instruction may transfer control, if anywhere. -/
def jumpTarget? (i : Instruction) : Option Address :=
  if i.branches then some i.branchTarget else none

/-- The port number of an input or output, counted from one. -/
def port (i : Instruction) : Nat := i.io + 1

end Instruction
end MicroAsm
