import MicroAsm.Instruction.Basic
import MicroAsm.Text.Numeral
/-!
The text of an instruction: a mnemonic for each unit that is not idle, then the ALU operation `M`,
the literal `K` and the branch target `L`, each where the instruction uses it.
-/
namespace MicroAsm.Instruction
open Text

def aMnemonic (i : Instruction) : Option Text :=
  match i.a with
  | 1 => some "A=D".toList
  | 2 => some "A=M".toList
  | 3 => some ("A=IN".toList ++ decimal i.port)
  | _ => none

def bMnemonic (i : Instruction) : Option Text :=
  match i.b with
  | 1 => some "B=A".toList
  | 2 => some "B=M".toList
  | 3 => some "B=K".toList
  | _ => none

def cMnemonic (i : Instruction) : Option Text :=
  match i.c with
  | 1 => some "C=M".toList
  | 2 => some "DEC".toList
  | 3 => some "DECNZ".toList
  | _ => none

def dMnemonic (i : Instruction) : Option Text :=
  match i.d with
  | 1 => some "D=A".toList
  | _ => none

def wMnemonic (i : Instruction) : Option Text :=
  match i.w with
  | 1 => some "W=A".toList
  | 2 => some "W=M".toList
  | 3 => some "W=K".toList
  | _ => none

def oMnemonic (i : Instruction) : Option Text :=
  if i.o = 0 then none else some ("OUT".toList ++ decimal i.port ++ "=W".toList)

def fMnemonic (i : Instruction) : Option Text :=
  match i.f with
  | 1 => some "F=Z(M)".toList
  | 2 => some "F=N(M)".toList
  | 3 => some "F=P(M)".toList
  | _ => none

def jMnemonic (i : Instruction) : Option Text :=
  match i.j with
  | 1 => some "JMP".toList
  | 2 => some "JMPT".toList
  | 3 => some "JMPF".toList
  | _ => none

def mnemonics (i : Instruction) : List Text :=
  [i.aMnemonic, i.bMnemonic, i.cMnemonic, i.dMnemonic, i.wMnemonic, i.oMnemonic, i.fMnemonic,
    i.jMnemonic].filterMap id

def aluPart (i : Instruction) : Option Text :=
  if i.readsAlu then
    match i.aluOp? with
    | some op => some ("M:".toList ++ op.spelling)
    | none => some ("M:?".toList ++ decimal i.alu)
  else none

def literalPart (i : Instruction) : Option Text :=
  if i.readsLiteral then some ("K=".toList ++ integer i.literal) else none

def targetPart (name : Address → Option Text) (i : Instruction) : Option Text :=
  i.jumpTarget?.map fun target => "L=".toList ++ (name target).getD (decimal target.toNat)

def parts (name : Address → Option Text) (i : Instruction) : List Text :=
  i.mnemonics ++ [i.aluPart, i.literalPart, i.targetPart name].filterMap id

/-- The text of an instruction, with the names that are known for branch targets. -/
def textWith (name : Address → Option Text) (i : Instruction) : Text :=
  match i.parts name with
  | [] => "NOP".toList
  | parts => ", ".toList.intercalate parts

def text (i : Instruction) : Text := i.textWith fun _ => none

end MicroAsm.Instruction
