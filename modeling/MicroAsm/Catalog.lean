import MicroAsm.FuncUnit
/-!
The catalog lists, unit by unit, the spellings of an assignment. A spelling without an operand is
a whole token; any other is the beginning of a token, and the operand is the rest.
-/
namespace MicroAsm

inductive OperandKind where
  | none | literal | alu | label
  deriving DecidableEq, Repr

structure Form where
  selector : Nat
  text : Text
  operand : OperandKind
  deriving DecidableEq, Repr

/-- The forms of a unit in the order in which they are tried. -/
def FuncUnit.forms : FuncUnit → List Form
  | a => [⟨1, "A=D".toList, .none⟩, ⟨2, "A=".toList, .alu⟩, ⟨3, "A=IN1".toList, .none⟩,
      ⟨4, "A=IN2".toList, .none⟩]
  | b => [⟨1, "B=A".toList, .none⟩, ⟨2, "B=".toList, .alu⟩, ⟨3, "B=".toList, .literal⟩]
  | c => [⟨1, "C=".toList, .alu⟩, ⟨2, "DEC".toList, .none⟩, ⟨3, "DECNZ ".toList, .label⟩]
  | d => [⟨1, "D=A".toList, .none⟩]
  | w => [⟨1, "W=A".toList, .none⟩, ⟨2, "W=".toList, .alu⟩, ⟨3, "W=".toList, .literal⟩]
  | o => [⟨1, "OUT1=W".toList, .none⟩, ⟨2, "OUT2=W".toList, .none⟩]
  | f => [⟨1, "F=ZERO()".toList, .none⟩, ⟨2, "F=NEG()".toList, .none⟩,
      ⟨3, "F=POS()".toList, .none⟩, ⟨1, "F=ZERO(".toList, .alu⟩, ⟨2, "F=NEG(".toList, .alu⟩,
      ⟨3, "F=POS(".toList, .alu⟩]
  | j => [⟨1, "JMP ".toList, .label⟩, ⟨2, "JMPT ".toList, .label⟩, ⟨3, "JMPF ".toList, .label⟩]

theorem FuncUnit.selector_pos {u : FuncUnit} {form : Form} (h : form ∈ u.forms) :
    0 < form.selector := by
  revert form
  cases u <;> decide

end MicroAsm
