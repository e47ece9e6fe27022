import MicroAsm.Source.CodeLine
import MicroAsm.Source.LabelTable
/-!
The outline of a source: its labels and the bodies of its instructions with their addresses. Every
body that is not empty takes one address, and a label names the address of the next body.
-/
namespace MicroAsm

/-- A program counter is eight bits wide, and its last value is reserved. -/
def maxInstructions : Nat := 255

structure Statement where
  line : Nat
  pc : Address
  body : Text
  deriving DecidableEq, Repr

structure Outline where
  labels : LabelTable := {}
  statements : List Statement := []
  deriving DecidableEq, Repr

namespace Outline

def next (o : Outline) : Address := UInt8.ofNat o.statements.length

def addLabel (o : Outline) (l : CodeLine) : Except Fault Outline :=
  if l.definesLabel then
    if l.hasColon then
      (o.labels.define l.labelName o.next).map fun labels => { o with labels }
    else .error .malformedLabel
  else .ok o

def addBody (o : Outline) (l : CodeLine) : Except Fault Outline :=
  if l.body.isEmpty then .ok o
  else if maxInstructions ≤ o.statements.length then .error (.programTooLarge maxInstructions)
  else .ok { o with statements := o.statements ++ [⟨l.number, o.next, l.body⟩] }

def addLine (o : Outline) (l : CodeLine) : Except Diagnostic Outline :=
  atLine l.number do (← o.addLabel l).addBody l

def ofLines (ls : List CodeLine) : Except Diagnostic Outline := ls.foldlM addLine {}

def ofSource (source : Text) : Except Diagnostic Outline := ofLines (codeLines source)

end Outline
end MicroAsm
