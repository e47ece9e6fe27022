import MicroAsm.Text.UpperCase
/-!
The code of a source line is what stands before its comment, without trailing blanks and in upper
case. A line whose code starts without a blank defines a label and may go on with an instruction
body after the colon; any other line is a body.
-/
namespace MicroAsm
open Text

def codeOf (line : Text) : Text := upper (trimRight (line.takeWhile (· != ';')))

structure CodeLine where
  number : Nat
  code : Text
  deriving DecidableEq, Repr

def codeLines (source : Text) : List CodeLine :=
  ((lines source).zipIdx 1).map fun (line, number) => ⟨number, codeOf line⟩

namespace CodeLine

def definesLabel (l : CodeLine) : Bool :=
  match l.code with
  | [] => false
  | c :: _ => !isBlank c

def hasColon (l : CodeLine) : Bool := l.code.any (· == ':')

def labelName (l : CodeLine) : Text := trimRight (l.code.takeWhile (· != ':'))

def body (l : CodeLine) : Text :=
  trim (if l.definesLabel then (l.code.dropWhile (· != ':')).drop 1 else l.code)

end CodeLine
end MicroAsm
