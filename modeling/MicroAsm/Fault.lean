import MicroAsm.FuncUnit
import MicroAsm.Text.Numeral
/-!
What can be wrong with a source, and how it is reported. A diagnostic is a fault with the number
of the line it was found on; only a program without instructions has no line.
-/
namespace MicroAsm

/-- What a token was expected to continue with. -/
inductive Expected where
  | opcode
  | alu (unit : FuncUnit)
  | literal (unit : FuncUnit)
  | aluOrLiteral (unit : FuncUnit)
  deriving DecidableEq, Repr

inductive Fault where
  | duplicateLabel (name : Text)
  | malformedLabel
  | undefinedLabel (name : Text) (unit : FuncUnit)
  | unitUsedTwice (unit : FuncUnit)
  | unrecognized (token : Text) (expected : Expected)
  | constantRange (value truncated : Int) (hex : Bool)
  | trailingCharacters (value : Int)
  | conflictingTargets
  | portMismatch
  | missingAlu
  | unsatisfiable
  | programTooLarge (limit : Nat)
  | emptyProgram
  deriving DecidableEq, Repr

structure Diagnostic where
  line : Option Nat
  fault : Fault
  deriving DecidableEq, Repr

open Text

def Expected.describe : Expected → Text
  | opcode => "opcode".toList
  | alu u => "ALU operation in ".toList ++ u.name ++ " unit".toList
  | literal u => "integer constant in ".toList ++ u.name ++ " unit".toList
  | aluOrLiteral u => "ALU operation or integer constant in ".toList ++ u.name ++ " unit".toList

/-- A constant is reported in the base it was written in. -/
def constantText (hex : Bool) (z : Int) : Text :=
  if hex then signed (fun n => '$' :: upperHex n) z else integer z

def Fault.message : Fault → Text
  | duplicateLabel name => "label '".toList ++ name ++ "' defined more than once".toList
  | malformedLabel => "labels must be terminated by ':'".toList
  | undefinedLabel name u =>
    "unknown label '".toList ++ name ++ "' in ".toList ++ u.name ++ " unit".toList
  | unitUsedTwice u => "tried to use ".toList ++ u.name ++ " unit more than once".toList
  | unrecognized token expected =>
    "unrecognized ".toList ++ expected.describe ++ " in '".toList ++ token ++ "'".toList
  | constantRange value truncated hex =>
    "constant ".toList ++ constantText hex value ++ " would be truncated to ".toList ++
      constantText hex truncated
  | trailingCharacters value => "extra characters after constant ".toList ++ integer value
  | conflictingTargets =>
    "cannot branch to two different addresses in the same instruction".toList
  | portMismatch =>
    "attempted to use IN and OUT in same instruction with different port numbers".toList
  | missingAlu =>
    "F was assigned with implicit ALU, but no ALU operation was specified elsewhere".toList
  | unsatisfiable => "couldn't find a consistent assignment of ALU and/or constants".toList
  | programTooLarge limit =>
    "program can be at most ".toList ++ decimal limit ++ " instructions long".toList
  | emptyProgram => "program was empty".toList

def Diagnostic.message (d : Diagnostic) : Text :=
  match d.line with
  | some n => "ASM error, line ".toList ++ decimal n ++ ": ".toList ++ d.fault.message
  | none => "ASM error: ".toList ++ d.fault.message

/-- Gives the fault of a failed step the number of the line it happened on. -/
def atLine {α : Type} (line : Nat) : Except Fault α → Except Diagnostic α :=
  Except.mapError fun fault => ⟨some line, fault⟩

end MicroAsm
