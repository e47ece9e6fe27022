import MicroAsm.Line.Packing
import MicroAsm.Line.Reading
/-!
Solving a line. How a token is read may depend on the tokens before it, so the tokens are read in
every rotation until one is consistent; a hard fault ends the search.
-/
namespace MicroAsm

def readTokens (labels : LabelTable) (tokens : List Text) : Except Refusal LineState :=
  tokens.foldlM (LineState.assign labels) {}

def readRotation (labels : LabelTable) (tokens : List Text) (start : Nat) :
    Except Refusal LineState :=
  readTokens labels (tokens.rotateLeft start)

/-- The outcome of the first attempt that is not merely inconsistent. -/
def firstConsistent (attempt : Nat → Except Refusal LineState) :
    List Nat → Except Fault LineState
  | [] => .error .unsatisfiable
  | start :: rest =>
    match attempt start with
    | .ok s => .ok s
    | .error (.hard fault) => .error fault
    | .error .inconsistent => firstConsistent attempt rest

def settle (labels : LabelTable) (tokens : List Text) : Except Fault LineState :=
  firstConsistent (readRotation labels tokens) (List.range tokens.length)

def solve (labels : LabelTable) (tokens : List Text) (line : Nat) :
    Except Diagnostic Instruction :=
  atLine line do (← settle labels tokens).pack

end MicroAsm
