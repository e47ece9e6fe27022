import MicroAsm.Line.Solution
import MicroAsm.Program.Row
import MicroAsm.Source.Outline
import MicroAsm.Source.Token
/-!
Assembling a source: its outline gives the labels, and every statement is then solved against the
whole label table.
-/
namespace MicroAsm
open Text

structure Assembly where
  labels : LabelTable
  program : Program
  deriving DecidableEq, Repr

def Program.addStatement (labels : LabelTable) (p : Program) (s : Statement) :
    Except Diagnostic Program := do
  let i ← solve labels (tokenize s.body) s.line
  match p.push i s.line with
  | (.ok (), p) => return p
  | (.error d, _) => .error d

def Outline.assemble (o : Outline) : Except Diagnostic Assembly := do
  let program ← o.statements.foldlM (Program.addStatement o.labels) {}
  return ⟨o.labels, ← program.finish⟩

def assemble (source : Text) : Except Diagnostic Assembly := do
  (← Outline.ofSource source).assemble

namespace Assembly

/-- Address, label, word and text in columns. -/
def listingRow (r : Row) : Text :=
  padLeft 3 (decimal r.pc) ++ "  ".toList ++ padRight 8 (r.label.elim [] (· ++ [':'])) ++
    ' ' :: r.word ++ "  ".toList ++ r.text ++ ['\n']

def rows (assembly : Assembly) : List Row := assembly.program.rows assembly.labels.nameAt?

def listing (assembly : Assembly) : Text := assembly.rows.flatMap listingRow

end Assembly
end MicroAsm
