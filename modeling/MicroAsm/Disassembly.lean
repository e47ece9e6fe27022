import MicroAsm.AddressNames
import MicroAsm.Assembly
import MicroAsm.Flow
import MicroAsm.Program.Export
/-!
A loaded image with the names known for its addresses. Names come from sources, where the first
name of an address stays, or are made up from the addresses of the branch targets.
-/
namespace MicroAsm
open Text

structure Image where
  program : Program
  labels : AddressNames := {}
  deriving DecidableEq, Repr

namespace Image

def ofBytes (bytes : Bytes) : Except ImageFault Image := do
  return { program := ← Program.ofBytes bytes }

/-- Takes the names of a source, and tells whether the source assembles to this very image. The
image that is left behind stands beside the report. -/
def importSource (image : Image) (source : Text) : Except Diagnostic Bool × Image :=
  match assemble source with
  | .ok assembly =>
    let named := { image with labels := image.labels.offerLabels assembly.labels }
    (.ok (assembly.program == named.program), named)
  | .error d => (.error d, image)

/-- Names every branch target after its address. -/
def nameTargets (image : Image) : Image :=
  { image with
    labels := (branchTargets image.program.edges).foldl
      (fun names pc => names.put pc ('L' :: decimal pc.toNat)) image.labels }

def rows (image : Image) : List Row := image.program.rows image.labels.get?

def listingRow (r : Row) : Text :=
  r.label.elim [] (· ++ ":\n".toList) ++ "  ".toList ++ padLeft 3 (decimal r.pc) ++ ": ".toList ++
    r.word ++ "  ".toList ++ r.text ++ ['\n']

def listing (image : Image) : Text := image.rows.flatMap listingRow

/-- The name of an address, or its number. -/
def nameOf (image : Image) (pc : Address) : Text :=
  (image.labels.get? pc).getD (decimal pc.toNat)

def edgeRow (image : Image) (e : Edge) : Text :=
  image.nameOf e.source ++ " -> ".toList ++ image.nameOf e.target ++ " (".toList ++ e.kind.name ++
    ")\n".toList

def edgeText (image : Image) : Text := image.program.edges.flatMap image.edgeRow

def rowRecord (r : Row) : Json :=
  .obj [("pc".toList, .int r.pc), ("word".toList, .str r.word), ("text".toList, .str r.text),
    ("label".toList, r.label.elim .null .str), ("fields".toList, .obj r.instruction.fields)]

def edgeRecord (e : Edge) : Json :=
  .obj [("from".toList, .int e.source.toNat), ("to".toList, .int e.target.toNat),
    ("kind".toList, .str e.kind.name)]

def toJson (image : Image) : Json :=
  .obj [("instructions".toList, .arr (image.rows.map rowRecord)),
    ("edges".toList, .arr (image.program.edges.map edgeRecord))]

end Image
end MicroAsm
