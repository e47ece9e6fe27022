import MicroAsm.CommandLine.Command
import MicroAsm.Disassembly
/-!
The disassembler's job: an image is loaded and named, by a source or after its branch targets, and
a view of it is printed or written. The parser of the arguments and the writer of JSON documents
are given from outside.
-/
namespace MicroAsm.Disassembler
open Text

inductive View where
  | listing | edges | report
  deriving DecidableEq, Repr

structure Request where
  image : Text
  source : Option Text
  view : View
  output : Option Text
  deriving DecidableEq, Repr

def loadImage (path : Text) : Job Image := do
  let bytes ← Job.readBytes path
  Job.ofExcept ((Image.ofBytes bytes).mapError fun fault =>
    ⟨"invalid program '".toList ++ path ++ "'".toList, some fault.message⟩)

/-- A source that assembles to another image names the addresses all the same. -/
def nameImage (image : Image) : Option Text → Job Image
  | none => return image.nameTargets
  | some path => do
    let source ← Job.readText path
    match image.importSource source with
    | (.ok _, named) => return named
    | (.error d, _) => .fail ⟨d.message, none⟩

def View.render (view : View) (writeJson : Json → Text) (image : Image) : Text :=
  match view with
  | .listing => image.listing
  | .edges => image.edgeText
  | .report => writeJson image.toJson

def emit (output : Option Text) (text : Text) : Job Unit :=
  match output with
  | none => Job.print text
  | some path => Job.writeBytes path (toUtf8 text)

def job (writeJson : Json → Text) (request : Request) : Job Unit := do
  let image ← loadImage request.image
  let named ← nameImage image request.source
  emit request.output (request.view.render writeJson named)

def command (parse : List Text → Except Stop Request) (writeJson : Json → Text) :
    Command Request :=
  ⟨parse, job writeJson⟩

end MicroAsm.Disassembler
