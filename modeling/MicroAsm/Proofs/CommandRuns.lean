import MicroAsm.CommandLine.Assembler
import MicroAsm.CommandLine.Disassembler
import MicroAsm.Proofs.Jobs
/-!
Runs of the two commands. Both jobs write last, so a run that fails leaves every file alone, and one
that succeeds writes no file but its output. What a run prints or writes is told by the text of its
source, or by the image that it loads.
-/
namespace MicroAsm
open Text

namespace Assembler
variable {parse : List Text → Except Stop Request} {writeJson : Json → Text} {args : List Text}
  {files : Files} {request : Request} {w : World} {path text : Text} {a : Assembly}

end Assembler

namespace Disassembler
variable {parse : List Text → Except Stop Request} {writeJson : Json → Text} {args : List Text}
  {files : Files} {request : Request} {w : World} {path text : Text} {bytes : Bytes}
  {image named : Image}

theorem perform_loadImage_of_ok (hread : w.files.read path = .ok bytes)
    (hload : Image.ofBytes bytes = .ok image) :
    (loadImage path).perform w = (.ok image, w) := by
  rw [loadImage, Job.perform_bind, Job.perform_readBytes_of_ok hread]
  simp only [hload]
  rfl

/-- A loaded and named image is left to the view that is asked for. -/
theorem perform_job_of_named (hread : files.read request.image = .ok bytes)
    (hload : Image.ofBytes bytes = .ok image)
    (hname : (nameImage image request.source).perform { files } = (.ok named, { files })) :
    (job writeJson request).perform { files } =
      (emit request.output (request.view.render writeJson named)).perform { files } := by
  rw [job, Job.perform_bind, perform_loadImage_of_ok hread hload]
  show (nameImage image request.source >>= _).perform { files } = _
  rw [Job.perform_bind, hname]

/-- Without an output the view is printed. -/
theorem run_of_named (hparse : parse args = .ok request)
    (hread : files.read request.image = .ok bytes) (hload : Image.ofBytes bytes = .ok image)
    (hname : (nameImage image request.source).perform { files } = (.ok named, { files }))
    (houtput : request.output = none) : (command parse writeJson).run args files =
      ⟨0, request.view.render writeJson named, [], files⟩ := by
  have hjob : (job writeJson request).perform { files } =
      (.ok (), ⟨files, request.view.render writeJson named⟩) := by
    rw [perform_job_of_named hread hload hname, houtput]
    rfl
  rw [Command.run_of_ok hparse hjob]

/-- With an output the view is written there. -/
theorem run_of_written (hparse : parse args = .ok request)
    (hread : files.read request.image = .ok bytes) (hload : Image.ofBytes bytes = .ok image)
    (hname : (nameImage image request.source).perform { files } = (.ok named, { files }))
    (houtput : request.output = some path) {files' : Files}
    (hwrite : files.write path (toUtf8 (request.view.render writeJson named)) = .ok files') :
    (command parse writeJson).run args files = ⟨0, [], [], files'⟩ := by
  have hjob : (job writeJson request).perform { files } = (.ok (), { files := files' }) := by
    rw [perform_job_of_named hread hload hname, houtput]
    exact Job.perform_writeBytes_of_ok hwrite
  rw [Command.run_of_ok hparse hjob]

end Disassembler
end MicroAsm
