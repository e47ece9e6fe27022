import MicroAsm.CommandLine.Command
import MicroAsm.Proofs.PlainNames
/-!
Runs of jobs. A job that writes last, and only to its output, leaves every file alone if it fails,
whatever it reads and prints before, and otherwise changes at most the file of its output.
-/
namespace MicroAsm
open Text

/-- The text that a path leads to. -/
def Files.Reads (files : Files) (path text : Text) : Prop :=
  ∃ bytes, files.read path = .ok bytes ∧ ofUtf8? bytes = some text

namespace Job
variable {α β : Type}

/-- On every path a job writes at most once, to its output, and is done if this succeeds and fails
if it does not. A job without an output writes nothing. -/
inductive WritesLast (output : Option Text) : Job α → Prop where
  | done (value : α) : WritesLast output (done value)
  | fail (report : Report) : WritesLast output (fail report)
  | reading {path : Text} {next : Except FileFault Bytes → Job α}
      (h : ∀ content, WritesLast output (next content)) : WritesLast output (reading path next)
  | printing {text : Text} {next : Job α} (h : WritesLast output next) :
      WritesLast output (printing text next)
  | writing {path : Text} {bytes : Bytes} {next : Except FileFault Unit → Job α}
      (hpath : output = some path) (hok : ∃ value, next (.ok ()) = done value)
      (herror : ∀ fault, ∃ report, next (.error fault) = fail report) :
      WritesLast output (writing path bytes next)

section Laws
variable {output : Option Text} {job : Job α} {f : α → Job β}

/-- What comes before must not write. -/
theorem WritesLast.bind (h : job.WritesLast none) (hf : ∀ a, (f a).WritesLast output) :
    (job >>= f).WritesLast output := by
  induction h with
  | done value => exact hf value
  | fail report => exact .fail report
  | reading _ ih => exact .reading ih
  | printing _ ih => exact .printing ih
  | writing hpath => contradiction

end Laws

section Perform
variable {w : World} {path text : Text} {bytes : Bytes}

theorem perform_bind (job : Job α) (f : α → Job β) (w : World) :
    (job >>= f).perform w =
      match job.perform w with
      | (.ok a, w') => (f a).perform w'
      | (.error report, w') => (.error report, w') := by
  show (job.bind f).perform w = _
  induction job generalizing w with
  | done value => rfl
  | fail report => rfl
  | reading path next ih => exact ih _ w
  | printing text next ih => exact ih _
  | writing path bytes next ih =>
    simp only [Job.bind, perform]
    cases w.files.write path bytes with
    | ok files => exact ih _ _
    | error fault => exact ih _ _

theorem perform_readBytes_of_ok (h : w.files.read path = .ok bytes) :
    (readBytes path).perform w = (.ok bytes, w) := by
  simp only [readBytes, perform, h]
  rfl

variable {files : Files} {fault : FileFault}

theorem perform_writeBytes_of_ok (h : w.files.write path bytes = .ok files) :
    (writeBytes path bytes).perform w = (.ok (), { w with files }) := by
  simp only [writeBytes, perform, h]
  rfl

end Perform
end Job

namespace Command
variable {Request : Type} {command : Command Request} {output : Request → Option Text}
  {args : List Text} {files : Files} {request : Request} {w : World} {report : Report}

theorem run_of_ok (hparse : command.parse args = .ok request)
    (hjob : (command.job request).perform { files } = (.ok (), w)) :
    command.run args files = ⟨0, w.stdout, [], w.files⟩ := by
  simp only [run, hparse, hjob]

end Command
end MicroAsm
