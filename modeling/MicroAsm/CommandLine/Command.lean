import MicroAsm.CommandLine.Files
/-!
Commands. A command turns its arguments into a request and does the job for it: a tree of reads,
prints and writes, each of which goes on with what it has brought about. A run takes the tree down
one path, and a job that fails ends its run there, with what was printed and written until then.
-/
namespace MicroAsm
open Text

/-- A failure with the error behind it, if there is one. -/
structure Report where
  context : Text
  cause : Option Text := none
  deriving DecidableEq, Repr

namespace Report

def display (r : Report) : Text :=
  "Error: ".toList ++ r.context ++
    r.cause.elim [] ("\n\nCaused by:\n    ".toList ++ ·) ++ ['\n']

def unreadable (path cause : Text) : Report :=
  ⟨"couldn't open '".toList ++ path ++ "'".toList, some cause⟩

def unwritable (path cause : Text) : Report :=
  ⟨"couldn't write '".toList ++ path ++ "'".toList, some cause⟩

end Report

/-- What a command does, one step after another. -/
inductive Job (α : Type) where
  | done (value : α)
  | fail (report : Report)
  | reading (path : Text) (next : Except FileFault Bytes → Job α)
  | printing (text : Text) (next : Job α)
  | writing (path : Text) (bytes : Bytes) (next : Except FileFault Unit → Job α)

/-- The files that a run has left behind, and what it has printed. -/
structure World where
  files : Files
  stdout : Text := []
  deriving DecidableEq, Repr

namespace Job

def bind {α β : Type} : Job α → (α → Job β) → Job β
  | done value, f => f value
  | fail report, _ => fail report
  | reading path next, f => reading path fun content => (next content).bind f
  | printing text next, f => printing text (next.bind f)
  | writing path bytes next, f => writing path bytes fun written => (next written).bind f

instance : Monad Job where
  pure := done
  bind := bind

def ofExcept {α : Type} : Except Report α → Job α
  | .ok value => done value
  | .error report => fail report

def readBytes (path : Text) : Job Bytes :=
  reading path fun content =>
    ofExcept (content.mapError fun fault => .unreadable path fault.message)

def readText (path : Text) : Job Text := do
  match ofUtf8? (← readBytes path) with
  | some text => return text
  | none => fail (.unreadable path "stream did not contain valid UTF-8".toList)

def print (text : Text) : Job Unit := printing text (done ())

def writeBytes (path : Text) (bytes : Bytes) : Job Unit :=
  writing path bytes fun written =>
    ofExcept (written.mapError fun fault => .unwritable path fault.message)

/-- A write that fails changes nothing. -/
def perform {α : Type} : Job α → World → Except Report α × World
  | done value, w => (.ok value, w)
  | fail report, w => (.error report, w)
  | reading path next, w => (next (w.files.read path)).perform w
  | printing text next, w => next.perform { w with stdout := w.stdout ++ text }
  | writing path bytes next, w =>
    match w.files.write path bytes with
    | .ok files => (next (.ok ())).perform { w with files }
    | .error fault => (next (.error fault)).perform w

end Job

/-- Why the parser of the arguments ends a run, with the text that it prints. -/
inductive Stop where
  | misuse (message : Text)
  | help (message : Text)
  deriving DecidableEq, Repr

structure Command (Request : Type) where
  parse : List Text → Except Stop Request
  job : Request → Job Unit

structure Outcome where
  exit : Nat
  stdout : Text := []
  stderr : Text := []
  files : Files
  deriving DecidableEq, Repr

def Command.run {Request : Type} (command : Command Request) (args : List Text) (files : Files) :
    Outcome :=
  match command.parse args with
  | .error (.misuse message) => ⟨2, [], message, files⟩
  | .error (.help message) => ⟨0, message, [], files⟩
  | .ok request =>
    match (command.job request).perform { files } with
    | (.ok (), w) => ⟨0, w.stdout, [], w.files⟩
    | (.error report, w) => ⟨1, w.stdout, report.display, w.files⟩

end MicroAsm
