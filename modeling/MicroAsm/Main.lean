import MicroAsm.CommandLine.Parsers
/-!
The program: the first argument chooses the command, whose job is then done on the files of the
system.
-/
namespace MicroAsm

def faultOf : IO.Error → FileFault
  | .noFileOrDirectory .. => .notFound
  | .inappropriateType _ 20 _ => .notADirectory
  | .inappropriateType _ 21 _ => .isADirectory
  | .invalidArgument _ 36 _ => .nameTooLong
  | e => .other (toString e).toList

def readInput (path : Text) : IO (Except FileFault Bytes) := do
  try
    return .ok (← IO.FS.readBinFile (String.ofList path)).toList
  catch e => return .error (faultOf e)

def writeOutput (path : Text) (bytes : Bytes) : IO (Except FileFault Unit) := do
  try
    IO.FS.writeBinFile (String.ofList path) bytes.toByteArray
    return .ok ()
  catch e => return .error (faultOf e)

def Job.execute : Job Unit → IO UInt32
  | done () => return 0
  | fail report => do
    (← IO.getStderr).putStr (String.ofList report.display)
    return 1
  | reading path next => do (next (← readInput path)).execute
  | printing text next => do
    (← IO.getStdout).putStr (String.ofList text)
    next.execute
  | writing path bytes next => do (next (← writeOutput path bytes)).execute

def Command.execute {Request : Type} (command : Command Request) (args : List Text) :
    IO UInt32 := do
  match command.parse args with
  | .error (.misuse message) =>
    (← IO.getStderr).putStr (String.ofList message)
    return 2
  | .error (.help message) =>
    (← IO.getStdout).putStr (String.ofList message)
    return 0
  | .ok request => (command.job request).execute

end MicroAsm

def main (args : List String) : IO UInt32 := do
  match args.map String.toList with
  | command :: args =>
    if command = "assemble".toList then
      (MicroAsm.Assembler.command MicroAsm.Assembler.parse MicroAsm.Json.pretty).execute args
    else if command = "disassemble".toList then
      (MicroAsm.Disassembler.command MicroAsm.Disassembler.parse MicroAsm.Json.pretty).execute args
    else return 2
  | [] => return 2
