import MicroAsm.Text.Utf8
/-!
A directory of plain files, and the faults of reading and writing by path. A path is followed name
by name, from the directory or from the root of the system. Around the directory only what every
system has is known: each directory lies in another one, up to the root with its usual directories,
and one device takes every content and gives none back.
-/
namespace MicroAsm

inductive FileFault where
  | notFound
  | notADirectory
  | isADirectory
  | nameTooLong
  | other (message : Text)
  deriving DecidableEq, Repr

def FileFault.message : FileFault → Text
  | notFound => "No such file or directory (os error 2)".toList
  | notADirectory => "Not a directory (os error 20)".toList
  | isADirectory => "Is a directory (os error 21)".toList
  | nameTooLong => "File name too long (os error 36)".toList
  | other message => message

structure Files where
  entries : List (Text × Bytes) := []
  deriving DecidableEq, Repr

namespace Files

def nullDevice : Text := "/dev/null".toList

def systemDirectories : List Text :=
  ["/bin", "/dev", "/etc", "/home", "/lib", "/media", "/mnt", "/opt", "/proc", "/root", "/run",
    "/sbin", "/srv", "/sys", "/tmp", "/usr", "/var"].map String.toList

/-- Directories are written with a slash at the end; the directory of the files is the empty text,
and the one above the root is the root. -/
def parent (directory : Text) : Text :=
  if directory.head? = some '/' then ['/'] else "../".toList ++ directory

/-- Names on a path that stay where they are. -/
def skipped (name : Text) : Bool := name == [] || name == ['.']

def get? (files : Files) (name : Text) : Option Bytes :=
  (files.entries.find? fun e => e.1 == name).map (·.2)

def put (files : Files) (name : Text) (bytes : Bytes) : Files :=
  ⟨(name, bytes) :: files.entries.filter fun e => e.1 != name⟩

theorem get?_put (files : Files) (name other : Text) (bytes : Bytes) :
    (files.put name bytes).get? other = if other = name then some bytes else files.get? other := by
  by_cases h : other = name
  · simp [get?, put, h]
  · have hn : (name == other) = false := by simpa using fun e => h e.symm
    simp only [get?, put, List.find?_cons, hn, h, if_false, List.find?_filter]
    congr 2
    funext e
    by_cases he : e.1 = other
    · simp [he, h]
    · simp [he]

def holds (files : Files) (path : Text) : Bool := path == nullDevice || (files.get? path).isSome

/-- The file that names lead to from a directory. Below a file there is nothing, and slashes after
the name of a file to create ask for a directory. -/
def follow (files : Files) (creating : Bool) (directory : Text) :
    List Text → Except FileFault Text
  | [] => .error .isADirectory
  | name :: below =>
    let path := directory ++ name
    if skipped name then files.follow creating directory below
    else if name = ['.', '.'] then files.follow creating (parent directory) below
    else if 255 < (Text.toUtf8 name).length then .error .nameTooLong
    else if systemDirectories.contains path then files.follow creating (path ++ ['/']) below
    else if below.isEmpty then .ok path
    else if creating && below.all List.isEmpty then .error .isADirectory
    else .error (if files.holds path then .notADirectory else .notFound)

def locate (files : Files) (creating : Bool) (path : Text) : Except FileFault Text :=
  if path.isEmpty then .error .notFound
  else if 4095 < (Text.toUtf8 path).length then .error .nameTooLong
  else files.follow creating (if path.head? = some '/' then ['/'] else []) (path.splitOn '/')

def read (files : Files) (path : Text) : Except FileFault Bytes := do
  let path ← files.locate false path
  if path = nullDevice then .ok []
  else
    match files.get? path with
    | some bytes => .ok bytes
    | none => .error .notFound

def write (files : Files) (path : Text) (bytes : Bytes) : Except FileFault Files := do
  let path ← files.locate true path
  return if path = nullDevice then files else files.put path bytes

end Files
end MicroAsm
