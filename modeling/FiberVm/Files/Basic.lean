import FiberVm.Files.Path

/-!
# Files

What a program sees of the file system: the contents of files by path, or why there are none.
-/

set_option autoImplicit false

namespace FiberVm

inductive FileError
  | missing
  | notDirectory
  /-- The path, or a name in it, is too long. -/
  | tooLong
  /-- The path is none. -/
  | invalid
  /-- The path is a directory, and it was opened for writing. -/
  | directory
  /-- The path is a directory, and it was read. -/
  | readDirectory
  /-- Anything else, in the words of the system. -/
  | other (reason : String)
deriving DecidableEq, Repr

def FileError.message (path : String) : FileError → String
  | missing => s!"open {path}: no such file or directory"
  | notDirectory => s!"open {path}: not a directory"
  | tooLong => s!"open {path}: file name too long"
  | invalid => s!"open {path}: invalid argument"
  | directory => s!"open {path}: is a directory"
  | readDirectory => s!"read {path}: is a directory"
  | other reason => s!"open {path}: {reason}"

/-- What is wrong with a path, whatever files there are: it is empty, has a NUL in it, or takes more
bytes than a path may. -/
def FileError.ofPath? (path : String) : Option FileError :=
  if path.toList.contains '\x00' then some .invalid
  else if path = "" then some .missing
  else if 4096 ≤ path.utf8ByteSize then some .tooLong
  else none

/-- Does a name in a path take more bytes than it may? -/
def isLongName (name : String) : Bool := 255 < name.utf8ByteSize

/-- The file system as seen from a working directory. -/
structure Files where
  cwd : String
  read : String → Except FileError (List UInt8)

def Files.isPresent (files : Files) (path : String) : Bool :=
  match files.read path with
  | .error .missing | .error .notDirectory | .error .tooLong | .error .invalid => false
  | _ => true

end FiberVm
