import FiberVm.Files.Basic

/-!
# Directory trees

A directory tree as a value: files and directories listed by their names from the root. A path is
walked name by name, and every name but the last has to be a directory.
-/

set_option autoImplicit false

namespace FiberVm

structure FileTree where
  files : List (List String × List UInt8) := []
  dirs : List (List String) := []

namespace FileTree

def file? (t : FileTree) (names : List String) : Option (List UInt8) :=
  (t.files.find? fun f => f.1 == names).map (·.2)

/-- Is this a directory? What lies above a file or directory is one. -/
def isDir (t : FileTree) (names : List String) : Bool :=
  names.isEmpty
    || t.dirs.any (fun d => names.isPrefixOf d)
    || t.files.any (fun f => names.isPrefixOf f.1 && decide (names.length < f.1.length))

/-- Walks on from a directory or file. -/
def walk (t : FileTree) (here : List String) : List String → Except FileError (List String)
  | [] => .ok here
  | name :: rest =>
    if !t.isDir here then .error .notDirectory
    else if name = "" ∨ name = "." then t.walk here rest
    else if name = ".." then t.walk here.dropLast rest
    else if isLongName name then .error .tooLong
    else
      let next := here ++ [name]
      if t.isDir next || (t.file? next).isSome then t.walk next rest else .error .missing

/-- The directory that a path starts from. -/
def start (cwd path : String) : List String :=
  if Path.isAbsolute path then [] else Path.cleanNames cwd

/-- Refuses a path that no file can have. -/
def checkPath (path : String) : Except FileError Unit :=
  match FileError.ofPath? path with
  | some e => .error e
  | none => .ok ()

def read (t : FileTree) (cwd path : String) : Except FileError (List UInt8) := do
  checkPath path
  let names ← t.walk (start cwd path) (Path.split path)
  match t.file? names with
  | some contents => return contents
  | none => throw .readDirectory

/-- Writes a file, which need not exist, into a directory that does. A path that ends with a slash
or a dot means a directory. -/
def write (t : FileTree) (cwd path : String) (contents : List UInt8) :
    Except FileError FileTree := do
  checkPath path
  let parts := Path.split path
  let names := (parts.reverse.dropWhile (· == "")).reverse
  let name := names.getLast?.getD "."
  let folder ← t.walk (start cwd path) names.dropLast
  if !t.isDir folder then throw .notDirectory
  if name = "." ∨ name = ".." ∨ names.length < parts.length then throw .directory
  if isLongName name then throw .tooLong
  let target := folder ++ [name]
  if t.isDir target then throw .directory
  let others := t.files.filter fun f => f.1 != target
  return { t with files := (target, contents) :: others }

/-- The tree as seen from a directory. -/
def view (t : FileTree) (cwd : String) : Files := { cwd := cwd, read := t.read cwd }

end FileTree

end FiberVm
