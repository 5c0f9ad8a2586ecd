/-!
# Paths

Paths are texts with slashes between names. Cleaning a path removes empty names, single dots and, as
far as possible, names followed by two dots, without asking what exists.
-/

set_option autoImplicit false

namespace FiberVm.Path

/-- Cuts at every slash; the name being read is given in reverse. -/
def splitFrom (name : List Char) : List Char → List String
  | [] => [String.ofList name.reverse]
  | c :: cs =>
    if c = '/' then String.ofList name.reverse :: splitFrom [] cs else splitFrom (c :: name) cs

/-- The names between the slashes of a path, also empty ones. -/
def split (path : String) : List String := splitFrom [] path.toList

def isAbsolute (path : String) : Bool := path.toList.head? == some '/'

/-- Adds a name to a cleaned list of names, given in reverse. -/
def addName (rooted : Bool) (names : List String) (name : String) : List String :=
  if name = "" ∨ name = "." then names
  else if name = ".." then
    match names with
    | [] => if rooted then [] else [".."]
    | n :: rest => if n = ".." then ".." :: n :: rest else rest
  else name :: names

def cleanNames (path : String) : List String :=
  ((split path).foldl (addName (isAbsolute path)) []).reverse

def ofNames (rooted : Bool) (names : List String) : String :=
  let body := "/".intercalate names
  if rooted then "/" ++ body else if names.isEmpty then "." else body

/-- The shortest path that means the same. -/
def clean (path : String) : String := ofNames (isAbsolute path) (cleanNames path)

/-- The cleaned path of a name inside a directory; an empty part does not count. -/
def join (dir name : String) : String :=
  match (dir == ""), (name == "") with
  | true, true => ""
  | true, false => clean name
  | false, true => clean dir
  | false, false => clean (dir ++ "/" ++ name)

/-- The directory that a path is in. -/
def dir (path : String) : String :=
  let upToSlash := (path.toList.reverse.dropWhile (· != '/')).reverse
  clean (String.ofList upToSlash)

def absolute (cwd path : String) : String := if isAbsolute path then clean path else join cwd path

/-- A list of names and all its beginnings, longest first. -/
def beginnings (names : List String) : List (List String) :=
  (List.range (names.length + 1)).reverse.map fun n => names.take n

/-- A directory, given from the root, and all directories above it, nearest first. -/
def withAncestors (path : String) : List String :=
  (beginnings (cleanNames path)).map (ofNames true)

end FiberVm.Path
