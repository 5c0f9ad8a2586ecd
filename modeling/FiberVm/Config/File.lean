import FiberVm.Config.Basic
import FiberVm.Files.Basic
import FiberVm.Text.Fold
import FiberVm.Toml.Document

/-!
# Configuration files

A configuration file is a TOML document with the tables `heap`, `scheduler` and `log`. Settings that
it leaves out keep their defaults, and keys that mean nothing are an error. Names of settings are
found in any case.
-/

set_option autoImplicit false

namespace FiberVm.Config

open Toml (Entries Key Node)

def fileName : String := "gvm.toml"

inductive Error
  | unreadable (path : String) (e : FileError)
  | malformed (path : String)
  | unknownKeys (path : String) (keys : List Key)
  | invalid (path : String) (flaw : Flaw)
deriving DecidableEq, Repr

def Error.message : Error → String
  | unreadable path e => s!"cannot read {path}: {e.message path}"
  | malformed path => s!"parse error in {path}"
  | unknownKeys path keys => s!"{path}: unknown keys: " ++ ", ".intercalate (keys.map Key.text)
  | invalid path flaw => s!"{path}: {flaw.message}"

/-- Changes one setting; there is no result if the value has the wrong type. -/
abbrev Setter := Node → Config → Option Config

def integer (set : Int → Config → Config) : Setter
  | .integer n, c => some (set n c)
  | _, _ => none

def text (set : String → Config → Config) : Setter
  | .text s, c => some (set s c)
  | _, _ => none

def settings : List (String × List (String × Setter)) :=
  [("heap", [("words", integer fun n c => { c with words := n })]),
    ("scheduler",
      [("quantum", integer fun n c => { c with quantum := n }),
        ("first-goroutine-quantum", integer fun n c => { c with firstQuantum := n }),
        ("step-limit", integer fun n c => { c with stepLimit := n })]),
    ("log",
      [("verbosity", integer fun n c => { c with verbosity := n }),
        ("file", text fun s c => { c with file := s })])]

/-- What a name stands for, in any case. -/
def find? {α : Type} (rows : List (String × α)) (name : String) : Option α :=
  (rows.find? fun row => Text.equalFold row.1 name).map (·.2)

def applyTable (setters : List (String × Setter)) (entries : Entries) (c : Config) :
    Option Config :=
  entries.foldlM (fun c (name, x) =>
    match find? setters name with
    | some set => set x c
    | none => some c) c

def apply (root : Entries) (c : Config) : Option Config :=
  root.foldlM (fun c (name, x) =>
    match find? settings name, x with
    | none, _ => some c
    | some setters, .table entries => applyTable setters entries c
    | some _, _ => none) c

/-- Does the key lead to a table of settings or to a setting? -/
def isKnown (root : Entries) : Key → Bool
  | [table] => (find? settings table).isSome && (root.lookup table).isSome
  | [table, name] =>
    match find? settings table, root.lookup table with
    | some setters, some (.table entries) =>
      (find? setters name).isSome && (entries.lookup name).isSome
    | _, _ => false
  | _ => false

def loadFile (files : Files) (path : String) : Except Error Config := do
  let bytes ←
    match files.read path with
    | .ok bytes => pure bytes
    | .error e => throw (.unreadable path e)
  let document ←
    match Toml.Document.parse? bytes with
    | some d => pure d
    | none => throw (.malformed path)
  let c ←
    match apply document.root {} with
    | some c => pure c
    | none => throw (.malformed path)
  let unknown := document.keys.filter fun k => !isKnown document.root k
  if !unknown.isEmpty then throw (.unknownKeys path unknown)
  let c := { c with path := Path.absolute files.cwd path }
  match c.flaw? with
  | some flaw => throw (.invalid path flaw)
  | none => return c

def load (files : Files) (dir : String) : Except Error Config :=
  loadFile files (Path.join dir fileName)

/-- The places where a configuration file is looked for, nearest first. -/
def candidates (cwd start : String) : List String :=
  (Path.withAncestors (Path.absolute cwd start)).map fun dir => Path.join dir fileName

/-- Reads the nearest configuration file in a directory or above it; without one, the defaults
hold. -/
def findAndLoad (files : Files) (start : String) : Except Error Config :=
  match (candidates files.cwd start).find? files.isPresent with
  | some path => loadFile files path
  | none => .ok {}

end FiberVm.Config
