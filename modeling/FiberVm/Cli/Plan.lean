import FiberVm.Cli.Flags
import FiberVm.Config.File
import FiberVm.Instr.Listing
import FiberVm.Program.File

/-!
# From the command line to a machine

The arguments and the files they name decide what is to be done: print something, write a file, or
run a machine.
-/

set_option autoImplicit false

namespace FiberVm.Cli

/-- What a command prints and how it exits. -/
structure Output where
  stdout : String := ""
  stderr : String := ""
  exit : Nat := 0
deriving DecidableEq, Repr

/-- A machine that is ready to run. -/
structure Job where
  flags : Flags
  machine : Machine

inductive Plan
  | print (o : Output)
  | save (path : String) (contents : List UInt8)
  | run (job : Job)

def failed (message : String) : Output := { stderr := s!"Error: {message}\n", exit := 1 }

def misused (message : String) : Output := { stderr := message ++ usage, exit := 2 }

/-- Reads the arguments: options and one program file. -/
def arguments (args : List String) : Except Output (Flags × String) :=
  match Flags.parse {} args with
  | .error .help => .error { stderr := usage }
  | .error (.error e) => .error (misused (e.message ++ "\n"))
  | .ok (f, [path]) => .ok (f, path)
  | .ok _ => .error (misused "")

/-- The configuration with the settings of the command line. -/
def override (f : Flags) (c : Config) : Config :=
  let number (n old : Int) : Int := if n = 0 then old else n
  { c with
    words := number f.heap c.words
    quantum := number f.quantum c.quantum
    firstQuantum := number f.firstQuantum c.firstQuantum
    stepLimit := number f.stepLimit c.stepLimit
    verbosity := number f.verbosity c.verbosity
    file := if f.log = "" then c.file else f.log }

def configuration (files : Files) (f : Flags) : Except Output Config := do
  let loaded :=
    if f.config = "" then Config.findAndLoad files "." else Config.loadFile files f.config
  match loaded with
  | .error e => throw (failed e.message)
  | .ok c =>
    let c := override f c
    match c.flaw? with
    | some flaw => throw (failed flaw.message)
    | none => return c

def program (files : Files) (path : String) : Except Output (List Instr) :=
  match files.read path with
  | .error e => .error (failed (e.message path))
  | .ok bytes =>
    match Program.load (Format.ofPath path) bytes with
    | .error e => .error (failed s!"{path}: {e.message}")
    | .ok is => .ok is

/-- The contents of a program file in the format that its name asks for. Text ends with a line
break. -/
def contents (path : String) (is : List Instr) : Except Program.Error (List UInt8) := do
  let p ← Program.ofInstrs is
  match Format.ofPath path with
  | .json => return Program.encode .json p ++ [0x0A]
  | .cbor => return Program.encode .cbor p

/-- What a command line asks for, or what it prints if it is refused. -/
def planOrRefusal (files : Files) (args : List String) : Except Output Plan := do
  let (f, path) ← arguments args
  let c ← configuration files f
  let is ← program files path
  let code := Code.ofInstrs is
  if f.disasm then return .print { stdout := code.listing?.getD "" ++ "\n" }
  else if f.encode ≠ "" then
    match contents f.encode is with
    | .ok bytes => return .save f.encode bytes
    | .error e => throw (failed e.message)
  else
    match Machine.create c.words code c.options {} (.keep "" none) with
    | .error e => throw (failed e.message)
    | .ok m => return .run { flags := f, machine := m }

def plan (files : Files) (args : List String) : Plan :=
  match planOrRefusal files args with
  | .ok p => p
  | .error o => .print o

def saved (path : String) (e? : Option FileError) : Output :=
  match e? with
  | none => {}
  | some e => failed (e.message path)

/-- The files that a command line may ask to read. -/
def pathsRead (cwd : String) (args : List String) : List String :=
  match arguments args with
  | .error _ => []
  | .ok (f, path) =>
    (if f.config = "" then Config.candidates cwd "." else [f.config]) ++ [path]

end FiberVm.Cli
