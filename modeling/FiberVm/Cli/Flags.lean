import FiberVm.Text.Integer
import FiberVm.Text.Quoted

/-!
# Options of the command line

Options stand in front of the other arguments. One or two dashes introduce a name; a value follows
behind an equals sign or as the next argument. A switch needs no value, and takes one only behind an
equals sign. Two dashes alone end the options.
-/

set_option autoImplicit false

namespace FiberVm.Cli

/-- What the options of a command line ask for. Zero and empty settings leave the configuration as
it is. -/
structure Flags where
  config : String := ""
  heap : Int := 0
  quantum : Int := 0
  firstQuantum : Int := 0
  stepLimit : Int := 0
  verbosity : Int := 0
  log : String := ""
  disasm : Bool := false
  trace : Bool := false
  stats : Bool := false
  profile : Int := 0
  debug : Bool := false
  encode : String := ""
deriving DecidableEq, Repr

/-- How an option takes its value. -/
inductive Setter
  | text (set : String → Flags → Flags)
  | integer (set : Int → Flags → Flags)
  | switch (set : Bool → Flags → Flags)

structure Flag where
  name : String
  setter : Setter
  description : String

/-- The options in the order of their names. -/
def flags : List Flag :=
  [⟨"config", .text fun s f => { f with config := s },
      "Path to gvm.toml (default: search upward from the current directory)"⟩,
    ⟨"debug", .switch fun b f => { f with debug := b }, "Run under the interactive debugger"⟩,
    ⟨"disasm", .switch fun b f => { f with disasm := b },
      "Print the disassembled program and exit"⟩,
    ⟨"encode", .text fun s f => { f with encode := s },
      "Write the program to this file (.json or .gvmc) and exit"⟩,
    ⟨"first-quantum", .integer fun n f => { f with firstQuantum := n },
      "First time slice of goroutine 1"⟩,
    ⟨"heap", .integer fun n f => { f with heap := n }, "Heap size in words (multiple of 16)"⟩,
    ⟨"log", .text fun s f => { f with log := s }, "Write logs to this file instead of stderr"⟩,
    ⟨"profile", .integer fun n f => { f with profile := n },
      "Print the n most executed instructions to stderr"⟩,
    ⟨"quantum", .integer fun n f => { f with quantum := n }, "Instructions per time slice"⟩,
    ⟨"stats", .switch fun b f => { f with stats := b }, "Print run statistics to stderr"⟩,
    ⟨"step-limit", .integer fun n f => { f with stepLimit := n },
      "Abort after this many instructions (-1 for no limit)"⟩,
    ⟨"trace", .switch fun b f => { f with trace := b },
      "Print every instruction to stderr as it executes"⟩,
    ⟨"v", .integer fun n f => { f with verbosity := n }, "Log verbosity (1 info, 2 debug)"⟩]

def Flag.usage (f : Flag) : String :=
  let kind :=
    match f.setter with
    | .text _ => " string"
    | .integer _ => " int"
    | .switch _ => ""
  s!"  -{f.name}{kind}\n    \t{f.description}\n"

def usage : String :=
  "Usage: gvm [options] program.json|program.gvmc\n\n" ++
  "Options:\n" ++
  String.join (flags.map Flag.usage) ++
  "\nExamples:\n" ++
  "  gvm prog.json                  # Run a program\n" ++
  "  gvm -disasm prog.gvmc          # Print the instruction listing\n" ++
  "  gvm -encode prog.gvmc prog.json  # Convert JSON to CBOR\n" ++
  "  gvm -quantum 5 -trace prog.json  # Trace a run with short slices\n" ++
  "  gvm -debug prog.json           # Step through a run\n" ++
  "  gvm -profile 10 prog.json      # Show the hottest instructions\n"

inductive FlagError
  | badForm (arg : String)
  | undefined (name : String)
  | needsValue (name : String)
  | badSwitch (value name : String)
  | badInteger (value name : String) (e : Text.IntegerError)
deriving DecidableEq, Repr

def FlagError.message : FlagError → String
  | badForm arg => s!"bad flag syntax: {arg}"
  | undefined name => s!"flag provided but not defined: -{name}"
  | needsValue name => s!"flag needs an argument: -{name}"
  | badSwitch value name => s!"invalid boolean value {Text.quoted value} for -{name}: parse error"
  | badInteger value name .malformed =>
    s!"invalid value {Text.quoted value} for flag -{name}: parse error"
  | badInteger value name .outOfRange =>
    s!"invalid value {Text.quoted value} for flag -{name}: value out of range"

inductive Refusal
  /-- The overview was asked for. -/
  | help
  | error (e : FlagError)
deriving DecidableEq, Repr

/-- The truth values of a switch. -/
def switchValue? (s : String) : Option Bool :=
  if ["1", "t", "T", "TRUE", "true", "True"].contains s then some true
  else if ["0", "f", "F", "FALSE", "false", "False"].contains s then some false
  else none

/-- Cuts a name and its value apart at the first equals sign, which is not the first character. -/
def splitValue (cs : List Char) : String × Option String :=
  let tail := cs.drop 1
  let name := String.ofList (cs.take 1 ++ tail.takeWhile (· != '='))
  match tail.dropWhile (· != '=') with
  | '=' :: value => (name, some (String.ofList value))
  | _ => (name, none)

/-- An argument in front of the program. -/
inductive Argument
  /-- No option; the options end in front of it. -/
  | operand
  /-- The end of the options. -/
  | terminator
  | flag (name : String) (value? : Option String)
  | badForm
deriving DecidableEq, Repr

def Argument.of (arg : String) : Argument :=
  let named (cs : List Char) : Argument :=
    match cs with
    | [] => badForm
    | c :: _ =>
      if c = '-' ∨ c = '=' then badForm else let (name, value?) := splitValue cs; flag name value?
  match arg.toList with
  | ['-', '-'] => terminator
  | '-' :: '-' :: cs => named cs
  | '-' :: c :: cs => named (c :: cs)
  | _ => operand

def Flag.set (flag : Flag) (value : String) (f : Flags) : Except FlagError Flags :=
  match flag.setter with
  | .text set => .ok (set value f)
  | .integer set =>
    match Text.anyBase value.toList with
    | .ok n => .ok (set n f)
    | .error e => .error (.badInteger value flag.name e)
  | .switch set =>
    match switchValue? value with
    | some b => .ok (set b f)
    | none => .error (.badSwitch value flag.name)

/-- Does the option go without a value? -/
def Flag.isSwitch (flag : Flag) : Bool :=
  match flag.setter with
  | .switch _ => true
  | _ => false

def flag? (name : String) : Except Refusal Flag :=
  match flags.find? fun f => f.name == name with
  | some f => .ok f
  | none =>
    if name = "help" ∨ name = "h" then .error .help else .error (.error (.undefined name))

/-- Reads the options; gives the arguments behind them too. -/
def Flags.parse (f : Flags) : List String → Except Refusal (Flags × List String)
  | [] => .ok (f, [])
  | arg :: rest =>
    match Argument.of arg with
    | .operand => .ok (f, arg :: rest)
    | .terminator => .ok (f, rest)
    | .badForm => .error (.error (.badForm arg))
    | .flag name value? =>
      match flag? name with
      | .error e => .error e
      | .ok flag =>
        match value?, flag.isSwitch, rest with
        | some value, _, rest =>
          match flag.set value f with
          | .ok f => f.parse rest
          | .error e => .error (.error e)
        | none, true, rest =>
          match flag.set "true" f with
          | .ok f => f.parse rest
          | .error e => .error (.error e)
        | none, false, [] => .error (.error (.needsValue name))
        | none, false, value :: rest =>
          match flag.set value f with
          | .ok f => f.parse rest
          | .error e => .error (.error e)

end FiberVm.Cli
