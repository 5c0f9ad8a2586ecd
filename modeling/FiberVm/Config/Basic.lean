import FiberVm.Heap.Basic
import FiberVm.Machine.Basic
import FiberVm.Files.Path

/-!
# Configurations

How much memory a machine gets, how its time is sliced, and what is logged where.
-/

set_option autoImplicit false

namespace FiberVm

/-- The settings of a machine and its log. -/
structure Config where
  words : Int := 65536
  quantum : Int := 30
  firstQuantum : Int := 100
  /-- The most instructions of a run; -1 stands for no limit. -/
  stepLimit : Int := 10000000
  verbosity : Int := 0
  /-- The log as the user names it; empty for none. -/
  file : String := ""
  /-- The file that the settings come from; empty if they come from none. -/
  path : String := ""
deriving DecidableEq, Repr

namespace Config

inductive Flaw
  | wordsNotMultiple (n : Int)
  | wordsTooMany (n : Int)
  | quantum (n : Int)
  | firstQuantum (n : Int)
  | stepLimit (n : Int)
deriving DecidableEq, Repr

def Flaw.message : Flaw → String
  | wordsNotMultiple n => s!"heap.words = {n}: must be a positive multiple of 16"
  | wordsTooMany n => s!"heap.words = {n}: exceeds the 32-bit address limit"
  | quantum n => s!"scheduler.quantum = {n}: must be positive"
  | firstQuantum n => s!"scheduler.first-goroutine-quantum = {n}: must be positive"
  | stepLimit n => s!"scheduler.step-limit = {n}: must be positive, or -1 for no limit"

def flaw? (c : Config) : Option Flaw :=
  if c.words ≤ 0 ∨ c.words % Heap.nodeSize ≠ 0 then some (.wordsNotMultiple c.words)
  else if (Heap.maxWords : Int) < c.words then some (.wordsTooMany c.words)
  else if c.quantum ≤ 0 then some (.quantum c.quantum)
  else if c.firstQuantum ≤ 0 then some (.firstQuantum c.firstQuantum)
  else if c.stepLimit = 0 ∨ c.stepLimit < -1 then some (.stepLimit c.stepLimit)
  else none

def validate (c : Config) : Except Flaw Unit :=
  match c.flaw? with
  | some f => .error f
  | none => .ok ()

def options (c : Config) : Options :=
  { quantum := c.quantum, firstQuantum := c.firstQuantum, stepLimit := c.stepLimit }

/-- Where the log goes, if it does not go to standard error. A relative name is meant from the
directory of the file that the settings come from. -/
def logFile? (c : Config) : Option String :=
  if c.file = "" then none
  else if c.path ≠ "" ∧ !Path.isAbsolute c.file then some (Path.join (Path.dir c.path) c.file)
  else some c.file

end Config

end FiberVm
