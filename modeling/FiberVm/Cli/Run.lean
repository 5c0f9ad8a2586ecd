import FiberVm.Cli.Plan
import FiberVm.Console.Session
import FiberVm.Profiler
import FiberVm.Text.Lines

/-!
# Running a machine from the command line

The program prints to standard output, and so does the debugger. Everything that is told about the
run goes to standard error: each instruction, the counters and the profile, as far as they are asked
for.
-/

set_option autoImplicit false

namespace FiberVm.Cli

structure Log where
  trace : String := ""
  profiler : Profiler

namespace Job

def code (job : Job) : Code := job.machine.control.code

def profiled (job : Job) : Bool := decide (0 < job.flags.profile)

def emptyLog (job : Job) : Log :=
  { profiler := Profiler.create job.code.size Profiler.defaultThreshold }

/-- One instruction in a trace. -/
def traceLine (code : Code) (e : Machine.Event) : String :=
  let text :=
    match code[e.pc.toNat]? with
    | some (some i) => i.text
    | _ => ""
  s!"g{e.fiber} {Instr.indexText e.pc}  {text}\n"

def note (job : Job) (log : Log) (e : Machine.Event) : Log :=
  { trace := if job.flags.trace then log.trace ++ traceLine job.code e else log.trace
    profiler := if job.profiled then log.profiler.record e else log.profiler }

/-- How a run ended without a result. -/
inductive Failure
  /-- The user left the debugger. -/
  | quit
  | message (s : String)
  | crash (c : Crash)
deriving DecidableEq, Repr

def Failure.ofMachine : Machine.Error → Failure
  | .crash c => crash c
  | e => message (e.message?.getD "")

def Failure.ofConsole : Console.Error → Failure
  | .quit => quit
  | .broken reason => message reason
  | .machine e => ofMachine e

/-- The output of a job after its run. A crash has none. -/
def output (job : Job) (log : Log) (printed : String) (m : Machine)
    (outcome : Except Failure Value) : Except Crash Output := do
  let stats := if job.flags.stats then m.stats.lines else ""
  let profile ←
    if job.profiled then log.profiler.report job.code job.flags.profile else pure ""
  let told := log.trace ++ stats ++ profile
  match outcome with
  | .ok v =>
    let line := if v = .undefined then "" else v.text ++ "\n"
    return { stdout := printed ++ line, stderr := told }
  | .error .quit => return { stdout := printed, stderr := told }
  | .error (.message s) =>
    return { stdout := printed, stderr := told ++ s!"Error: {s}\n", exit := 1 }
  | .error (.crash c) => throw c

def run (job : Job) : Except Crash Output :=
  let (log, result, m) := job.machine.observe job.note false job.emptyLog
  job.output log m.control.sink.text m (result.mapError Failure.ofMachine)

/-- The debugger's console before its first line. -/
def console (job : Job) : Console :=
  { debugger := { machine := job.machine, watching := job.flags.trace || job.profiled } }

def afterSession (job : Job) (c : Console) (outcome : Except Console.Error Value) :
    Except Crash Output :=
  let log := c.debugger.seen.reverse.foldl job.note job.emptyLog
  job.output log c.out c.debugger.machine (outcome.mapError Failure.ofConsole)

/-- What a stream of bytes gives to the debugger's console, line by line. -/
def inputs (bytes : List UInt8) : List Console.Input := (Text.lines bytes).map .line

def debug (job : Job) (input : List UInt8) : Except Crash Output :=
  match Console.session false (inputs input) job.console with
  | .ok v c => job.afterSession c (.ok v)
  | .error e c => job.afterSession c (.error e)

/-- Runs the machine as the options ask for, with what the user may enter. -/
def execute (job : Job) (input : List UInt8) : Except Crash Output :=
  if job.flags.debug then job.debug input else job.run

end Job

end FiberVm.Cli
