import FiberVm.Cli.Run

/-!
# The command line

Reads the files that the arguments name, carries out the plan, and prints what it gives.
-/

set_option autoImplicit false

namespace FiberVm.Cli

def fileError : IO.Error → FileError
  | .noFileOrDirectory .. => .missing
  | .inappropriateType .. => .readDirectory
  -- The code 36 tells that a name is too long.
  | .invalidArgument _ 36 _ => .tooLong
  | .invalidArgument .. => .invalid
  | e => .other (toString e)

def readFile (path : String) : IO (Except FileError (List UInt8)) := do
  if let some e := FileError.ofPath? path then return .error e
  try
    let bytes ← IO.FS.readBinFile path
    return .ok bytes.data.toList
  catch e => return .error (fileError e)

/-- Reads the files that may be needed. -/
def snapshot (cwd : String) (paths : List String) : IO Files := do
  let found ← paths.mapM fun path => return (path, ← readFile path)
  let read (path : String) : Except FileError (List UInt8) :=
    match found.find? fun row => row.1 == path with
    | some row => row.2
    | none => .error .missing
  return { cwd := cwd, read := read }

def writeFile (path : String) (contents : List UInt8) : IO (Option FileError) := do
  if let some e := FileError.ofPath? path then return some e
  try
    IO.FS.writeBinFile path (contents.toByteArray)
    return none
  catch e => return some (fileError e)

def present (o : Output) : IO UInt32 := do
  let stdout ← IO.getStdout
  let stderr ← IO.getStderr
  stdout.putStr o.stdout
  stdout.flush
  stderr.putStr o.stderr
  return o.exit.toUInt32

/-- Prints what the session has written. -/
def flushConsole (c : Console) : IO Console := do
  let stdout ← IO.getStdout
  stdout.putStr c.out
  stdout.flush
  return { c with out := "" }

/-- The next line from the terminal, in the pieces that the console takes. -/
def readInputs : IO (List Console.Input) := do
  let line ← (← IO.getStdin).getLine
  return if line = "" then [.leave] else Job.inputs (Text.utf8 line)

/-- Feeds inputs to the session and reads more of them until it ends. -/
partial def converse (c : Console) (pending : List Console.Input) :
    IO (Console × Except Console.Error Value) := do
  let c ← flushConsole c
  IO.print "(gvm) "
  (← IO.getStdout).flush
  match ← (if pending.isEmpty then readInputs else pure pending) with
  | [] => converse c []
  | input :: rest =>
    match Console.feed false input c with
    | .ok none c => converse c rest
    | .ok (some v) c => return (c, .ok v)
    | .error e c => return (c, .error e)

/-- Runs a job under the debugger at the terminal. -/
def interact (job : Job) : IO (Except Crash Output) := do
  match Console.greet job.console with
  | .error e c => return job.afterSession c (.error e)
  | .ok _ c =>
    let (c, outcome) ← converse c []
    return job.afterSession c outcome

def command (args : List String) : IO UInt32 := do
  let cwd := toString (← IO.currentDir)
  let files ← snapshot cwd (pathsRead cwd args)
  match plan files args with
  | .print o => present o
  | .save path contents => present (saved path (← writeFile path contents))
  | .run job =>
    let result ← if job.flags.debug then interact job else pure job.run
    match result with
    | .ok o => present o
    | .error c => present { stderr := (c.message?.getD "crash") ++ "\n", exit := 2 }

end FiberVm.Cli

def main (args : List String) : IO UInt32 := FiberVm.Cli.command args
