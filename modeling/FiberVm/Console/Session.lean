import FiberVm.Console.Command
import FiberVm.Debugger
import FiberVm.Instr.Listing
import FiberVm.Machine.Inspect
import FiberVm.Text.Words

/-!
# Sessions at the debugger's console

A session reads lines, executes commands and writes what they show. What the program prints goes to
the same place, in the order of events. The session ends when the program halts or fails, when the
user leaves, or when no more lines can be read.
-/

set_option autoImplicit false

namespace FiberVm

/-- The counters of a run, one per line. -/
def Machine.Stats.lines (s : Machine.Stats) : String :=
  s!"steps:       {s.steps}\n" ++
  s!"goroutines:  {s.fibers}\n" ++
  s!"switches:    {s.switches}\n" ++
  s!"heap nodes:  {s.heap.nodes} ({s.heap.freeNodes} free)\n" ++
  s!"allocations: {s.heap.allocations.toNat}\n" ++
  s!"collections: {s.heap.collections.toNat} ({s.heap.freed.toNat} nodes freed)\n"

structure Console where
  debugger : Debugger
  /-- The previous line, which an empty one repeats. -/
  last : List UInt8 := []
  /-- What has been written and not yet taken away. -/
  out : String := ""
  /-- The lines worth remembering, newest first. -/
  history : List String := []

namespace Console

inductive Input
  | line (bytes : List UInt8)
  /-- There are no more lines, or the user does not want to enter any. -/
  | leave
  | broken (reason : String)
deriving DecidableEq, Repr

/-- Why a session ends without a result. -/
inductive Error
  | quit
  | broken (reason : String)
  | machine (e : Machine.Error)
deriving DecidableEq, Repr

def Error.message? : Error → Option String
  | quit => some "debugger quit"
  | broken reason => some reason
  | machine e => e.message?

abbrev Action := EStateM Error Console

def write (s : String) : Action Unit := modify fun c => { c with out := c.out ++ s }

def writeLine (s : String) : Action Unit := write (s ++ "\n")

def machine : Action Machine := return (← get).debugger.machine

/-- Raises a failure of the machine. -/
def raise {α : Type} : Failure → Action α
  | .fault c => throw (.machine (.result c))
  | .crash c => throw (.machine (.crash c))

def ofLook {α : Type} (r : Except Failure α) : Action α :=
  match r with
  | .ok a => return a
  | .error e => raise e

def instrText (code : Code) (index : Int) : Action String :=
  match code[index.toNat]? with
  | some (some i) => return i.text
  | _ => raise (.crash .missingInstr)

/-- Writes the instruction that the current fiber executes next. -/
def showPlace : Action Unit := do
  let m ← machine
  let f := m.current
  let code := m.control.code
  let place := s!"g{f.id} {Instr.indexText f.pc}  "
  if f.pc < 0 ∨ (code.size : Int) ≤ f.pc then writeLine (place ++ "<end of program>")
  else writeLine (place ++ (← instrText code f.pc))

/-- Writes `count` instructions around the next one. The end of the range is a 64-bit number. -/
def showListing (count : Int) : Action Unit := do
  let m ← machine
  let pc := m.current.pc
  let code := m.control.code
  let first := max (pc - count / 2) 0
  let last := min (Int64.ofInt (first + count)).toInt code.size
  (List.range (last - first).toNat).forM fun (k : Nat) => do
    let i := first + k
    let mark := if i = pc then "=>" else "  "
    let text ← instrText code i
    writeLine s!"{mark} {Instr.indexText i}  {text}"

/-- Takes over what the program has printed. -/
def drain : Action Unit := modify fun c =>
  let d := c.debugger
  let printed := d.machine.control.sink.text
  let quiet := d.machine.modifyControl fun k => { k with sink := k.sink.clear }
  { c with out := c.out ++ printed, debugger := { d with machine := quiet } }

def command (run : Debugger.Command StopEvent) : Action StopEvent := do
  let c ← get
  match run c.debugger with
  | .ok e d =>
    set { c with debugger := d }
    drain
    return e
  | .error e d =>
    set { c with debugger := d }
    drain
    throw (.machine e)

def Movement.command (canceled : Bool) : Movement → Debugger.Command StopEvent
  | step count => Debugger.step canceled count
  | next => Debugger.stepOver canceled
  | finish => Debugger.stepOut canceled
  | resume => Debugger.resume canceled

/-- Goes on with the program. Gives its result if it halts. -/
def move (canceled : Bool) (mv : Movement) : Action (Option Value) := do
  match ← command (mv.command canceled) with
  | .halted =>
    let m ← machine
    match m.result with
    | .error e => throw (.machine e)
    | .ok v =>
      writeLine s!"halted after {m.control.steps} steps"
      return some v
  | .breakpoint b =>
    writeLine s!"breakpoint {b.id} hit"
    showPlace
    return none
  | .step =>
    showPlace
    return none

def breakpointLine (b : Breakpoint) : String :=
  let state := if b.active then "enabled" else "disabled"
  s!"{b.id}  {Instr.indexText b.pc}  {state}  hits={b.hits}"

/-- Replaces the debugger, or writes why that is refused. -/
def update (r : Except Debugger.Refusal Debugger) : Action Unit :=
  match r with
  | .ok d => modify fun c => { c with debugger := d }
  | .error e => writeLine e.message

def collect : Action Unit := do
  let c ← get
  let m := c.debugger.machine
  match Heap.collect (m.control.visit m.heap.stats.collections) m.heap with
  | .ok free h =>
    set { c with debugger := { c.debugger with machine := { m with heap := h } } }
    writeLine s!"{free} of {h.stats.nodes} nodes free"
  | .error e h =>
    set { c with debugger := { c.debugger with machine := { m with heap := h } } }
    raise e

/-- Executes a command. Gives the program's result if it halts. -/
def execute (canceled : Bool) (cmd : Command) : Action (Option Value) := do
  let d := (← get).debugger
  let m := d.machine
  match cmd with
  | .move mv => return ← move canceled mv
  | .setBreakpoint pc =>
    match d.setBreakpoint pc with
    | .error e => writeLine e.message
    | .ok (b, d) =>
      modify fun c => { c with debugger := d }
      writeLine s!"breakpoint {b.id} at {Instr.indexText b.pc}"
  | .deleteBreakpoint id => update (d.removeBreakpoint id)
  | .enableBreakpoint id active => update (d.enableBreakpoint id active)
  | .breakpoints =>
    if d.breakpoints.isEmpty then writeLine "no breakpoints"
    d.breakpoints.forM fun b => writeLine (breakpointLine b)
  | .registers => writeLine m.current.registers
  | .stack =>
    writeLine "operands:"
    write (← ofLook (m.operandLines m.current.operands))
    writeLine "frames:"
    write (← ofLook (m.frameLines m.current.frames))
  | .fibers => m.fibers.forM fun f => writeLine f.registers
  | .list count => showListing count
  | .node a => writeLine (← ofLook (m.inspect (Heap.describe a)))
  | .collect => collect
  | .stats => write m.stats.lines
  | .help => write helpText
  | .quit => throw .quit
  return none

/-- The line to execute: an empty one stands for the previous one, and others are remembered. -/
def remembered (line : List UInt8) : Action (List UInt8) := do
  let line := Text.trimUtf8 line
  if line.isEmpty then return (← get).last
  else
    modify fun c => { c with last := line, history := Text.ofUtf8 line :: c.history }
    return line

/-- Takes one input. Gives the program's result if it halts. -/
def feed (canceled : Bool) (input : Input) : Action (Option Value) := do
  match input with
  | .leave => throw .quit
  | .broken reason => throw (.broken reason)
  | .line bytes =>
    match Text.words (← remembered bytes) with
    | [] => return none
    | word :: args =>
      match Command.parse word args with
      | .ok cmd => execute canceled cmd
      | .error e =>
        writeLine e.message
        return none

def greet : Action Unit := do
  let m ← machine
  writeLine s!"gvm debugger, {m.control.code.size} instructions. Type help for commands."
  showPlace

/-- Takes inputs until the session ends; after the last one there are no more lines. -/
def feedAll (canceled : Bool) : List Input → Action Value
  | [] => throw .quit
  | input :: rest => do
    match ← feed canceled input with
    | some v => return v
    | none => feedAll canceled rest

def session (canceled : Bool) (inputs : List Input) : Action Value := do
  greet
  feedAll canceled inputs

end Console

def Value.text : Value → String
  | nil => "nil"
  | undefined => "undefined"
  | bool b => toString b
  | int n => toString n.toInt
  | ref a => refText a

end FiberVm
