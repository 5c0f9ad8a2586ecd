import FiberVm.Machine.Run

/-!
# Breakpoints and stepping

A debugger drives a machine one instruction at a time and stops at breakpoints. Every command makes
at least one step, so going on from a breakpoint does not stop on it again.
-/

set_option autoImplicit false

namespace FiberVm

/-- Stops a run before the instruction at `pc`. -/
structure Breakpoint where
  id : Nat
  pc : Nat
  active : Bool := true
  hits : Nat := 0
deriving DecidableEq, Repr

/-- Why a command returned. -/
inductive StopReason
  | step
  | breakpoint
  | halted
deriving DecidableEq, Repr

namespace StopReason

def all : List StopReason := [step, breakpoint, halted]

def name : StopReason → String
  | step => "step"
  | breakpoint => "breakpoint"
  | halted => "halted"

/-- The name of a reason given by number, also of numbers that are none. -/
def nameOfNumber (n : UInt8) : String :=
  match all[n.toNat]? with
  | some r => r.name
  | none => s!"StopReason({n.toNat})"

end StopReason

/-- Where a command stopped. -/
inductive StopEvent
  | step
  | breakpoint (b : Breakpoint)
  | halted
deriving DecidableEq, Repr

def StopEvent.reason : StopEvent → StopReason
  | step => .step
  | breakpoint _ => .breakpoint
  | halted => .halted

/-- A machine with breakpoints, ascending by id. -/
structure Debugger where
  machine : Machine
  breakpoints : List Breakpoint := []
  nextId : Nat := 1
  /-- Keeps executed instructions in `seen`. -/
  watching : Bool := false
  /-- The instructions executed while watching, newest first. -/
  seen : List Machine.Event := []

namespace Debugger

/-- Why a breakpoint command is refused. -/
inductive Refusal
  | pcOutside (pc : Int) (size : Nat)
  | noBreakpoint (id : Int)
deriving DecidableEq, Repr

def Refusal.message : Refusal → String
  | pcOutside pc n => s!"pc {pc} outside program of {n} instructions"
  | noBreakpoint id => s!"no breakpoint {id}"

/-- Sets a breakpoint. Where there is one already, that one is enabled and returned. -/
def setBreakpoint (d : Debugger) (pc : Int) : Except Refusal (Breakpoint × Debugger) :=
  let size := d.machine.control.code.size
  if pc < 0 ∨ (size : Int) ≤ pc then .error (.pcOutside pc size)
  else match d.breakpoints.find? (fun b => b.pc == pc.toNat) with
    | some b =>
      let bs := d.breakpoints.map fun c => if c.id = b.id then { c with active := true } else c
      .ok ({ b with active := true }, { d with breakpoints := bs })
    | none =>
      let b : Breakpoint := { id := d.nextId, pc := pc.toNat }
      .ok (b, { d with breakpoints := d.breakpoints ++ [b], nextId := d.nextId + 1 })

def hasBreakpoint (d : Debugger) (id : Int) : Bool := d.breakpoints.any fun b => (b.id : Int) == id

def removeBreakpoint (d : Debugger) (id : Int) : Except Refusal Debugger :=
  if d.hasBreakpoint id then
    .ok { d with breakpoints := d.breakpoints.filter fun b => (b.id : Int) != id }
  else .error (.noBreakpoint id)

/-- Turns a breakpoint on or off. -/
def enableBreakpoint (d : Debugger) (id : Int) (active : Bool) : Except Refusal Debugger :=
  if d.hasBreakpoint id then
    .ok
      { d with
        breakpoints := d.breakpoints.map fun b =>
          if (b.id : Int) = id then { b with active := active } else b }
  else .error (.noBreakpoint id)

/-- The active breakpoint at an instruction. -/
def activeAt? (d : Debugger) (pc : Int) : Option Breakpoint :=
  d.breakpoints.find? fun b => b.active && (b.pc : Int) == pc

def hit (d : Debugger) (b : Breakpoint) : Debugger :=
  { d with
    breakpoints := d.breakpoints.map fun c =>
      if c.id = b.id then { c with hits := c.hits + 1 } else c }

/-- A command: how it ended, and the debugger afterwards. -/
abbrev Command := EStateM Machine.Error Debugger

/-- Makes one step. Gives the stop that it calls for by itself, if any. -/
def stepOnce (canceled : Bool) : Command (Option StopEvent) := fun ⟨m, bs, n, watching, seen⟩ =>
  if canceled then .error .canceled ⟨m, bs, n, watching, seen⟩
  else
    let seen := if watching then m.event?.toList ++ seen else seen
    match Machine.step canceled m with
    | .error e m => .error e ⟨m, bs, n, watching, seen⟩
    | .ok _ m =>
      let d : Debugger := ⟨m, bs, n, watching, seen⟩
      if m.halted then .ok (some .halted) d
      else match d.activeAt? m.current.pc with
        | some b => .ok (some (.breakpoint { b with hits := b.hits + 1 })) (d.hit b)
        | none => .ok none d

/-- Steps until something stops the run or `done` holds of the machine. -/
def runUntil (canceled : Bool) (done : Machine → Bool) : Nat → Command StopEvent
  | 0 => throw .endless
  | fuel + 1 => do
    match ← stepOnce canceled with
    | some e => return e
    | none =>
      if done (← get).machine then return .step else runUntil canceled done fuel

/-- Makes `n + 1` steps unless something stops the run before. -/
def stepMore (canceled : Bool) : Nat → Command StopEvent
  | 0 => return (← stepOnce canceled).getD .step
  | n + 1 => do
    match ← stepOnce canceled with
    | some e => return e
    | none => stepMore canceled n

/-- Makes `n` steps, at least one. -/
def step (canceled : Bool) (n : Int) : Command StopEvent := stepMore canceled (n - 1).toNat

/-- A bound on the steps that a command can make. -/
def fuel (d : Debugger) : Nat := d.machine.allowance + 1

def resume (canceled : Bool) : Command StopEvent := fun d =>
  runUntil canceled (fun _ => false) d.fuel d

/-- Executes the next instruction of the current fiber; a call runs until that fiber is back behind
it. Other fibers run meanwhile as scheduled. -/
def stepOver (canceled : Bool) : Command StopEvent := fun d =>
  let start := d.machine.current
  let code := d.machine.control.code
  if (code.size : Int) ≤ start.pc then step canceled 1 d
  else if start.pc < 0 then .error (.crash .outOfRange) d
  else match code[start.pc.toNat]? with
    | some (some instr) =>
      if instr.opcode = .call then
        let depth := start.frames.length
        let back (m : Machine) : Bool :=
          m.current.id == start.id && m.current.pc == start.pc + 1
            && decide (m.current.frames.length ≤ depth)
        runUntil canceled back d.fuel d
      else step canceled 1 d
    | _ => .error (.crash .missingInstr) d

/-- The number of call frames on a runtime stack. -/
def callDepth (heap : Heap) (frames : List Addr) : Nat :=
  frames.countP fun a => (heap.words.getD a.toNat 0).byte 0 == Tag.callframe.number

/-- Runs until the current fiber returns from its innermost call; outside any call, runs on. -/
def stepOut (canceled : Bool) : Command StopEvent := fun d =>
  let start := d.machine.current
  let calls := callDepth d.machine.heap start.frames
  if calls = 0 then resume canceled d
  else
    let returned (m : Machine) : Bool :=
      m.current.id == start.id && decide (callDepth m.heap m.current.frames < calls)
    runUntil canceled returned d.fuel d

end Debugger

end FiberVm
