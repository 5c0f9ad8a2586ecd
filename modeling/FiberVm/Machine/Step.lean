import FiberVm.Machine.Calls
import FiberVm.Machine.Operators

/-!
# One step

A step fetches the instruction at the program counter, executes it and lets the scheduler decide who
goes on. A fault ends the machine: it is kept, and every later step gives it again. A crash is passed
on to the host.
-/

set_option autoImplicit false

namespace FiberVm

/-- Why a command to the machine gives no result. -/
inductive Machine.Error
  /-- The program has finished. -/
  | halted
  /-- A result was asked for before the program finished. -/
  | notHalted
  /-- The host gave up between two instructions. -/
  | canceled
  | fault (f : Fault)
  /-- The result cannot be handed to the host. -/
  | result (c : Cause)
  | crash (c : Crash)
  /-- The run was cut off after as many instructions as a run can have. -/
  | endless
deriving DecidableEq, Repr

def Machine.Error.message? : Machine.Error → Option String
  | halted => some Kind.halted.text
  | notHalted => some "machine has not halted"
  | canceled => some Kind.canceled.text
  | fault f => some f.message
  | result c => some c.message
  | crash c => c.message?
  | endless => some "run does not end"

/-- The family of a machine's error, if it has one. -/
def Machine.Error.kind? : Machine.Error → Option Kind
  | halted => some .halted
  | canceled => some .canceled
  | fault f => some f.cause.kind
  | result c => some c.kind
  | notHalted | crash _ | endless => none

namespace Exec

def variableName (sym : String) (pos : Pos) : String :=
  if sym = "" then s!"[{pos.frame},{pos.slot}]" else sym

/-- The index of the instruction that ends a fiber's body. Bodies nest: `depth` counts those opened
since, and `i` is the index of the first entry of the list. -/
def scanStop (depth i : Nat) : List (Option Instr) → Except Crash (Option Nat)
  | [] => .ok none
  | none :: _ => .error .missingInstr
  | some instr :: rest =>
    if instr.opcode = .startFiber then scanStop (depth + 1) (i + 1) rest
    else if instr.opcode = .stopFiber then
      if depth = 0 then .ok (some i) else scanStop (depth - 1) (i + 1) rest
    else scanStop depth (i + 1) rest

/-- The `stopFiber` that matches the `startFiber` just before `next`. -/
def findStop (next : Nat) : Exec Int := do
  match scanStop 0 next ((← asks (·.code)).toList.drop next) with
  | .ok (some i) => return i
  | .ok none => fault (.unmatchedStart ((next : Int) - 1))
  | .error c => crash c

/-- Starts a fiber at the next instruction and goes on behind its end. -/
def startFiber (stop : Int) : Exec Unit := do
  let pc ← asksFiber (·.pc)
  let stop ← if stop = 0 then findStop pc.toNat else pure stop
  if stop < pc ∨ (← asks (fun c => (c.code.size : Int))) ≤ stop then fault (.stopOutOfRange stop)
  else
    let env ← asksFiber (·.env)
    modifySched fun s => s.spawn pc env
    jump (stop + 1)

/-- Executes an instruction. The program counter is already at the next one. -/
def instr (i : Instr) : Exec Unit := do
  match i with
  | .loadConst v => push (← allocating fun roots => Heap.box roots v)
  | .load pos sym =>
    let env ← asksFiber (·.env)
    let a ← onHeap (Heap.lookup env pos.frame pos.slot)
    if a = Heap.unassigned then fault (.unassigned (variableName sym pos)) else push a
  | .loadFunc arity entry =>
    let env ← asksFiber (·.env)
    push (← allocating fun roots => Heap.newClosure roots arity entry env)
  | .assign pos _ =>
    let v ← peek 0
    let env ← asksFiber (·.env)
    onHeap (Heap.store env pos.frame pos.slot v)
  | .binary op =>
    let y ← peek 0
    let x ← peek 1
    let r ← binary op x y
    drop 2
    push r
  | .unary op =>
    let r ← unary op (← peek 0)
    drop 1
    push r
  | .jumpOnFalse target =>
    let c ← pop
    if c = Heap.true then return ()
    else if c = Heap.false then jump target
    else fault (.notCondition (← tagOf c))
  | .goto target => jump target
  | .call arity => call arity false
  | .tailCall arity => call arity true
  | .done =>
    let top := (← asksFiber (·.operands)).head?
    modifyControl fun c => { c with result := some (top.getD Heap.unassigned) }
  | .pop =>
    let _ ← pop
  | .reset => reset
  | .nop => return ()
  | .enterScope n => enterScope n
  | .exitScope => exitScope
  | .startFiber stop => startFiber stop
  | .stopFiber => modifySched Scheduler.terminate
  | .send => send
  | .recv => recv
  | .makeWaitGroup => push (← allocating Heap.newWaitGroup)
  | .foreign _ typeName => fault (.unknownInstr typeName)

/-- Lets the scheduler decide who goes on. -/
def reschedule (canceled : Bool) : Exec Unit := fun ⟨h, c⟩ =>
  match c.sched.reschedule canceled with
  | .ok _ s => .ok () ⟨h, { c with sched := s }⟩
  | .error e s => .error (.fault e) ⟨h, { c with sched := s }⟩

/-- Executes the instruction at the program counter and switches fibers if that is due. -/
def cycle (canceled : Bool) (i : Instr) : Exec Unit := do
  modifySched fun s => { s with clock := s.clock.tick }
  modifyFiber fun f => { f with pc := f.pc + 1 }
  instr i
  if ← asks (·.result.isSome) then return () else reschedule canceled

end Exec

namespace Control

def fetch (c : Control) : Except Cause Instr :=
  let pc := c.sched.current.pc
  if pc < 0 ∨ (c.code.size : Int) ≤ pc then .error (.pcOutside pc c.code.size)
  else match c.code[pc.toNat]? with
    | some (some i) => .ok i
    | _ => .error (.noInstruction pc)

/-- Counts a step and fetches the instruction to execute, unless the limit is passed. -/
def advance (c : Control) : Control × Except Cause Instr :=
  let c := { c with steps := c.steps + 1 }
  if 0 < c.stepLimit ∧ c.stepLimit < c.steps then (c, .error (.stepLimit c.stepLimit))
  else (c, c.fetch)

end Control

namespace Machine

def fail (m : Machine) (f : Fault) : EStateM.Result Error Machine Unit :=
  .error (.fault f) (m.modifyControl fun c => { c with failed := some f })

/-- Executes one instruction of the current fiber. -/
def step (canceled : Bool) : EStateM Error Machine Unit := fun ⟨h, c⟩ =>
  match c.failed with
  | some f => .error (.fault f) ⟨h, c⟩
  | none =>
    if c.result.isSome then .error .halted ⟨h, c⟩
    else
      let fiber := c.sched.current.id
      let pc := c.sched.current.pc
      match c.advance with
      | (c, .error cause) => fail ⟨h, c⟩ ⟨cause, fiber, pc, none⟩
      | (c, .ok i) =>
        match Exec.cycle canceled i ⟨h, c⟩ with
        | .ok _ m => .ok () m
        | .error (.fault cause) m => fail m ⟨cause, fiber, pc, some i.opcode⟩
        | .error (.crash e) m => .error (.crash e) m

/-- An instruction that is about to be executed. -/
structure Event where
  fiber : Int
  pc : Int
  op : Opcode
deriving DecidableEq, Repr

/-- The instruction that the next step executes, if it executes one. -/
def event? (m : Machine) : Option Event :=
  if m.control.failed.isSome || m.halted then none
  else match m.control.advance.2 with
    | .ok i => some ⟨m.current.id, m.current.pc, i.opcode⟩
    | .error _ => none

end Machine

end FiberVm
