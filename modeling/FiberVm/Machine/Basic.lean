import FiberVm.Heap.Value
import FiberVm.Machine.Scheduler

/-!
# The machine

A machine is a heap and everything else: the instruction stream, the fibers, the output and the
outcome. The second part alone says which addresses are in use, so the heap can be worked on while
the roots are still known. Instructions are operations on the machine that may fault or crash.
-/

set_option autoImplicit false

namespace FiberVm

/-- What the host asks of a machine. Zero stands for the usual value, and so does a negative
quantum; a negative step limit is none. -/
structure Options where
  quantum : Int := 0
  firstQuantum : Int := 0
  stepLimit : Int := 0
deriving DecidableEq, Repr

namespace Options

def defaultQuantum : Int := 30
def defaultFirstQuantum : Int := 100
def defaultStepLimit : Int := 10000000

/-- The options with every zero filled in. -/
def withDefaults (o : Options) : Options :=
  { quantum := if o.quantum ≤ 0 then defaultQuantum else o.quantum
    firstQuantum := if o.firstQuantum ≤ 0 then defaultFirstQuantum else o.firstQuantum
    stepLimit := if o.stepLimit = 0 then defaultStepLimit else o.stepLimit }

end Options

/-- Where printed lines go. -/
inductive Sink
  | discard
  /-- Keeps what is printed; `room` is the number of lines it still takes, if there is a limit. -/
  | keep (text : String) (room : Option Nat)
deriving DecidableEq, Repr

namespace Sink

/-- Takes a line unless the sink is full. -/
def write (s : Sink) (line : String) : Option Sink :=
  match s with
  | discard => some discard
  | keep text none => some (keep (text ++ line) none)
  | keep _ (some 0) => none
  | keep text (some (n + 1)) => some (keep (text ++ line) (some n))

def text : Sink → String
  | discard => ""
  | keep text _ => text

def clear : Sink → Sink
  | discard => discard
  | keep _ room => keep "" room

end Sink

/-- The fault that ended a run, and where it happened. There is no opcode if the instruction could
not be fetched. -/
structure Fault where
  cause : Cause
  fiber : Nat
  pc : Int
  op : Option Opcode
deriving DecidableEq, Repr

def Fault.message (f : Fault) : String :=
  match f.op with
  | some op => s!"goroutine {f.fiber}, pc {f.pc} ({op.name}): {f.cause.message}"
  | none => s!"goroutine {f.fiber}, pc {f.pc}: {f.cause.message}"

/-- The orders in which collections visit the fibers. -/
structure Enumeration where
  /-- The fibers as visited after so many steps and collections. -/
  arrange : (steps : Nat) → (collections : UInt64) → List Fiber → List Fiber := fun _ _ fibers => fibers
  perm : ∀ steps collections fibers, (arrange steps collections fibers).Perm fibers := by exact fun _ _ _ => .rfl

/-- A machine without its heap. -/
structure Control where
  code : Code
  stepLimit : Int
  sched : Scheduler
  sink : Sink
  steps : Nat := 0
  /-- The address left by the last instruction of a finished run. -/
  result : Option Addr := none
  failed : Option Fault := none
  order : Enumeration := {}

namespace Control

/-- Every address the machine still refers to. -/
def roots (c : Control) : List Addr := c.sched.roots ++ c.result.toList

/-- The machine's addresses as visited by a collection that `n` others came before. -/
def visit (c : Control) (n : UInt64) : List Addr :=
  (c.order.arrange c.steps n c.sched.live).flatMap Fiber.roots ++ c.result.toList

theorem visit_perm (c : Control) (n : UInt64) : (c.visit n).Perm c.roots :=
  ((c.order.perm c.steps n c.sched.live).flatMap_right Fiber.roots).append_right _

/-- The machine's addresses as the roots of an allocation. -/
def heapRoots (c : Control) : Heap.Roots := ⟨Thunk.mk fun _ => c.roots, c.visit, c.visit_perm⟩

end Control

/-- Executes an instruction stream. -/
structure Machine where
  heap : Heap
  control : Control

/-- A part of an instruction. -/
abbrev Exec := EStateM Failure Machine

namespace Machine

/-- A machine at the first instruction of `code`. -/
def create (heapWords : Int) (code : Code) (options : Options) (clock : Clock := {})
    (sink : Sink := .discard) (order : Enumeration := {}) : Except Heap.SizeError Machine :=
  match Heap.create heapWords with
  | .error e => .error e
  | .ok heap =>
    let o := options.withDefaults
    .ok
      { heap := heap
        control :=
          { code := code
            stepLimit := o.stepLimit
            sched := Scheduler.create o.quantum o.firstQuantum Heap.globalEnv clock
            sink := sink
            order := order } }

def halted (m : Machine) : Bool := m.control.result.isSome

/-- The current fiber with its live registers. -/
def current (m : Machine) : Fiber := m.control.sched.current

/-- All live fibers, ascending by id. -/
def fibers (m : Machine) : List Fiber := m.control.sched.live

structure Stats where
  steps : Nat
  fibers : Nat
  switches : Nat
  heap : Heap.Stats
deriving DecidableEq, Repr

def stats (m : Machine) : Stats :=
  { steps := m.control.steps
    fibers := m.control.sched.nextId
    switches := m.control.sched.switches
    heap := m.heap.stats }

/-- Replaces the machine without its heap. -/
def modifyControl (f : Control → Control) (m : Machine) : Machine :=
  { m with control := f m.control }

end Machine

namespace Exec

/-- An operation on the heap that does not allocate. -/
def onHeap {α : Type} (op : HeapM α) : Exec α := fun ⟨h, c⟩ =>
  match op h with
  | .ok a h => .ok a ⟨h, c⟩
  | .error e h => .error e ⟨h, c⟩

/-- An operation on the heap that may collect, with the machine's addresses as roots. -/
def allocating {α : Type} (op : Heap.Roots → HeapM α) : Exec α := fun ⟨h, c⟩ =>
  match op c.heapRoots h with
  | .ok a h => .ok a ⟨h, c⟩
  | .error e h => .error e ⟨h, c⟩

/-- Keeps `as` alive while `body` runs, however it ends. -/
def withPins {α : Type} (as : List Addr) (body : Exec α) : Exec α := fun ⟨h, c⟩ =>
  let mark := h.pinned.length
  match body ⟨{ h with pinned := h.pinned ++ as }, c⟩ with
  | .ok a ⟨h, c⟩ => .ok a ⟨h.release mark, c⟩
  | .error e ⟨h, c⟩ => .error e ⟨h.release mark, c⟩

/-- Something about the machine other than its heap. -/
def asks {α : Type} (f : Control → α) : Exec α := fun m => .ok (f m.control) m

def modifyControl (f : Control → Control) : Exec Unit := fun m => .ok () (m.modifyControl f)

def modifySched (f : Scheduler → Scheduler) : Exec Unit :=
  modifyControl fun c => { c with sched := f c.sched }

def modifyFiber (f : Fiber → Fiber) : Exec Unit :=
  modifySched fun s => { s with current := f s.current }

def asksFiber {α : Type} (f : Fiber → α) : Exec α := asks fun c => f c.sched.current

def jump (pc : Int) : Exec Unit := modifyFiber fun f => { f with pc := pc }

def setEnv (env : Addr) : Exec Unit := modifyFiber fun f => { f with env := env }

def push (a : Addr) : Exec Unit := modifySched fun s => s.push a

/-- The operand `n` entries below the top. -/
def peek (n : Nat) : Exec Addr := do
  match (← asksFiber (·.operands))[n]? with
  | some a => return a
  | none => fault .operandUnderflow

def drop (n : Nat) : Exec Unit := do
  if (← asksFiber (·.operands.length)) < n then fault .operandUnderflow
  else modifyFiber fun f => f.drop n

def pop : Exec Addr := do
  let a ← peek 0
  drop 1
  return a

def pushFrame (a : Addr) : Exec Unit := modifyFiber fun f => { f with frames := a :: f.frames }

/-- Takes the top of the runtime stack. -/
def popFrame : Exec Addr := do
  match ← asksFiber (·.frames) with
  | [] => fault .runtimeUnderflow
  | a :: rest =>
    modifyFiber fun f => { f with frames := rest }
    return a

def tagOf (a : Addr) : Exec Tag := onHeap (Heap.tagOf a)

/-- Refuses a node of another tag than the one expected. -/
def expectTag (a : Addr) (want : Tag) (what : String) : Exec Unit := do
  let got ← tagOf a
  if got = want then return () else fault (.expectedTag what want got)

/-- Makes a fiber ready, first handing it a value unless that is `noAddr`. -/
def wake (id : Int) (v : Addr) : Exec Unit := do
  if 0 ≤ id ∧ (← asks (·.sched.isLive id.toNat)) then
    modifySched fun s =>
      (if v = noAddr then s else s.deliver id.toNat v).wake id.toNat
  else fault (.unknownFiber id)

def park : Exec Unit := modifySched Scheduler.park

end Exec

end FiberVm
