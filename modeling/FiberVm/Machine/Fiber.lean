import FiberVm.Word
import FiberVm.Machine.Storage
import FiberVm.Text.Pad

/-!
# Fibers

A fiber is one logical thread: a program counter, an environment, an operand stack and a runtime
stack of call and block frames. Both stacks have their top at the head of the list.
-/

set_option autoImplicit false

namespace FiberVm

/-- A fiber's position in the scheduling state machine. -/
inductive FiberState
  | ready
  | running
  | blocked
  | terminated
deriving DecidableEq, Repr

namespace FiberState

def all : List FiberState := [ready, running, blocked, terminated]

def name : FiberState → String
  | ready => "ready"
  | running => "running"
  | blocked => "blocked"
  | terminated => "terminated"

/-- The name of a state given by number, also of numbers that are none. -/
def nameOfNumber (n : UInt8) : String :=
  match all[n.toNat]? with
  | some s => s.name
  | none => s!"GoroutineState({n.toNat})"

end FiberState

/-- One logical thread. -/
structure Fiber where
  id : Nat
  state : FiberState
  pc : Int
  env : Addr
  operands : List Addr := []
  /-- The places above the top that the operand stack has room for. -/
  spare : Nat := 0
  frames : List Addr := []
  /-- Has it ever been given the processor? -/
  started : Bool := false
deriving DecidableEq, Repr

namespace Fiber

def roots (f : Fiber) : List Addr := f.env :: (f.operands ++ f.frames)

/-- Pushes an operand. A stack without room moves to a larger block. -/
def push (f : Fiber) (a : Addr) : Fiber :=
  let full := f.operands.length
  { f with
    operands := a :: f.operands
    spare := if f.spare = 0 then Storage.grown full - full - 1 else f.spare - 1 }

/-- Drops operands, of which there are at least `n`. -/
def drop (f : Fiber) (n : Nat) : Fiber :=
  { f with operands := f.operands.drop n, spare := f.spare + n }

/-- Replaces the operand with `height` others below it, if there is one. -/
def overwrite (f : Fiber) (height : Nat) (a : Addr) : Fiber :=
  if height < f.operands.length then
    { f with operands := f.operands.set (f.operands.length - 1 - height) a }
  else f

/-- The registers on one line. -/
def registers (f : Fiber) : String :=
  s!"g{f.id} {f.state.name} pc={Text.zeroFilled 4 f.pc} env=@{f.env.toNat} "
    ++ s!"os={f.operands.length} rts={f.frames.length}"

end Fiber

end FiberVm
