import FiberVm.Instr.Basic
import FiberVm.Heap.Tag
import FiberVm.Builtin

/-!
# Why an operation gives no result

A *fault* is an error of the running program: it has a kind, by which callers tell faults apart, and
a text. A *crash* is a broken contract between the host and the heap: the operation has no meaning
and the host must not go on. Both wordings are kept here and nowhere else.
-/

set_option autoImplicit false

namespace FiberVm

/-- The family a fault belongs to. -/
inductive Kind
  | outOfMemory
  | typeMismatch
  | useBeforeAssignment
  | arityMismatch
  | deadlock
  | channelOnClosed
  | waitGroupUnderflow
  | stepLimitExceeded
  | unknownOpcode
  | unknownOperator
  | unsupportedTag
  | panic
  | divisionByZero
  | nodeCapacity
  | malformedProgram
  | halted
  | canceled
  | sink
deriving DecidableEq, Repr

/-- The text that opens every fault of the kind. -/
def Kind.text : Kind → String
  | outOfMemory => "out of memory"
  | typeMismatch => "type mismatch"
  | useBeforeAssignment => "use before assignment"
  | arityMismatch => "arity mismatch"
  | deadlock => "all goroutines are asleep - deadlock"
  | channelOnClosed => "operation on closed channel"
  | waitGroupUnderflow => "negative WaitGroup counter"
  | stepLimitExceeded => "step limit exceeded"
  | unknownOpcode => "unknown opcode"
  | unknownOperator => "unknown operator"
  | unsupportedTag => "unsupported tag"
  | panic => "panic"
  | divisionByZero => "integer divide by zero"
  | nodeCapacity => "node capacity exceeded"
  | malformedProgram => "malformed program"
  | halted => "machine halted"
  | canceled => "context canceled"
  | sink => "sink full"

/-- What went wrong in a running program. -/
inductive Cause
  -- the heap
  | outOfMemory (nodes : Nat)
  | frameCapacity (slots : Int)
  | environmentCapacity
  | closureCapacity (arity : Int)
  | channelCapacity (capacity : Int)
  | queueCapacity
  | waitersCapacity
  | counterCapacity (counter : Int64)
  | frameIndex (frame depth : Int)
  | slotIndex (slot size : Int)
  | notBoxable (typeName : String)
  | danglingRef (a : Addr)
  | refTo (tag : Tag)
  | notScalar (tag : Tag)
  -- fetching and dispatch
  | stepLimit (limit : Int)
  | pcOutside (pc : Int) (size : Nat)
  | noInstruction (pc : Int)
  | unknownInstr (typeName : String)
  | operandUnderflow
  | runtimeUnderflow
  | unassigned (name : String)
  | notCondition (tag : Tag)
  | notBlockframe (tag : Tag)
  | notReturnable (tag : Tag)
  | negativeArity (arity : Int)
  | builtinArity (builtin : Builtin) (want : Nat) (got : Int)
  | closureArity (want : Nat) (got : Int)
  | notCallable (tag : Tag)
  | unknownBuiltin (number : UInt8)
  -- operators
  | divideByZero (a : Int64)
  | remainderByZero (a : Int64)
  | operandTypes (left : Tag) (op : Operator) (right : Tag)
  | operandType (symbol : String) (tag : Tag)
  | notBinary (op : Operator)
  | notUnary (op : Operator)
  | undefinedOn (op : Operator) (tag : Tag)
  -- builtins, channels and wait groups
  | raised (text : String)
  | notInteger (who : String) (tag : Tag)
  | expectedTag (what : String) (want got : Tag)
  | notSendable (tag : Tag)
  | sendOnClosed
  | recvFromClosed
  | closeOfClosed
  | counterUnderflow (counter : Int64)
  | sinkFull
  -- fibers
  | stopOutOfRange (stop : Int)
  | unmatchedStart (start : Int)
  | unknownFiber (id : Int)
  | deadlock (blocked : Nat)
  | canceled
deriving DecidableEq, Repr

namespace Cause

def kind : Cause → Kind
  | outOfMemory _ => .outOfMemory
  | frameCapacity _ | environmentCapacity | closureCapacity _ | channelCapacity _ | queueCapacity
  | waitersCapacity | counterCapacity _ => .nodeCapacity
  | frameIndex _ _ | slotIndex _ _ | pcOutside _ _ | noInstruction _ | operandUnderflow
  | runtimeUnderflow | notBlockframe _ | notReturnable _ | negativeArity _ | unknownBuiltin _
  | stopOutOfRange _ | unmatchedStart _ | unknownFiber _ => .malformedProgram
  | notBoxable _ | danglingRef _ | refTo _ | notScalar _ => .unsupportedTag
  | stepLimit _ => .stepLimitExceeded
  | unknownInstr _ => .unknownOpcode
  | unassigned _ => .useBeforeAssignment
  | notCondition _ | notCallable _ | operandTypes _ _ _ | operandType _ _ | undefinedOn _ _
  | notInteger _ _ | expectedTag _ _ _ | notSendable _ => .typeMismatch
  | builtinArity _ _ _ | closureArity _ _ => .arityMismatch
  | divideByZero _ | remainderByZero _ => .divisionByZero
  | notBinary _ | notUnary _ => .unknownOperator
  | raised _ => .panic
  | sendOnClosed | recvFromClosed | closeOfClosed => .channelOnClosed
  | counterUnderflow _ => .waitGroupUnderflow
  | sinkFull => .sink
  | deadlock _ => .deadlock
  | canceled => .canceled

/-- The particulars of a cause, without its family. -/
def detail : Cause → String
  | outOfMemory n => s!"{n} nodes, none reclaimable"
  | frameCapacity n => s!"frame of {n} slots (max 15)"
  | environmentCapacity => "environment deeper than 15 frames"
  | closureCapacity n => s!"closure of arity {n} (max 15)"
  | channelCapacity n => s!"channel capacity {n} outside [0, 13]"
  | queueCapacity => "more than 15 goroutines parked on one channel"
  | waitersCapacity => "more than 15 goroutines waiting on one WaitGroup"
  | counterCapacity n => s!"WaitGroup counter {n.toInt} overflows 32 bits"
  | frameIndex i d => s!"frame index {i} outside environment of depth {d}"
  | slotIndex i n => s!"slot {i} outside frame of {n} slots"
  | notBoxable t => s!"cannot box {t}"
  | danglingRef a => s!"dangling reference {a.toNat}"
  | refTo t => s!"cannot box reference to {t.name}"
  | notScalar t => s!"{t.name} has no scalar representation"
  | stepLimit n => s!"more than {n} steps"
  | pcOutside pc n => s!"pc {pc} outside program of {n} instructions"
  | noInstruction pc => s!"no instruction at pc {pc}"
  | unknownInstr t => t
  | operandUnderflow => "operand stack underflow"
  | runtimeUnderflow => "runtime stack underflow"
  | unassigned n => n
  | notCondition t => s!"condition is {t.name}, not a boolean"
  | notBlockframe t => s!"EXIT_SCOPE found {t.name} on the runtime stack"
  | notReturnable t => s!"RESET found {t.name} on the runtime stack"
  | negativeArity n => s!"call with negative arity {n}"
  | builtinArity b want got => s!"{b.name} expects {want} arguments, got {got}"
  | closureArity want got => s!"function expects {want} arguments, got {got}"
  | notCallable t => s!"cannot call {t.name}"
  | unknownBuiltin n => s!"unknown builtin id {n.toNat}"
  | divideByZero a => s!"{a.toInt} / 0"
  | remainderByZero a => s!"{a.toInt} % 0"
  | operandTypes l op r => s!"{l.name} {op.name} {r.name}"
  | operandType s t => s!"{s}{t.name}"
  | notBinary op => s!"{op.name} is not a binary operator"
  | notUnary op => s!"{op.name} is not a unary operator"
  | undefinedOn op t => s!"operator {op.name} not defined on {t.name}"
  | raised s => s
  | notInteger who t => s!"{who} expects an integer, got {t.name}"
  | expectedTag what want got => s!"{what}: expected {want.name}, got {got.name}"
  | notSendable t => s!"cannot send {t.name} on chan int"
  | sendOnClosed => "send on closed channel"
  | recvFromClosed => "receive from closed channel"
  | closeOfClosed => "close of closed channel"
  | counterUnderflow n => s!"counter would become {n.toInt}"
  | sinkFull => ""
  | stopOutOfRange n => s!"START_GOROUTINE stop {n} out of range"
  | unmatchedStart n => s!"START_GOROUTINE at {n} has no matching STOP_GOROUTINE"
  | unknownFiber n => s!"wake of unknown goroutine {n}"
  | deadlock n => s!"({n} goroutines blocked)"
  | canceled => ""

def message (c : Cause) : String :=
  match c with
  | deadlock _ => c.kind.text ++ " " ++ c.detail
  | sinkFull => "println: " ++ c.kind.text
  | canceled => c.kind.text
  | _ => c.kind.text ++ ": " ++ c.detail

end Cause

inductive Crash
  | allocateSize (tag : Tag) (size : Int)
  | freeReserved (a : Addr)
  | freeInvalid (a : Addr)
  | doubleFree (a : Addr)
  | markFree (a : Addr)
  | markCorrupt (a : Addr) (tag : Tag)
  /-- A word, argument or listed position that does not exist. -/
  | outOfRange
  /-- A ring without slots. -/
  | emptyRing
  /-- An instruction that is not there. -/
  | missingInstr
deriving DecidableEq, Repr

/-- The wording of a crash that has one. -/
def Crash.message? : Crash → Option String
  | allocateSize t n => some s!"vm: allocate {t.name}: size {n} out of range [1, 16]"
  | freeReserved a => some s!"vm: free of reserved node {a.toNat}"
  | freeInvalid a => some s!"vm: free of invalid address {a.toNat}"
  | doubleFree a => some s!"vm: double free of node {a.toNat}"
  | markFree a => some s!"vm: mark: reference to free node {a.toNat}"
  | markCorrupt a t => some s!"vm: mark: node {a.toNat} has corrupt tag {t.number.toNat}"
  | outOfRange | emptyRing | missingInstr => none

/-- A crash after which the heap is as it was, so that the host may go on. -/
def Crash.isRecoverable : Crash → Bool
  | allocateSize _ _ | freeReserved _ | freeInvalid _ | doubleFree _ => true
  | _ => false

inductive Failure
  | fault (cause : Cause)
  | crash (crash : Crash)
deriving DecidableEq, Repr

def fault {σ α : Type} (c : Cause) : EStateM Failure σ α := fun s => .error (.fault c) s

def crash {σ α : Type} (c : Crash) : EStateM Failure σ α := fun s => .error (.crash c) s

end FiberVm
