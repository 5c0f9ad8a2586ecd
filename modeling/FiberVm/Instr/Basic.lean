import FiberVm.Word
import FiberVm.Instr.Opcode
import FiberVm.Instr.Operator

/-!
# Instructions

One constructor per opcode, with the operands that opcode takes. A constant is a value of the host
program; not every such value can be put on the heap. `foreign` stands for an instruction outside
the closed set, which carries nothing but an opcode and the name of its type.
-/

set_option autoImplicit false

namespace FiberVm

/-- The width a host integer was declared with. All of them fit a signed 64-bit integer. -/
inductive IntType
  | int | int8 | int16 | int32 | int64 | uint8 | uint16 | uint32
deriving DecidableEq, Repr

namespace IntType

/-- The value of this type that is congruent to `n`. -/
def wrap (t : IntType) (n : Int) : Int64 :=
  match t with
  | int | int64 => Int64.ofInt n
  | int8 => Int64.ofInt (n.bmod 256)
  | int16 => Int64.ofInt (n.bmod 65536)
  | int32 => Int64.ofInt (n.bmod 0x100000000)
  | uint8 => Int64.ofInt (n.emod 256)
  | uint16 => Int64.ofInt (n.emod 65536)
  | uint32 => Int64.ofInt (n.emod 0x100000000)

end IntType

/-- A host value. Unsigned 64-bit integers, floats (kept as their bits) and texts exist on the
host only. -/
inductive Constant
  | nil
  | undefined
  | bool (b : Bool)
  | int (type : IntType) (n : Int64)
  | uint64 (n : UInt64)
  | float64 (bits : UInt64)
  | string (s : String)
  | ref (a : Addr)
deriving DecidableEq, Repr

def Constant.typeName : Constant → String
  | nil => "<nil>"
  | undefined => "vm.UndefinedValue"
  | bool _ => "bool"
  | int .int _ => "int"
  | int .int8 _ => "int8"
  | int .int16 _ => "int16"
  | int .int32 _ => "int32"
  | int .int64 _ => "int64"
  | int .uint8 _ => "uint8"
  | int .uint16 _ => "uint16"
  | int .uint32 _ => "uint32"
  | uint64 _ => "uint64"
  | float64 _ => "float64"
  | string _ => "string"
  | ref _ => "vm.Ref"

/-- Addresses a variable by frame index, outermost first, and slot. -/
structure Pos where
  frame : Int
  slot : Int
deriving DecidableEq, Repr

/-- One instruction with its operands. -/
inductive Instr
  | loadConst (value : Constant)
  | load (pos : Pos) (sym : String)
  | loadFunc (arity entry : Int)
  | assign (pos : Pos) (sym : String)
  | binary (op : Operator)
  | unary (op : Operator)
  | jumpOnFalse (target : Int)
  | goto (target : Int)
  | call (arity : Int)
  | tailCall (arity : Int)
  | done
  | pop
  | reset
  | nop
  | enterScope (slots : Int)
  | exitScope
  /-- Starts a fiber at the next instruction. `stop` is the index of the matching `stopFiber`;
  zero means that it is found by scanning forward. -/
  | startFiber (stop : Int)
  | stopFiber
  | send
  | recv
  | makeWaitGroup
  | foreign (opcode : Opcode) (typeName : String)
deriving DecidableEq, Repr

namespace Instr

/-- The opcode of an instruction. -/
def opcode : Instr → Opcode
  | loadConst _ => .ldc
  | load _ _ => .ld
  | loadFunc _ _ => .ldf
  | assign _ _ => .assign
  | binary _ => .binop
  | unary _ => .unop
  | jumpOnFalse _ => .jof
  | goto _ => .goto
  | call _ => .call
  | tailCall _ => .tailCall
  | done => .done
  | pop => .pop
  | reset => .reset
  | nop => .nop
  | enterScope _ => .enterScope
  | exitScope => .exitScope
  | startFiber _ => .startFiber
  | stopFiber => .stopFiber
  | send => .send
  | recv => .recv
  | makeWaitGroup => .makeWaitGroup
  | foreign op _ => op

end Instr

/-- An instruction stream. An entry may be missing, in which case nothing can be executed there. -/
abbrev Code := Array (Option Instr)

end FiberVm
