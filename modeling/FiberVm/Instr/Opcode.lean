/-!
# Opcodes

An opcode is a byte. The first twenty-one are assigned; each has the name it carries in listings
and program files, and the net change it makes to the length of the operand stack.
-/

set_option autoImplicit false

namespace FiberVm

/-- Identifies an instruction. -/
structure Opcode where
  number : UInt8
deriving DecidableEq, Repr

namespace Opcode

@[match_pattern] def ldc : Opcode := ⟨0⟩
@[match_pattern] def ld : Opcode := ⟨1⟩
@[match_pattern] def ldf : Opcode := ⟨2⟩
@[match_pattern] def assign : Opcode := ⟨3⟩
@[match_pattern] def binop : Opcode := ⟨4⟩
@[match_pattern] def unop : Opcode := ⟨5⟩
@[match_pattern] def jof : Opcode := ⟨6⟩
@[match_pattern] def goto : Opcode := ⟨7⟩
@[match_pattern] def call : Opcode := ⟨8⟩
@[match_pattern] def tailCall : Opcode := ⟨9⟩
@[match_pattern] def done : Opcode := ⟨10⟩
@[match_pattern] def pop : Opcode := ⟨11⟩
@[match_pattern] def reset : Opcode := ⟨12⟩
@[match_pattern] def nop : Opcode := ⟨13⟩
@[match_pattern] def enterScope : Opcode := ⟨14⟩
@[match_pattern] def exitScope : Opcode := ⟨15⟩
@[match_pattern] def startFiber : Opcode := ⟨16⟩
@[match_pattern] def stopFiber : Opcode := ⟨17⟩
@[match_pattern] def send : Opcode := ⟨18⟩
@[match_pattern] def recv : Opcode := ⟨19⟩
@[match_pattern] def makeWaitGroup : Opcode := ⟨20⟩

/-- Name and stack effect of the assigned opcodes, in the order of their numbers. The effect of a
call depends on what is called; the table gives -1 for it. -/
def table : List (String × Int) :=
  [("LDC", 1), ("LD", 1), ("LDF", 1), ("ASSIGN", 0), ("BINOP", -1), ("UNOP", 0), ("JOF", -1),
   ("GOTO", 0), ("CALL", -1), ("TAIL_CALL", -1), ("DONE", 0), ("POP", -1), ("RESET", 0),
   ("NOP", 0), ("ENTER_SCOPE", 0), ("EXIT_SCOPE", 0), ("START_GOROUTINE", 0),
   ("STOP_GOROUTINE", 0), ("SEND", -2), ("RECV", 0), ("MAKE_WAITGROUP", 1)]

def count : Nat := 21

/-- The two upper-case hexadecimal digits of a byte. -/
def hexByte (b : UInt8) : String :=
  let digit (n : Nat) : Char := "0123456789ABCDEF".toList.getD n '0'
  String.ofList [digit (b.toNat / 16), digit (b.toNat % 16)]

/-- The name in listings; an unassigned opcode shows its number in hexadecimal. -/
def name (op : Opcode) : String :=
  match table[op.number.toNat]? with
  | some row => row.1
  | none => "UNKNOWN_" ++ hexByte op.number

/-- Net change of the operand stack's length; zero for an unassigned opcode. -/
def stackEffect (op : Opcode) : Int :=
  match table[op.number.toNat]? with
  | some row => row.2
  | none => 0

def ofName? (s : String) : Option Opcode :=
  (table.findIdx? (fun row => row.1 == s)).map fun i => ⟨i.toUInt8⟩

end Opcode

end FiberVm
