import FiberVm.Machine.Basic

/-!
# Operators on values

Integers are signed 64-bit and wrap. Division rounds toward minus infinity; the remainder is that of
division toward zero and has the sign of the dividend. Operands must be two integers or two booleans.
-/

set_option autoImplicit false

namespace FiberVm

/-- The quotient rounded toward minus infinity, modulo 2^64. The divisor is not zero. -/
def floorDiv (a b : Int64) : Int64 :=
  if a % b ≠ 0 ∧ (decide (a < 0) != decide (b < 0)) then a / b - 1 else a / b

/-- What an operator gives on two operands. -/
inductive OpResult
  | int (n : Int64)
  | bool (b : Bool)
  | fault (c : Cause)
deriving DecidableEq, Repr

namespace Operator

/-- Why an operator gives nothing on operands of a kind it could have been used on. -/
def refusal (op : Operator) (tag : Tag) : OpResult :=
  if op.isBinary then .fault (.undefinedOn op tag) else .fault (.notBinary op)

/-- The operator on two integers. -/
def onInts (op : Operator) (a b : Int64) : OpResult :=
  if op = add then .int (a + b)
  else if op = sub then .int (a - b)
  else if op = mul then .int (a * b)
  else if op = div then if b = 0 then .fault (.divideByZero a) else .int (floorDiv a b)
  else if op = mod then if b = 0 then .fault (.remainderByZero a) else .int (a % b)
  else if op = lt then .bool (a < b)
  else if op = le then .bool (a ≤ b)
  else if op = gt then .bool (b < a)
  else if op = ge then .bool (b ≤ a)
  else if op = eq then .bool (a == b)
  else if op = ne then .bool (a != b)
  else op.refusal .int

/-- The operator on two booleans; `tag` is that of the left one. -/
def onBools (op : Operator) (a b : Bool) (tag : Tag) : OpResult :=
  if op = and then .bool (a && b)
  else if op = or then .bool (a || b)
  else if op = eq then .bool (a == b)
  else if op = ne then .bool (a != b)
  else op.refusal tag

end Operator

namespace Exec

def boxResult (r : OpResult) : Exec Addr :=
  match r with
  | .int n => allocating fun roots => Heap.newInt roots n
  | .bool b => return Heap.ofBool b
  | .fault c => FiberVm.fault c

def binary (op : Operator) (x y : Addr) : Exec Addr := do
  let tx ← tagOf x
  let ty ← tagOf y
  if tx = .int ∧ ty = .int then
    let a ← onHeap (Heap.intValue x)
    let b ← onHeap (Heap.intValue y)
    boxResult (op.onInts a b)
  else if Heap.isBool x ∧ Heap.isBool y then
    boxResult (op.onBools (x == Heap.true) (y == Heap.true) tx)
  else fault (.operandTypes tx op ty)

def unary (op : Operator) (x : Addr) : Exec Addr := do
  if op = .neg then
    let tag ← tagOf x
    if tag = .int then
      let n ← onHeap (Heap.intValue x)
      boxResult (.int (-n))
    else fault (.operandType "-" tag)
  else if op = .not then
    if Heap.isBool x then return Heap.ofBool (x == Heap.false)
    else fault (.operandType "!" (← tagOf x))
  else fault (.notUnary op)

end Exec

end FiberVm
