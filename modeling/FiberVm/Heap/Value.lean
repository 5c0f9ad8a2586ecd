import FiberVm.Heap.Nodes
import FiberVm.Heap.Channel

/-!
# Values on both sides of the heap

Boxing puts a host value on the heap and unboxing reads one back. Only integers take a node; the
literals have theirs from the start, and a reference must lead to a channel or a wait group.
-/

set_option autoImplicit false

namespace FiberVm

/-- A value that a program can hand back to its host. -/
inductive Value
  | nil
  | undefined
  | bool (b : Bool)
  | int (n : Int64)
  | ref (a : Addr)
deriving DecidableEq, Repr

/-- A reference as the host sees it. -/
def refText (a : Addr) : String := s!"ref@{a.toNat}"

namespace Heap

/-- The literal of a truth value. -/
def ofBool (b : Bool) : Addr := if b then true else false

def isBool (a : Addr) : Bool := a == true || a == false

/-- Puts a host value on the heap. -/
def box (roots : Roots) (v : Constant) : HeapM Addr :=
  match v with
  | .nil => return nil
  | .undefined => return unassigned
  | .bool b => return ofBool b
  | .int _ n => newInt roots n
  | .ref a => do
    if (← get).isNode a then
      let tag ← tagOf a
      if tag = .intChannel ∨ tag = .waitGroup then return a else fault (.refTo tag)
    else fault (.danglingRef a)
  | .uint64 _ | .float64 _ | .string _ => fault (.notBoxable v.typeName)

/-- The host value stored at `a`. -/
def unbox (a : Addr) : HeapM Value := do
  match ← tagOf a with
  | .nil => return .nil
  | .unassigned => return .undefined
  | .true => return .bool Bool.true
  | .false => return .bool Bool.false
  | .int => return .int (← intValue a)
  | .intChannel | .waitGroup => return .ref a
  | tag => fault (.notScalar tag)

/-- The value at `a` as a program prints it. -/
def format (a : Addr) : HeapM String := do
  match ← tagOf a with
  | .nil => return "nil"
  | .unassigned => return "undefined"
  | .true => return "true"
  | .false => return "false"
  | .int => return toString (← intValue a).toInt
  | .builtin =>
    let (b, _) ← builtinAt a
    return s!"<builtin {b.name}>"
  | .closure =>
    let pc ← closurePc a
    return s!"<closure pc={pc}>"
  | .intChannel => return s!"<chan int @{a.toNat}>"
  | .waitGroup => return s!"<waitgroup @{a.toNat}>"
  | tag => return s!"<{tag.name} @{a.toNat}>"

end Heap

end FiberVm
