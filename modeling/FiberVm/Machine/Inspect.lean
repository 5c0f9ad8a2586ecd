import FiberVm.Heap.Describe
import FiberVm.Machine.Run

/-!
# Looking into a machine

Stacks are shown from the top, one entry per line.
-/

set_option autoImplicit false

namespace FiberVm

namespace Machine

/-- Numbered lines for the entries of a stack. -/
def stackLines (render : Addr → HeapM String) (stack : List Addr) : HeapM String := do
  if stack.isEmpty then return "  (empty)\n"
  else
    let lines ← stack.zipIdx.mapM fun (a, i) => do
      let text ← render a
      return s!"  {Text.column 2 i}  {text}\n"
    return String.join lines

/-- Reads the heap without changing it. -/
def inspect {α : Type} (m : Machine) (op : HeapM α) : Except Failure α :=
  match op m.heap with
  | .ok a _ => .ok a
  | .error e _ => .error e

/-- An operand stack, one value per line. -/
def operandLines (m : Machine) (stack : List Addr) : Except Failure String :=
  m.inspect (stackLines Heap.format stack)

def frameLines (m : Machine) (stack : List Addr) : Except Failure String :=
  m.inspect (stackLines Heap.describe stack)

end Machine

end FiberVm
