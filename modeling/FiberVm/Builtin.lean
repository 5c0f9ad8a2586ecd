/-!
# Builtin functions

Ten functions are there from the start. Their nodes fill the outermost frame of every environment
in the order of the table, so a compiler names one by its slot.
-/

set_option autoImplicit false

namespace FiberVm

/-- The index of a builtin in the outermost frame. -/
structure Builtin where
  number : UInt8
deriving DecidableEq, Repr

namespace Builtin

@[match_pattern] def println : Builtin := ⟨0⟩
@[match_pattern] def raise : Builtin := ⟨1⟩
@[match_pattern] def sleep : Builtin := ⟨2⟩
@[match_pattern] def make : Builtin := ⟨3⟩
@[match_pattern] def close : Builtin := ⟨4⟩
@[match_pattern] def max : Builtin := ⟨5⟩
@[match_pattern] def min : Builtin := ⟨6⟩
@[match_pattern] def wgAdd : Builtin := ⟨7⟩
@[match_pattern] def wgDone : Builtin := ⟨8⟩
@[match_pattern] def wgWait : Builtin := ⟨9⟩

/-- Name and arity in slot order. -/
def table : List (String × Nat) :=
  [("println", 1), ("panic", 1), ("sleep", 1), ("make", 2), ("close", 1), ("max", 2), ("min", 2),
   ("wgAdd", 2), ("wgDone", 1), ("wgWait", 1)]

def count : Nat := 10

/-- The builtin's name, or its number past the table. -/
def name (b : Builtin) : String :=
  match table[b.number.toNat]? with
  | some row => row.1
  | none => s!"BuiltinID({b.number.toNat})"

def names : List String := table.map (·.1)

def slot? (s : String) : Option Nat := table.findIdx? (fun row => row.1 == s)

end Builtin

end FiberVm
