/-!
# Node tags

Byte 0 of a node's header says what the node is. Tag 0 is kept for nodes on the free list.
-/

set_option autoImplicit false

namespace FiberVm

/-- Discriminates node variants. -/
structure Tag where
  number : UInt8
deriving DecidableEq, Repr

namespace Tag

@[match_pattern] def free : Tag := ⟨0⟩
@[match_pattern] def nil : Tag := ⟨1⟩
@[match_pattern] def unassigned : Tag := ⟨2⟩
@[match_pattern] def true : Tag := ⟨3⟩
@[match_pattern] def false : Tag := ⟨4⟩
@[match_pattern] def int : Tag := ⟨5⟩
@[match_pattern] def builtin : Tag := ⟨6⟩
@[match_pattern] def frame : Tag := ⟨7⟩
@[match_pattern] def environment : Tag := ⟨8⟩
@[match_pattern] def callframe : Tag := ⟨9⟩
@[match_pattern] def blockframe : Tag := ⟨10⟩
@[match_pattern] def closure : Tag := ⟨11⟩
@[match_pattern] def intChannel : Tag := ⟨12⟩
@[match_pattern] def waitQueue : Tag := ⟨13⟩
@[match_pattern] def waitGroup : Tag := ⟨14⟩

/-- Names of the tags from 1 on. -/
def table : List String :=
  ["Nil", "Unassigned", "True", "False", "Int", "Builtin", "Frame", "Environment", "Callframe",
   "Blockframe", "Closure", "IntChannel", "WaitQueue", "WaitGroup"]

/-- The tag's name; tag 0 and the numbers past the table show as numbers. -/
def name (t : Tag) : String :=
  match t.number.toNat with
  | 0 => "Tag(0)"
  | n + 1 => table[n]?.getD s!"Tag({n + 1})"

end Tag

end FiberVm
