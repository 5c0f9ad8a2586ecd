/-!
# Machine words

A word is 64 bits. Node headers pack bytes into a word, free nodes and parked fibers pack two
32-bit halves into one, and everything below is the packing and unpacking of those fields.
-/

set_option autoImplicit false

namespace FiberVm

/-- A cell of the heap. -/
abbrev Word := UInt64

/-- The index of a node's first word. -/
abbrev Addr := UInt32

/-- Marks an address slot that holds nothing. -/
def noAddr : Addr := 0xFFFFFFFF

namespace Word

/-- Byte `i` of a word, counted from the low end. -/
def byte (w : Word) (i : Nat) : UInt8 := (w >>> (8 * i).toUInt64).toUInt8

/-- Replaces byte `i` and keeps the other seven. -/
def setByte (w : Word) (i : Nat) (v : UInt8) : Word :=
  (w &&& ~~~((0xFF : UInt64) <<< (8 * i).toUInt64)) ||| (v.toUInt64 <<< (8 * i).toUInt64)

def high (w : Word) : UInt32 := (w >>> 32).toUInt32

def low (w : Word) : UInt32 := w.toUInt32

/-- Replaces the upper half. -/
def setHigh (w : Word) (v : UInt32) : Word :=
  (w &&& (0xFFFFFFFF : UInt64)) ||| (v.toUInt64 <<< 32)

/-- The word with the given halves. -/
def pack (hi lo : UInt32) : Word := (hi.toUInt64 <<< 32) ||| lo.toUInt64

end Word

end FiberVm
