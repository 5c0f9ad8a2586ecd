import FiberVm.Failure

/-!
# The heap and its words

The heap is a flat array of words cut into nodes of sixteen. Word 0 of a node in use is its header:
byte 0 the tag, byte 1 the number of words in use, byte 2 the mark, bytes 3 to 7 fields that belong
to the tag. The children follow. A node on the free list has tag 0 and the address of the next free
node in the upper half of word 0, so a sweep never takes a link for a header.

Access is by word index and is checked against the array, not against the node: a child index
outside the node reaches a neighbour, one outside the array is a crash.
-/

set_option autoImplicit false

namespace FiberVm

namespace Heap

/-- Words per node. -/
def nodeSize : Nat := 16

/-- Words of a node after its header. -/
def maxChildren : Nat := 15

/-- The most words a heap may have: every node address fits 32 bits and differs from `noAddr`. -/
def maxWords : Nat := 4294967280

/-- Nodes made with the heap and never collected: four literals, ten builtins, the builtins'
frame and the global environment. -/
def reservedNodes : Nat := 16

def nil : Addr := 0

/-- The literal that fills a slot nothing has been stored in. -/
def unassigned : Addr := 16

def true : Addr := 32

def false : Addr := 48

/-- The first builtin's node; the others follow in slot order. -/
def firstBuiltin : Addr := 64

/-- The frame that holds the builtins. -/
def builtinsFrame : Addr := 224

/-- The environment that holds only the builtins' frame. -/
def globalEnv : Addr := 240

/-- The first collectable address. -/
def bottom : Addr := 256

structure Stats where
  nodes : Nat
  freeNodes : Int
  allocations : UInt64
  collections : UInt64
  freed : UInt64
deriving DecidableEq, Repr

end Heap

/-- A pool of fixed-size nodes. -/
structure Heap where
  words : Array Word
  /-- Head of the free list. -/
  freeHead : Option Addr
  /-- Addresses kept alive by the host, oldest first. -/
  pinned : List Addr
  stats : Heap.Stats

abbrev HeapM := EStateM Failure Heap

namespace Heap

/-- The first word of a free node, given the next free one. -/
def freeWord : Option Addr → Word
  | none => Word.pack noAddr 0
  | some a => Word.pack a 0

/-- The link in the first word of a free node. -/
def nextFree (w : Word) : Option Addr :=
  if w.high = noAddr then none else some w.high

/-- A header with the given tag and size and every other field zero. -/
def freshHeader (tag : Tag) (size : Nat) : Word :=
  tag.number.toUInt64 ||| (size.toUInt64 <<< 8)

/-- Does the address name the start of a node inside the heap? -/
def isNode (h : Heap) (a : Addr) : Bool :=
  decide (a.toNat < h.words.size) && a.toNat % nodeSize == 0

def readWord (i : Int) : HeapM Word := fun h =>
  if i < 0 then .error (.crash .outOfRange) h
  else match h.words[i.toNat]? with
    | some w => .ok w h
    | none => .error (.crash .outOfRange) h

def writeWord (i : Int) (w : Word) : HeapM Unit := fun h =>
  if 0 ≤ i ∧ i.toNat < h.words.size then
    .ok () { h with words := h.words.setIfInBounds i.toNat w }
  else .error (.crash .outOfRange) h

def header (a : Addr) : HeapM Word := readWord a.toNat

def modifyHeader (a : Addr) (f : Word → Word) : HeapM Unit := do
  let w ← header a
  writeWord a.toNat (f w)

def tagOf (a : Addr) : HeapM Tag := return ⟨(← header a).byte 0⟩

/-- The words in use, header included. -/
def sizeOf (a : Addr) : HeapM Nat := return ((← header a).byte 1).toNat

/-- The number of children; a node that claims no word at all has one less than none. -/
def childCount (a : Addr) : HeapM Int := return (← sizeOf a : Int) - 1

def field (a : Addr) (b : Nat) : HeapM UInt8 := return (← header a).byte b

/-- Replaces byte `b` of the header. -/
def setField (a : Addr) (b : Nat) (v : UInt8) : HeapM Unit := modifyHeader a (·.setByte b v)

def wideField (a : Addr) : HeapM UInt32 := return (← header a).high

/-- Replaces bytes 4 to 7 of the header. -/
def setWideField (a : Addr) (v : UInt32) : HeapM Unit := modifyHeader a (·.setHigh v)

/-- Word `i` after the header. -/
def payload (a : Addr) (i : Int) : HeapM Word := readWord (a.toNat + 1 + i)

/-- Replaces word `i` after the header. -/
def setPayload (a : Addr) (i : Int) (w : Word) : HeapM Unit := writeWord (a.toNat + 1 + i) w

/-- Child `i`, the lower half of its word. -/
def child (a : Addr) (i : Int) : HeapM Addr := return (← payload a i).low

def setChild (a : Addr) (i : Int) (c : Addr) : HeapM Unit := setPayload a i c.toUInt64

def children (a : Addr) : HeapM (List Addr) := do
  let n ← childCount a
  if n < 0 then crash .outOfRange
  else (List.range n.toNat).mapM fun i : Nat => child a i

/-- Drops the pins taken since there were `mark` of them. -/
def release (h : Heap) (mark : Nat) : Heap := { h with pinned := h.pinned.take mark }

/-- Keeps `as` alive while `op` runs, however it ends. -/
def withPins {α : Type} (as : List Addr) (op : HeapM α) : HeapM α := fun h =>
  let mark := h.pinned.length
  match op { h with pinned := h.pinned ++ as } with
  | .ok a h => .ok a (h.release mark)
  | .error e h => .error e (h.release mark)

end Heap

end FiberVm
