import FiberVm.Heap.Alloc

/-!
# Integers, frames, environments and closures

The layouts that hold program values and scopes. A constructor that takes addresses keeps them
pinned until its own node is made, because making it may collect.
-/

set_option autoImplicit false

namespace FiberVm

namespace Heap

def newInt (roots : Roots) (n : Int64) : HeapM Addr := do
  let a ← allocate roots .int 2
  setPayload a 0 n.toUInt64
  return a

def intValue (a : Addr) : HeapM Int64 := return (← payload a 0).toInt64

/-- The builtin stored at `a` and its arity. -/
def builtinAt (a : Addr) : HeapM (Builtin × Nat) := do
  let id ← field a 3
  let arity ← field a 4
  return (⟨id⟩, arity.toNat)

/-- Allocates a frame of `n` unassigned slots. -/
def newFrame (roots : Roots) (n : Int) : HeapM Addr := do
  if n < 0 ∨ (maxChildren : Int) < n then fault (.frameCapacity n)
  else
    let a ← allocate roots .frame (n + 1)
    (List.range n.toNat).forM fun i : Nat => setChild a i unassigned
    return a

/-- A new environment with the frames of `env` followed by `frame`. `env` is left untouched and
its frames are shared, not copied. -/
def extend (roots : Roots) (env frame : Addr) : HeapM Addr := do
  let n ← childCount env
  if n + 1 > maxChildren then fault .environmentCapacity
  else
    withPins [env, frame] do
      let e ← allocate roots .environment (n + 2)
      (List.range n.toNat).forM fun i : Nat => do setChild e i (← child env i)
      setChild e n frame
      return e

/-- The frame at the given index, once both the index and the slot have been found to exist. -/
def slotFrame (env : Addr) (frame slot : Int) : HeapM Addr := do
  let depth ← childCount env
  if frame < 0 ∨ depth ≤ frame then fault (.frameIndex frame depth)
  else
    let f ← child env frame
    let size ← childCount f
    if slot < 0 ∨ size ≤ slot then fault (.slotIndex slot size)
    else return f

/-- Reads the variable at (frame, slot). -/
def lookup (env : Addr) (frame slot : Int) : HeapM Addr := do
  let f ← slotFrame env frame slot
  child f slot

/-- Writes the variable at (frame, slot). -/
def store (env : Addr) (frame slot : Int) (v : Addr) : HeapM Unit := do
  let f ← slotFrame env frame slot
  setChild f slot v

/-- Records where a call returns to and the caller's environment. -/
def newCallframe (roots : Roots) (pc : Int) (env : Addr) : HeapM Addr :=
  withPins [env] do
    let a ← allocate roots .callframe 2
    setWideField a (UInt32.ofInt pc)
    setChild a 0 env
    return a

/-- The saved return address. -/
def callframePc (a : Addr) : HeapM Int := return ((← wideField a).toNat : Int)

def callframeEnv (a : Addr) : HeapM Addr := child a 0

/-- Records the environment around a block. -/
def newBlockframe (roots : Roots) (env : Addr) : HeapM Addr :=
  withPins [env] do
    let a ← allocate roots .blockframe 2
    setChild a 0 env
    return a

/-- The saved environment of a block. -/
def blockframeEnv (a : Addr) : HeapM Addr := child a 0

/-- Pairs an entry point with the environment it captures. -/
def newClosure (roots : Roots) (arity pc : Int) (env : Addr) : HeapM Addr := do
  if arity < 0 ∨ (maxChildren : Int) < arity then fault (.closureCapacity arity)
  else
    withPins [env] do
      let a ← allocate roots .closure 2
      setField a 3 arity.toNat.toUInt8
      setWideField a (UInt32.ofInt pc)
      setChild a 0 env
      return a

def closureArity (a : Addr) : HeapM Nat := return (← field a 3).toNat

def closurePc (a : Addr) : HeapM Int := return ((← wideField a).toNat : Int)

def closureEnv (a : Addr) : HeapM Addr := child a 0

end Heap

end FiberVm
