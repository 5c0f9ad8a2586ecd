import FiberVm.Heap.Alloc

/-!
# Channels, wait queues and wait groups

A channel's header holds the ring's send index, receive index, closed flag, item count and capacity
in bytes 3 to 7; child 0 is the queue of parked senders, child 1 that of parked receivers, and the
ring of boxed integers follows.

A wait queue is a ring of fifteen entries with head, tail and count in bytes 3 to 5. An entry packs
a fiber's id with the address of the value it carries, `noAddr` if it carries none.

A wait group has the number of waiting fibers in byte 3, the signed counter in bytes 4 to 7, and
the ids of the waiting fibers as payload.
-/

set_option autoImplicit false

namespace FiberVm

/-- A parked fiber and the value it is carrying. -/
structure Waiter where
  fiber : Nat
  value : Addr
deriving DecidableEq, Repr

namespace Waiter

/-- Both halves of an entry. Only the low 32 bits of an id are kept. -/
def toWord (w : Waiter) : Word := Word.pack w.fiber.toUInt32 w.value

/-- Reads an entry back. -/
def ofWord (w : Word) : Waiter := ⟨w.high.toNat, w.low⟩

end Waiter

namespace Heap

/-- The largest ring: a node less its header and the two queues. -/
def maxChannelCapacity : Nat := 13

/-- The index after `i` in a ring; a ring without slots has none. -/
def ringNext (i : UInt8) (ring : Nat) : HeapM UInt8 :=
  if ring = 0 then crash .emptyRing else return ((i.toNat + 1) % ring).toUInt8

/-- Allocates an empty wait queue. -/
def newWaitQueue (roots : Roots) : HeapM Addr := allocate roots .waitQueue nodeSize

def queueLen (q : Addr) : HeapM Nat := return (← field q 5).toNat

/-- Parks a fiber at the tail of `q`. -/
def enqueue (q : Addr) (w : Waiter) : HeapM Unit := do
  let n ← queueLen q
  if n = maxChildren then fault .queueCapacity
  else
    let tail ← field q 4
    setPayload q tail.toNat w.toWord
    setField q 4 (← ringNext tail maxChildren)
    setField q 5 (n + 1).toUInt8

/-- Removes the oldest entry. -/
def dequeue (q : Addr) : HeapM (Option Waiter) := do
  let n ← queueLen q
  if n = 0 then return none
  else
    let head ← field q 3
    let w ← payload q head.toNat
    setPayload q head.toNat 0
    setField q 3 (← ringNext head maxChildren)
    setField q 5 (n - 1).toUInt8
    return some (Waiter.ofWord w)

/-- The parked fibers, oldest first. -/
def waiters (q : Addr) : HeapM (List Waiter) := do
  let head ← field q 3
  let n ← queueLen q
  (List.range n).mapM fun k =>
    return Waiter.ofWord (← payload q ((head.toNat + k) % maxChildren : Nat))

/-- Allocates a channel of the given capacity together with its two queues. -/
def newChannel (roots : Roots) (capacity : Int) : HeapM Addr := do
  if capacity < 0 ∨ (maxChannelCapacity : Int) < capacity then fault (.channelCapacity capacity)
  else
    let sendq ← newWaitQueue roots
    withPins [sendq] do
      let recvq ← newWaitQueue roots
      withPins [recvq] do
        let ch ← allocate roots .intChannel (3 + capacity)
        setField ch 7 capacity.toNat.toUInt8
        setChild ch 0 sendq
        setChild ch 1 recvq
        return ch

def chanCap (ch : Addr) : HeapM Nat := return (← field ch 7).toNat

def chanLen (ch : Addr) : HeapM Nat := return (← field ch 6).toNat

def chanClosed (ch : Addr) : HeapM Bool := return (← field ch 5) != 0

def closeChan (ch : Addr) : HeapM Unit := setField ch 5 1

/-- The queue of fibers parked on send. -/
def sendQueue (ch : Addr) : HeapM Addr := child ch 0

/-- The queue of fibers parked on receive. -/
def recvQueue (ch : Addr) : HeapM Addr := child ch 1

/-- Appends to the ring. The caller has checked that there is room. -/
def chanPush (ch v : Addr) : HeapM Unit := do
  let capacity ← chanCap ch
  let i ← field ch 3
  setChild ch (2 + i.toNat) v
  setField ch 3 (← ringNext i capacity)
  setField ch 6 ((← chanLen ch) + 1).toUInt8

/-- Removes the oldest item. The caller has checked that there is one. -/
def chanPop (ch : Addr) : HeapM Addr := do
  let capacity ← chanCap ch
  let i ← field ch 4
  let v ← child ch (2 + i.toNat)
  setChild ch (2 + i.toNat) noAddr
  setField ch 4 (← ringNext i capacity)
  setField ch 6 ((← field ch 6) - 1)
  return v

/-- Allocates a wait group with counter zero. -/
def newWaitGroup (roots : Roots) : HeapM Addr := allocate roots .waitGroup nodeSize

def groupCounter (g : Addr) : HeapM Int32 := return (← wideField g).toInt32

def setGroupCounter (g : Addr) (n : Int32) : HeapM Unit := setWideField g n.toUInt32

/-- The fibers waiting on a group, in the order in which they came. -/
def groupWaiters (g : Addr) : HeapM (List Word) := do
  let n ← field g 3
  (List.range n.toNat).mapM fun i : Nat => payload g i

/-- Adds a waiting fiber. -/
def addGroupWaiter (g : Addr) (id : Nat) : HeapM Unit := do
  let n ← field g 3
  if n.toNat = maxChildren then fault .waitersCapacity
  else
    setPayload g n.toNat id.toUInt64
    setField g 3 (n + 1)

/-- Empties the list of waiting fibers and returns it. -/
def drainGroupWaiters (g : Addr) : HeapM (List Word) := do
  let ids ← groupWaiters g
  (List.range ids.length).forM fun i : Nat => setPayload g i 0
  setField g 3 0
  return ids

end Heap

end FiberVm
