import FiberVm.Machine.Basic

/-!
# Channels and wait groups at work

A send hands its value to a parked receiver, puts it into the ring, or parks. A receive takes the
oldest value of the ring and refills it from the oldest parked sender, takes a parked sender's value,
or parks. A wait group releases its waiting fibers when the counter comes to zero.
-/

set_option autoImplicit false

namespace FiberVm

namespace Exec

/-- Sends the top operand on the channel below it. -/
def send : Exec Unit := do
  let v ← peek 0
  let ch ← peek 1
  expectTag ch .intChannel "send"
  let tag ← tagOf v
  if tag ≠ .int then fault (.notSendable tag)
  else if ← onHeap (Heap.chanClosed ch) then fault .sendOnClosed
  else
    drop 2
    -- A parked receiver means that the ring is empty.
    match ← onHeap (do Heap.dequeue (← Heap.recvQueue ch)) with
    | some w => wake w.fiber v
    | none =>
      if (← onHeap (Heap.chanLen ch)) < (← onHeap (Heap.chanCap ch)) then
        onHeap (Heap.chanPush ch v)
      else
        let id ← asksFiber (·.id)
        onHeap (do Heap.enqueue (← Heap.sendQueue ch) ⟨id, v⟩)
        park

/-- Replaces the channel on top by a value received from it, now or when a sender comes. -/
def recv : Exec Unit := do
  let ch ← peek 0
  expectTag ch .intChannel "receive from"
  if ← onHeap (Heap.chanClosed ch) then fault .recvFromClosed
  else
    drop 1
    if 0 < (← onHeap (Heap.chanLen ch)) then
      push (← onHeap (Heap.chanPop ch))
      match ← onHeap (do Heap.dequeue (← Heap.sendQueue ch)) with
      | some w =>
        onHeap (Heap.chanPush ch w.value)
        wake w.fiber noAddr
      | none => return ()
    else
      match ← onHeap (do Heap.dequeue (← Heap.sendQueue ch)) with
      | some w =>
        push w.value
        wake w.fiber noAddr
      | none =>
        let id ← asksFiber (·.id)
        onHeap (do Heap.enqueue (← Heap.recvQueue ch) ⟨id, noAddr⟩)
        park

def closeChan (ch : Addr) : Exec Unit := do
  expectTag ch .intChannel "close"
  if ← onHeap (Heap.chanClosed ch) then fault .closeOfClosed
  else onHeap (Heap.closeChan ch)

/-- Adjusts a counter; the sum is taken modulo 2^64. At zero every waiting fiber is released. -/
def groupAdd (g : Addr) (delta : Int64) : Exec Unit := do
  expectTag g .waitGroup "wgAdd"
  let n := (← onHeap (Heap.groupCounter g)).toInt64 + delta
  if n < 0 then fault (.counterUnderflow n)
  else if 2147483647 < n then fault (.counterCapacity n)
  else
    onHeap (Heap.setGroupCounter g n.toInt32)
    if n = 0 then
      let ids ← onHeap (Heap.drainGroupWaiters g)
      ids.forM fun id => wake id.toInt64.toInt noAddr
    else return ()

/-- Blocks the current fiber until the counter is zero. -/
def groupWait (g : Addr) : Exec Unit := do
  expectTag g .waitGroup "wgWait"
  if (← onHeap (Heap.groupCounter g)) = 0 then return ()
  else
    let id ← asksFiber (·.id)
    onHeap (Heap.addGroupWaiter g id)
    park

end Exec

end FiberVm
