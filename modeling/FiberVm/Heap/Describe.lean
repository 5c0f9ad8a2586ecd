import FiberVm.Heap.Value
import FiberVm.Text.Pad

/-!
# Nodes as text

One line per node, with the fields its tag gives it. Any address may be described, also one that
is no node.
-/

set_option autoImplicit false

namespace FiberVm

namespace Heap

/-- The fields of a node in use. -/
def describeFields (tag : Tag) (a : Addr) : HeapM String := do
  match tag with
  | .int =>
    let n ← intValue a
    return s!" value={n.toInt}"
  | .builtin =>
    let (b, arity) ← builtinAt a
    return s!" name={b.name} arity={arity}"
  | .frame | .environment | .blockframe =>
    return " children=" ++ Text.bracketed ((← children a).map fun c => toString c.toNat)
  | .callframe =>
    let pc ← callframePc a
    let env ← callframeEnv a
    return s!" pc={pc} env=@{env.toNat}"
  | .closure =>
    let arity ← closureArity a
    let pc ← closurePc a
    let env ← closureEnv a
    return s!" arity={arity} pc={pc} env=@{env.toNat}"
  | .intChannel =>
    let cap ← chanCap a
    let len ← chanLen a
    let closed ← chanClosed a
    let sendq ← sendQueue a
    let recvq ← recvQueue a
    return s!" cap={cap} len={len} closed={closed} sendq=@{sendq.toNat} recvq=@{recvq.toNat}"
  | .waitQueue =>
    let entry (w : Waiter) : String := "\x7b" ++ s!"{w.fiber} {w.value.toNat}" ++ "\x7d"
    return " waiters=" ++ Text.bracketed ((← waiters a).map entry)
  | .waitGroup =>
    let counter ← groupCounter a
    let ids ← groupWaiters a
    return s!" counter={counter.toInt} waiters="
      ++ Text.bracketed (ids.map fun w => toString w.toInt64.toInt)
  | _ => return ""

/-- A node and its fields on one line. -/
def describe (a : Addr) : HeapM String := do
  if (← get).isNode a then
    let tag ← tagOf a
    if tag = .free then return s!"@{a.toNat} free"
    else
      let size ← sizeOf a
      return s!"@{a.toNat} {tag.name} size={size}" ++ (← describeFields tag a)
  else return s!"@{a.toNat}: not a node address"

/-- Every node in use, ascending. -/
def dump : HeapM (List String) := do
  let h ← get
  let nodes := (List.range (h.words.size / nodeSize)).map fun i => (nodeSize * i).toUInt32
  let used := nodes.filter fun a => (h.words.getD a.toNat 0).byte 0 != 0
  used.mapM describe

end Heap

end FiberVm
