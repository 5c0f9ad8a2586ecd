import FiberVm.Heap.Value
import FiberVm.Proofs.Failure

/-!
# Operations on the heap give back what they pin

However an operation ends, the pins after it are those before it: what is pinned on the way is released, also when
a part fails. Nothing is assumed of the heap. The operations raise usual faults only, the accesses of single words
none at all.
-/

set_option autoImplicit false

namespace FiberVm

namespace Heap

/-- The operation leaves the pins as they were, and its faults are usual ones. -/
class Releases {α : Type} (op : HeapM α) : Prop extends Tame op where
  pins : ∀ h : Heap, Settles (fun h' => h'.pinned = h.pinned) (op h)

/-- Pins on top of the list are given back by cutting it. -/
theorem pinned_release (h : Heap) {h' : Heap} {as : List Addr} (same : h'.pinned = h.pinned ++ as) :
    (h'.release h.pinned.length).pinned = h.pinned := by
  rw [release, same, List.take_left]

namespace Releases

section Rules

variable {α β : Type}

instance pure (a : α) : Releases (Pure.pure a : HeapM α) := ⟨fun _ => rfl⟩

instance fault (c : Cause) [usual : c.Usual] : Releases (FiberVm.fault c : HeapM α) := ⟨fun _ => rfl⟩

instance crash (c : Crash) : Releases (FiberVm.crash c : HeapM α) := ⟨fun _ => rfl⟩

theorem seq {op : HeapM α} {k : α → HeapM β} (first : Releases op) (rest : ∀ a, Releases (k a)) : Releases (op >>= k) where
  toTame := .seq first.toTame fun a => (rest a).toTame
  pins h := Settles.bind (first.pins h) (fun a h₁ _ same => same ▸ (rest a).pins h₁) fun _ => id

instance bind (op : HeapM α) (k : α → HeapM β) [first : Releases op] [rest : ∀ a, Releases (k a)] : Releases (op >>= k) :=
  seq first rest

instance ite (p : Prop) [Decidable p] (op op' : HeapM α) [yes : Releases op] [no : Releases op'] :
    Releases (if p then op else op') := by
  split
  · exact yes
  · exact no

instance forM (l : List α) (f : α → HeapM Unit) [each : ∀ a, Releases (f a)] : Releases (l.forM f) := by
  induction l with
  | nil => exact pure ()
  | cons a l ih => exact seq (each a) fun _ => ih

instance mapM (l : List α) (f : α → HeapM β) [each : ∀ a, Releases (f a)] : Releases (l.mapM f) := by
  induction l with
  | nil => exact pure []
  | cons a l ih =>
    rw [List.mapM_cons]
    exact seq (each a) fun _ => seq ih fun _ => pure _

instance withPins (as : List Addr) (op : HeapM α) [inner : Releases op] : Releases (Heap.withPins as op) := by
  refine { usual := fun h c h' run => ?_, pins := fun h => ?_ }
  · unfold Heap.withPins at run
    dsimp only at run
    split at run
    · cases run
    · next here =>
      cases run
      exact inner.usual _ c _ here
  · have ends := inner.pins { h with pinned := h.pinned ++ as }
    unfold Heap.withPins
    dsimp only
    split <;>
    · next here =>
      rw [here] at ends
      exact h.pinned_release ends

end Rules

section Words

variable (roots : Roots)

instance readWord (i : Int) : Releases (Heap.readWord i) := by
  unfold Heap.readWord
  refine { usual := fun h c h' run => ?_, pins := fun h => ?_ }
  · split at run
    · cases run
    · split at run <;> cases run
  · split
    · rfl
    · split <;> rfl

instance writeWord (i : Int) (w : Word) : Releases (Heap.writeWord i w) := by
  unfold Heap.writeWord
  refine { usual := fun h c h' run => ?_, pins := fun h => ?_ }
  · split at run <;> cases run
  · split <;> rfl

instance take (tag : Tag) (size : Nat) (a : Addr) : Releases (Heap.take tag size a) := by
  unfold Heap.take
  refine { usual := fun h c h' run => ?_, pins := fun h => ?_ }
  · split at run
    · cases run
    · split at run <;> cases run
  · split
    · rfl
    · split <;> rfl

instance collect (sources : List Addr) : Releases (Heap.collect sources) := by
  unfold Heap.collect
  refine { usual := fun h c h' run => ?_, pins := fun h => ?_ }
  · split at run <;> cases run
  · split <;> rfl

instance allocate (tag : Tag) (size : Int) : Releases (Heap.allocate roots tag size) := by
  unfold Heap.allocate
  refine { usual := fun h c h' run => ?_, pins := fun h => ?_ }
  · split at run
    · cases run
    split at run
    · exact (take tag _ _).usual _ c h' run
    split at run
    · next failed =>
      cases run
      exact (collect _).usual _ c h' failed
    · split at run
      · exact (take tag _ _).usual _ c h' run
      · cases run
        infer_instance
  · have collected := (collect (roots.visit h.stats.collections)).pins h
    split
    · rfl
    split
    · exact (take tag _ _).pins h
    split <;> rename_i ran <;> rw [ran] at collected
    · exact collected
    · split
      · exact collected ▸ (take tag _ _).pins _
      · exact collected

end Words

section Nodes

variable (a : Addr) (roots : Roots)

instance header : Releases (Heap.header a) := readWord _

instance modifyHeader (f : Word → Word) : Releases (Heap.modifyHeader a f) := by
  unfold Heap.modifyHeader
  infer_instance

instance tagOf : Releases (Heap.tagOf a) := by
  unfold Heap.tagOf
  infer_instance

instance sizeOf : Releases (Heap.sizeOf a) := by
  unfold Heap.sizeOf
  infer_instance

instance childCount : Releases (Heap.childCount a) := by
  unfold Heap.childCount
  infer_instance

instance field (b : Nat) : Releases (Heap.field a b) := by
  unfold Heap.field
  infer_instance

instance setField (b : Nat) (v : UInt8) : Releases (Heap.setField a b v) := by
  unfold Heap.setField
  infer_instance

instance wideField : Releases (Heap.wideField a) := by
  unfold Heap.wideField
  infer_instance

instance setWideField (v : UInt32) : Releases (Heap.setWideField a v) := by
  unfold Heap.setWideField
  infer_instance

instance payload (i : Int) : Releases (Heap.payload a i) := by
  unfold Heap.payload
  infer_instance

instance setPayload (i : Int) (w : Word) : Releases (Heap.setPayload a i w) := by
  unfold Heap.setPayload
  infer_instance

instance child (i : Int) : Releases (Heap.child a i) := by
  unfold Heap.child
  infer_instance

instance setChild (i : Int) (c : Addr) : Releases (Heap.setChild a i c) := by
  unfold Heap.setChild
  infer_instance

instance intValue : Releases (Heap.intValue a) := by
  unfold Heap.intValue
  infer_instance

instance builtinAt : Releases (Heap.builtinAt a) := by
  unfold Heap.builtinAt
  infer_instance

instance slotFrame (i j : Int) : Releases (Heap.slotFrame a i j) := by
  unfold Heap.slotFrame
  infer_instance

instance lookup (i j : Int) : Releases (Heap.lookup a i j) := by
  unfold Heap.lookup
  infer_instance

instance store (i j : Int) (v : Addr) : Releases (Heap.store a i j v) := by
  unfold Heap.store
  infer_instance

instance callframePc : Releases (Heap.callframePc a) := by
  unfold Heap.callframePc
  infer_instance

instance callframeEnv : Releases (Heap.callframeEnv a) := by
  unfold Heap.callframeEnv
  infer_instance

instance blockframeEnv : Releases (Heap.blockframeEnv a) := by
  unfold Heap.blockframeEnv
  infer_instance

instance closureArity : Releases (Heap.closureArity a) := by
  unfold Heap.closureArity
  infer_instance

instance closurePc : Releases (Heap.closurePc a) := by
  unfold Heap.closurePc
  infer_instance

instance closureEnv : Releases (Heap.closureEnv a) := by
  unfold Heap.closureEnv
  infer_instance

instance ringNext (b : UInt8) (n : Nat) : Releases (Heap.ringNext b n) := by
  unfold Heap.ringNext
  infer_instance

instance queueLen : Releases (Heap.queueLen a) := by
  unfold Heap.queueLen
  infer_instance

instance enqueue (w : Waiter) : Releases (Heap.enqueue a w) := by
  unfold Heap.enqueue
  infer_instance

instance dequeue : Releases (Heap.dequeue a) := by
  unfold Heap.dequeue
  infer_instance

instance chanCap : Releases (Heap.chanCap a) := by
  unfold Heap.chanCap
  infer_instance

instance chanLen : Releases (Heap.chanLen a) := by
  unfold Heap.chanLen
  infer_instance

instance chanClosed : Releases (Heap.chanClosed a) := by
  unfold Heap.chanClosed
  infer_instance

instance closeChan : Releases (Heap.closeChan a) := by
  unfold Heap.closeChan
  infer_instance

instance sendQueue : Releases (Heap.sendQueue a) := by
  unfold Heap.sendQueue
  infer_instance

instance recvQueue : Releases (Heap.recvQueue a) := by
  unfold Heap.recvQueue
  infer_instance

instance chanPush (v : Addr) : Releases (Heap.chanPush a v) := by
  unfold Heap.chanPush
  infer_instance

instance chanPop : Releases (Heap.chanPop a) := by
  unfold Heap.chanPop
  infer_instance

instance groupCounter : Releases (Heap.groupCounter a) := by
  unfold Heap.groupCounter
  infer_instance

instance setGroupCounter (n : Int32) : Releases (Heap.setGroupCounter a n) := by
  unfold Heap.setGroupCounter
  infer_instance

instance groupWaiters : Releases (Heap.groupWaiters a) := by
  unfold Heap.groupWaiters
  infer_instance

instance addGroupWaiter (id : Nat) : Releases (Heap.addGroupWaiter a id) := by
  unfold Heap.addGroupWaiter
  infer_instance

instance drainGroupWaiters : Releases (Heap.drainGroupWaiters a) := by
  unfold Heap.drainGroupWaiters
  infer_instance

instance newInt (n : Int64) : Releases (Heap.newInt roots n) := by
  unfold Heap.newInt
  infer_instance

instance newFrame (n : Int) : Releases (Heap.newFrame roots n) := by
  unfold Heap.newFrame
  infer_instance

instance extend (b : Addr) : Releases (Heap.extend roots a b) := by
  unfold Heap.extend
  infer_instance

instance newCallframe (pc : Int) : Releases (Heap.newCallframe roots pc a) := by
  unfold Heap.newCallframe
  infer_instance

instance newBlockframe : Releases (Heap.newBlockframe roots a) := by
  unfold Heap.newBlockframe
  infer_instance

instance newClosure (k pc : Int) : Releases (Heap.newClosure roots k pc a) := by
  unfold Heap.newClosure
  infer_instance

instance newWaitQueue : Releases (Heap.newWaitQueue roots) := by
  unfold Heap.newWaitQueue
  infer_instance

instance newChannel (n : Int) : Releases (Heap.newChannel roots n) := by
  unfold Heap.newChannel
  infer_instance

instance newWaitGroup : Releases (Heap.newWaitGroup roots) := by
  unfold Heap.newWaitGroup
  infer_instance

instance format : Releases (Heap.format a) := by
  unfold Heap.format
  refine seq (tagOf a) fun tag => ?_
  split <;> infer_instance

/-- A host's value may be refused for what it is. -/
theorem box (v : Constant) (h : Heap) : Settles (fun h' => h'.pinned = h.pinned) (Heap.box roots v h) := by
  unfold Heap.box
  cases v with
  | int kind n => exact (newInt roots n).pins h
  | ref b =>
    have look : Settles (fun h' : Heap => h'.pinned = h.pinned) ((get : HeapM Heap) h) := rfl
    refine look.bind (fun h₁ h' _ same => ?_) fun _ => id
    split
    · refine Settles.bind ((tagOf b).pins h') (fun tag h₂ _ same' => ?_) fun _ same' => same'.trans same
      split <;> exact same'.trans same
    · exact same
  | _ => rfl

end Nodes

end Releases

end Heap

end FiberVm
