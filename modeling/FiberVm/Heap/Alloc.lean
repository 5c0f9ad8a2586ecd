import FiberVm.Heap.Collect

/-!
# Making heaps, taking and returning nodes

A new heap has its reserved nodes in place and the rest linked in ascending order. Taking a node
pops the head of the free list, after a collection if the list is empty; returning one pushes it.
The roots are only looked at when a collection is due. They come in no particular order: every collection
may visit them in another one.
-/

set_option autoImplicit false

namespace FiberVm

namespace Heap

/-- Why a heap of the wanted size cannot be made. -/
inductive SizeError
  | notMultiple (words : Int)
  | tooLarge (words : Int)
  | tooSmall (words : Int)
deriving DecidableEq, Repr

def SizeError.message : SizeError → String
  | notMultiple n => s!"heap size {n} must be a positive multiple of 16"
  | tooLarge n => s!"heap size {n} exceeds the 32-bit address limit"
  | tooSmall n => s!"heap size {n} leaves no room beyond the 16 reserved nodes"

/-- The header of reserved node number `n`. -/
def reservedHeader (n : Nat) : Word :=
  match n with
  | 0 => freshHeader .nil 1
  | 1 => freshHeader .unassigned 1
  | 2 => freshHeader .true 1
  | 3 => freshHeader .false 1
  | 14 => freshHeader .frame (Builtin.count + 1)
  | 15 => freshHeader .environment 2
  | n =>
    match Builtin.table[n - 4]? with
    | some row => ((freshHeader .builtin 1).setByte 3 (n - 4).toUInt8).setByte 4 row.2.toUInt8
    | none => 0

/-- Word `i` of the reserved area. -/
def reservedWord (i : Nat) : Word :=
  if i % nodeSize = 0 then reservedHeader (i / nodeSize)
  else if builtinsFrame.toNat < i ∧ i ≤ builtinsFrame.toNat + Builtin.count then
    (firstBuiltin.toNat + nodeSize * (i - builtinsFrame.toNat - 1)).toUInt64
  else if i = globalEnv.toNat + 1 then builtinsFrame.toUInt64
  else 0

/-- Word `i` of a new heap: the reserved area, then free nodes linked upward. -/
def initialWord (size i : Nat) : Word :=
  if i < bottom.toNat then reservedWord i
  else if i % nodeSize = 0 then
    freeWord (if i + nodeSize < size then some (i + nodeSize).toUInt32 else none)
  else 0

/-- A heap of the given number of words. -/
def create (size : Int) : Except SizeError Heap :=
  if size ≤ 0 ∨ size % nodeSize ≠ 0 then .error (.notMultiple size)
  else if size > maxWords then .error (.tooLarge size)
  else if size / nodeSize ≤ reservedNodes then .error (.tooSmall size)
  else
    let n := size.toNat
    .ok
      { words := Array.ofFn fun i : Fin n => initialWord n i
        freeHead := some bottom
        pinned := []
        stats :=
          { nodes := n / nodeSize
            freeNodes := ((n / nodeSize - reservedNodes : Nat) : Int)
            allocations := reservedNodes.toUInt64
            collections := 0
            freed := 0 } }

/-- Writes a fresh header at `a` and clears the words after it. -/
def stamp (words : Array Word) (a : Nat) (w : Word) : Array Word :=
  (List.range maxChildren).foldl (fun ws i => ws.setIfInBounds (a + 1 + i) 0)
    (words.setIfInBounds a w)

/-- Takes the free node at `a`, the head of the free list, into use. -/
def take (tag : Tag) (size : Nat) (a : Addr) : HeapM Addr := fun h =>
  match h.words[a.toNat]? with
  | none => .error (.crash .outOfRange) h
  | some link =>
    if a.toNat + nodeSize ≤ h.words.size then
      .ok a
        { h with
          words := stamp h.words a.toNat (freshHeader tag size)
          freeHead := nextFree link
          stats :=
            { h.stats with
              allocations := h.stats.allocations + 1
              freeNodes := h.stats.freeNodes - 1 } }
    else .error (.crash .outOfRange) h

/-- The roots of the collections that may become due. -/
structure Roots where
  all : Thunk (List Addr)
  /-- The roots in the order in which they are visited by a collection that `n` others came before. -/
  visit (n : UInt64) : List Addr
  perm (n : UInt64) : (visit n).Perm all.get

namespace Roots

def get (r : Roots) : List Addr := r.all.get

/-- Roots that are always visited in the order given. -/
instance : Coe (Thunk (List Addr)) Roots := ⟨fun roots => ⟨roots, fun _ => roots.get, fun _ => .refl _⟩⟩

def pure (roots : List Addr) : Roots := Thunk.pure roots

end Roots

/-- Takes a node off the free list. `size` counts the words in use including the header; outside
1 to 16 the call has no meaning. -/
def allocate (roots : Roots) (tag : Tag) (size : Int) : HeapM Addr := fun h =>
  if size < 1 ∨ (nodeSize : Int) < size then .error (.crash (.allocateSize tag size)) h
  else match h.freeHead with
    | some a => take tag size.toNat a h
    | none =>
      match collect (roots.visit h.stats.collections) h with
      | .error e h => .error e h
      | .ok _ h =>
        match h.freeHead with
        | some a => take tag size.toNat a h
        | none => .error (.fault (.outOfMemory h.stats.nodes)) h

/-- Puts a node back at the head of the free list. -/
def free (a : Addr) : HeapM Unit := fun h =>
  if a < bottom then .error (.crash (.freeReserved a)) h
  else if !h.isNode a then .error (.crash (.freeInvalid a)) h
  else if (h.words.getD a.toNat 0).byte 0 = 0 then .error (.crash (.doubleFree a)) h
  else
    .ok ()
      { h with
        words := h.words.setIfInBounds a.toNat (freeWord h.freeHead)
        freeHead := some a
        stats := { h.stats with freeNodes := h.stats.freeNodes + 1 } }

end Heap

end FiberVm
