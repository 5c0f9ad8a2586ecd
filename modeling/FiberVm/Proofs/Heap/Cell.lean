import FiberVm.Proofs.Word
import FiberVm.Heap.Channel
import FiberVm.Heap.Nodes

/-!
# Cells of a node

A node is sixteen cells. Inside a node every access of the heap succeeds, reads the cell named and
writes nothing but the cell named; two cells are the same only if both the node and the index are.
-/

set_option autoImplicit false

namespace FiberVm

section Result

variable {ε σ α β : Type} {x : EStateM ε σ α} {f : α → EStateM ε σ β} {s s' : σ}

theorem bind_of_ok {a : α} (h : x s = .ok a s') : (x >>= f) s = f a s' := by
  change EStateM.bind x f s = f a s'
  simp only [EStateM.bind, h]

theorem bind_of_error {e : ε} (h : x s = .error e s') : (x >>= f) s = .error e s' := by
  change EStateM.bind x f s = .error e s'
  simp only [EStateM.bind, h]

/-- What an operation returns can be found by evaluation, the state that it leaves often cannot. -/
theorem ok_of_run' {a : α} (h : x.run' s = some a) : ∃ s', x s = .ok a s' := by
  unfold EStateM.run' EStateM.run at h
  cases run : x s with
  | ok b s' =>
    rw [run] at h
    exact ⟨s', by rw [Option.some.inj h]⟩
  | error e s' =>
    rw [run] at h
    cases h

end Result

namespace Heap

/-- The address is a multiple of the node size and the whole node lies inside the array. -/
def NodeIn (words : Array Word) (a : Addr) : Prop :=
  a.toNat % nodeSize = 0 ∧ a.toNat + nodeSize ≤ words.size

/-- Cell `i` of the node at `a`; cell 0 is the header. -/
def cell (words : Array Word) (a : Addr) (i : Nat) : Word := words.getD (a.toNat + i) 0

/-- Replaces cell `i` of the node at `a`. -/
def put (h : Heap) (a : Addr) (i : Nat) (w : Word) : Heap :=
  { h with words := h.words.setIfInBounds (a.toNat + i) w }

section Access

variable {words : Array Word} {a b : Addr} {i j : Nat} {h : Heap} {w : Word}

theorem getElem?_of_nodeIn (ha : NodeIn words a) (hi : i < nodeSize) :
    words[a.toNat + i]? = some (cell words a i) := by
  have lt : a.toNat + i < words.size := by have := ha.2; omega
  simp [cell, Array.getD_eq_getD_getElem?, Array.getElem?_eq_getElem lt]

theorem nodeIn_congr {words' : Array Word} (size : words'.size = words.size) : NodeIn words' a ↔ NodeIn words a := by
  simp only [NodeIn, size]

theorem index_eq_iff (ha : a.toNat % nodeSize = 0) (hb : b.toNat % nodeSize = 0)
    (hi : i < nodeSize) (hj : j < nodeSize) : a.toNat + i = b.toNat + j ↔ a = b ∧ i = j := by
  rw [← UInt32.toNat_inj]
  unfold nodeSize at *
  omega

theorem cell_setIfInBounds (ha : NodeIn words a) (hb : b.toNat % nodeSize = 0)
    (hi : i < nodeSize) (hj : j < nodeSize) :
    cell (words.setIfInBounds (a.toNat + i) w) b j =
      if a = b ∧ i = j then w else cell words b j := by
  have lt : a.toNat + i < words.size := by have := ha.2; omega
  simp only [cell, Array.getD_eq_getD_getElem?, Array.getElem?_setIfInBounds,
    index_eq_iff ha.1 hb hi hj]
  split
  · rfl
  · rfl

@[simp] theorem put_freeHead : (h.put a i w).freeHead = h.freeHead := rfl
@[simp] theorem put_pinned : (h.put a i w).pinned = h.pinned := rfl
@[simp] theorem put_stats : (h.put a i w).stats = h.stats := rfl
@[simp] theorem put_size : (h.put a i w).words.size = h.words.size := by simp [put]

theorem nodeIn_put : NodeIn (h.put a i w).words b ↔ NodeIn h.words b :=
  nodeIn_congr put_size

theorem cell_put (ha : NodeIn h.words a) (hb : NodeIn h.words b) (hi : i < nodeSize)
    (hj : j < nodeSize) :
    cell (h.put a i w).words b j = if a = b ∧ i = j then w else cell h.words b j :=
  cell_setIfInBounds ha hb.1 hi hj

theorem header_ok (ha : NodeIn h.words a) : header a h = .ok (cell h.words a 0) h := by
  have get := getElem?_of_nodeIn ha (show 0 < nodeSize by decide)
  simp only [header, readWord, Int.toNat_natCast]
  rw [if_neg (by omega)]
  rw [Nat.add_zero] at get
  rw [get]

theorem readWord_ok (ha : NodeIn h.words a) (hi : i < nodeSize) :
    readWord ((a.toNat + i : Nat) : Int) h = .ok (cell h.words a i) h := by
  simp only [readWord, Int.toNat_natCast]
  rw [if_neg (by omega), getElem?_of_nodeIn ha hi]

theorem writeWord_ok (ha : NodeIn h.words a) (hi : i < nodeSize) :
    writeWord ((a.toNat + i : Nat) : Int) w h = .ok () (h.put a i w) := by
  have lt : a.toNat + i < h.words.size := by have := ha.2; omega
  simp only [writeWord, Int.toNat_natCast]
  rw [if_pos ⟨by omega, lt⟩]
  rfl

theorem payload_ok (ha : NodeIn h.words a) {k : Int} (hk : k = i) (hi : i + 1 < nodeSize) :
    payload a k h = .ok (cell h.words a (i + 1)) h := by
  rw [← readWord_ok ha hi, payload, hk]
  congr 1
  omega

theorem setPayload_ok (ha : NodeIn h.words a) {k : Int} (hk : k = i) (hi : i + 1 < nodeSize) :
    setPayload a k w h = .ok () (h.put a (i + 1) w) := by
  rw [← writeWord_ok ha hi, setPayload, hk]
  congr 1
  omega

theorem modifyHeader_ok (ha : NodeIn h.words a) (f : Word → Word) :
    modifyHeader a f h = .ok () (h.put a 0 (f (cell h.words a 0))) := by
  rw [modifyHeader, bind_of_ok (header_ok ha)]
  exact writeWord_ok ha (i := 0) (by decide)

theorem tagOf_ok (ha : NodeIn h.words a) :
    tagOf a h = .ok ⟨(cell h.words a 0).byte 0⟩ h := bind_of_ok (header_ok ha)

theorem field_ok (ha : NodeIn h.words a) (k : Nat) :
    field a k h = .ok ((cell h.words a 0).byte k) h := bind_of_ok (header_ok ha)

theorem setField_ok (ha : NodeIn h.words a) (k : Nat) (v : UInt8) :
    setField a k v h = .ok () (h.put a 0 ((cell h.words a 0).setByte k v)) := modifyHeader_ok ha _

theorem wideField_ok (ha : NodeIn h.words a) :
    wideField a h = .ok (cell h.words a 0).high h := bind_of_ok (header_ok ha)

theorem setWideField_ok (ha : NodeIn h.words a) (v : UInt32) :
    setWideField a v h = .ok () (h.put a 0 ((cell h.words a 0).setHigh v)) := modifyHeader_ok ha _

theorem childCount_ok (ha : NodeIn h.words a) :
    childCount a h = .ok ((((cell h.words a 0).byte 1).toNat : Int) - 1) h := by
  have size : sizeOf a h = .ok ((cell h.words a 0).byte 1).toNat h := bind_of_ok (header_ok ha)
  exact bind_of_ok size

theorem child_ok (ha : NodeIn h.words a) {k : Int} (hk : k = i) (hi : i + 1 < nodeSize) :
    child a k h = .ok (cell h.words a (i + 1)).low h := bind_of_ok (payload_ok ha hk hi)

theorem setChild_ok (ha : NodeIn h.words a) {k : Int} (hk : k = i) (hi : i + 1 < nodeSize)
    (c : Addr) : setChild a k c h = .ok () (h.put a (i + 1) c.toUInt64) := setPayload_ok ha hk hi

end Access

/-- The node at `a` is the same in both arrays. -/
def SameNode (words words' : Array Word) (a : Addr) : Prop :=
  ∀ i < nodeSize, cell words' a i = cell words a i

theorem SameNode.trans {words words' words'' : Array Word} {a : Addr}
    (h : SameNode words words' a) (h' : SameNode words' words'' a) : SameNode words words'' a :=
  fun i hi => (h' i hi).trans (h i hi)

theorem sameNode_put {h : Heap} {a b : Addr} {i : Nat} {w : Word} (ha : NodeIn h.words a)
    (hb : NodeIn h.words b) (hi : i < nodeSize) (ne : b ≠ a) :
    SameNode h.words (h.put a i w).words b := by
  intro j hj
  rw [cell_put ha hb hi hj, if_neg (fun e => ne e.1.symm)]

end Heap

end FiberVm
