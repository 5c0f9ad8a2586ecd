import FiberVm.Heap.Basic

/-!
# Mark and sweep

Marking walks everything reachable from the roots and the pins over an explicit stack; nodes below
`bottom` are never entered. Each node is entered once, which is why the walk ends: the number of
unmarked words goes down, or the stack gets shorter. Sweeping then goes upward through the
collectable nodes, clears the marks and threads every unmarked node onto a fresh free list, so that
the list hands out the highest dead address first.
-/

set_option autoImplicit false

namespace FiberVm

namespace Word

def isMarked (w : Word) : Bool := w.byte 2 != 0

def mark (w : Word) : Word := w ||| (0x10000 : UInt64)

def unmark (w : Word) : Word := w &&& ~~~(0xFF0000 : UInt64)

@[simp] theorem isMarked_mark (w : Word) : w.mark.isMarked = true := by
  simp only [isMarked, mark, byte, bne_iff_ne, ne_eq]
  intro h
  have bit := congrArg (fun x : UInt8 => x.toNat.testBit 0) h
  simp [-Nat.testBit_zero] at bit
  rw [show 256 = 2 ^ 8 from rfl, Nat.testBit_mod_two_pow, Nat.testBit_shiftRight,
    Nat.testBit_or] at bit
  have set : Nat.testBit 65536 (16 + 0) = true := by decide
  simp [set] at bit

end Word

namespace Heap

/-- Word `i` of the node at `a`, counted from its header. -/
def nodeWord (words : Array Word) (a : Addr) (i : Nat) : Except Crash Word :=
  match words[a.toNat + i]? with
  | some w => .ok w
  | none => .error .outOfRange

/-- The references in slots `start + (first + k) mod ring` for `k` below `count`. -/
def ringWords (words : Array Word) (a : Addr) (start first count ring : Nat) :
    Except Crash (List Word) :=
  if ring = 0 ∧ count ≠ 0 then .error .emptyRing
  else (List.range count).mapM fun k => nodeWord words a (start + (first + k) % ring)

/-- The heap references that the node at `a` holds, in the order of its slots. A parked fiber's
entry packs its id with a value, and only the value is a reference. -/
def references (words : Array Word) (a : Addr) : Except Crash (List Addr) := do
  let w ← nodeWord words a 0
  match (⟨w.byte 0⟩ : Tag) with
  | .nil | .unassigned | .true | .false | .int | .builtin | .waitGroup => return []
  | .frame | .environment | .callframe | .blockframe | .closure =>
    let children ← (List.range ((w.byte 1).toNat - 1)).mapM fun i => nodeWord words a (1 + i)
    return children.map Word.low
  | .intChannel =>
    let sendq ← nodeWord words a 1
    let recvq ← nodeWord words a 2
    let items ← ringWords words a 3 (w.byte 4).toNat (w.byte 6).toNat (w.byte 7).toNat
    return sendq.low :: recvq.low :: items.map Word.low
  | .waitQueue =>
    let waiters ← ringWords words a 1 (w.byte 3).toNat (w.byte 5).toNat maxChildren
    return (waiters.map Word.low).filter (· != noAddr)
  | .free => throw (.markFree a)
  | tag => throw (.markCorrupt a tag)

/-- The number of words whose mark byte is clear. -/
def unmarkedCount (words : Array Word) : Nat := words.countP (fun w => !w.isMarked)

theorem unmarkedCount_mark_lt (words : Array Word) (i : Nat) (h : i < words.size)
    (clear : ¬ words[i].isMarked = Bool.true) :
    unmarkedCount (words.set i words[i].mark) < unmarkedCount words := by
  have before : (!words[i].isMarked) = Bool.true := by simpa using clear
  have pos : 0 < words.countP (fun w => !w.isMarked) :=
    Array.countP_pos_iff.2 ⟨words[i], Array.getElem_mem h, before⟩
  have after : (!words[i].mark.isMarked) = Bool.false := by rw [Word.isMarked_mark]; rfl
  unfold unmarkedCount
  rw [Array.countP_set h, if_pos before, if_neg (by rw [after]; exact Bool.false_ne_true)]
  omega

/-- Marks everything reachable from the stack. A crash leaves the marks set so far. -/
def mark (words : Array Word) (stack : List Addr) : EStateM.Result Crash (Array Word) Unit :=
  match stack with
  | [] => .ok () words
  | a :: rest =>
    if a = noAddr ∨ a < bottom then mark words rest
    else if h : a.toNat < words.size then
      if clear : words[a.toNat].isMarked then mark words rest
      else
        match references (words.set a.toNat words[a.toNat].mark) a with
        | .ok as => mark (words.set a.toNat words[a.toNat].mark) (as.reverse ++ rest)
        | .error c => .error c (words.set a.toNat words[a.toNat].mark)
    else .error .outOfRange words
termination_by (unmarkedCount words, stack.length)
decreasing_by
  · exact Prod.Lex.right _ (by simp)
  · exact Prod.Lex.right _ (by simp)
  · exact Prod.Lex.left _ _ (unmarkedCount_mark_lt words a.toNat h clear)

/-- What a sweep has built so far. -/
structure Sweep where
  words : Array Word
  free : Option Addr
  count : Nat

/-- Passes over one node: a marked one loses its mark, any other goes onto the free list. -/
def Sweep.visit (s : Sweep) (a : Nat) : Sweep :=
  let w := s.words.getD a 0
  if w.isMarked then { s with words := s.words.setIfInBounds a w.unmark }
  else
    { words := s.words.setIfInBounds a (freeWord s.free)
      free := some a.toUInt32
      count := s.count + 1 }

/-- The collectable node addresses of an array of words, ascending. -/
def collectable (size : Nat) : List Nat :=
  (List.range (size / nodeSize - reservedNodes)).map fun i => bottom.toNat + nodeSize * i

/-- Clears the marks and rebuilds the free list from the unmarked nodes. -/
def sweep (words : Array Word) : Sweep :=
  (collectable words.size).foldl Sweep.visit ⟨words, none, 0⟩

/-- Frees every collectable node that neither the roots nor the pins reach, and returns the number
of nodes on the free list afterwards. -/
def collect (roots : List Addr) : HeapM Nat := fun h =>
  match mark h.words (roots ++ h.pinned) with
  | .error c words => .error (.crash c) { h with words := words }
  | .ok _ words =>
    let s := sweep words
    .ok s.count
      { h with
        words := s.words
        freeHead := s.free
        stats :=
          { h.stats with
            freeNodes := s.count
            collections := h.stats.collections + 1
            freed := h.stats.freed + UInt64.ofInt (s.count - h.stats.freeNodes) } }

end Heap

end FiberVm
