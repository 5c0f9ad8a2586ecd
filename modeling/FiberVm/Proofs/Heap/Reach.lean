import FiberVm.Proofs.Heap.Cell

/-!
# Layouts, references and reachability

A node in use has one of fourteen layouts. A layout fixes how many words the node uses, and with that
where its references lie: always inside the node. So the references of a laid-out node are a plain
function of its own cells, and the mark byte is not among what they are read from.

Reachability is the closure of the roots under these references. Cycles are allowed. A collection does
not look into reserved nodes, and neither does the closure.
-/

set_option autoImplicit false

namespace FiberVm

namespace Heap

abbrev tagAt (words : Array Word) (a : Addr) : Tag := ⟨(cell words a 0).byte 0⟩

/-- The node at `a` has one of the fourteen tags and the size that belongs to it. A ring without
slots holds nothing. -/
def Layout (words : Array Word) (a : Addr) : Prop :=
  let w := cell words a 0
  let size := (w.byte 1).toNat
  match tagAt words a with
  | .nil | .unassigned | .true | .false | .builtin => size = 1
  | .int | .callframe | .blockframe | .closure => size = 2
  | .frame | .environment => 1 ≤ size ∧ size ≤ nodeSize
  | .intChannel =>
    size = 3 + (w.byte 7).toNat ∧ size ≤ nodeSize ∧ ((w.byte 7).toNat = 0 → (w.byte 6).toNat = 0)
  | .waitQueue | .waitGroup => size = nodeSize
  | _ => False

/-- The words in slots `start + (first + k) mod ring` for `k` below `count`. -/
def ringCells (words : Array Word) (a : Addr) (start first count ring : Nat) : List Word :=
  (List.range count).map fun k => cell words a (start + (first + k) % ring)

/-- The references of a node that has a layout, read off its cells. -/
def refs (words : Array Word) (a : Addr) : List Addr :=
  let w := cell words a 0
  match tagAt words a with
  | .frame | .environment | .callframe | .blockframe | .closure =>
    (List.range ((w.byte 1).toNat - 1)).map fun i => (cell words a (1 + i)).low
  | .intChannel =>
    (cell words a 1).low :: (cell words a 2).low ::
      (ringCells words a 3 (w.byte 4).toNat (w.byte 6).toNat (w.byte 7).toNat).map Word.low
  | .waitQueue =>
    ((ringCells words a 1 (w.byte 3).toNat (w.byte 5).toNat maxChildren).map Word.low).filter
      (· != noAddr)
  | _ => []

theorem mapM_ok {ε α β : Type} {f : α → Except ε β} {g : α → β} {l : List α}
    (h : ∀ x ∈ l, f x = .ok (g x)) : l.mapM f = .ok (l.map g) := by
  induction l with
  | nil => rfl
  | cons x l ih =>
    rw [List.mapM_cons, h x List.mem_cons_self, ih fun y hy => h y (List.mem_cons_of_mem x hy)]
    rfl

section References

variable {words words' : Array Word} {a b : Addr}

theorem nodeWord_ok (ha : NodeIn words a) {i : Nat} (hi : i < nodeSize) :
    nodeWord words a i = .ok (cell words a i) := by
  rw [nodeWord, getElem?_of_nodeIn ha hi]

theorem ringWords_ok (ha : NodeIn words a) {start first count ring : Nat}
    (empty : ring = 0 → count = 0) (fits : start + ring ≤ nodeSize) :
    ringWords words a start first count ring = .ok (ringCells words a start first count ring) := by
  rw [ringWords, if_neg (fun h => h.2 (empty h.1))]
  apply mapM_ok
  intro k hk
  have pos : 0 < ring := by
    have := List.mem_range.1 hk
    omega
  have lt := Nat.mod_lt (first + k) pos
  exact nodeWord_ok ha (by omega)

theorem noSlots {count : Nat} (h : maxChildren = 0) : count = 0 := by
  simp [maxChildren] at h

def IsScalar (t : Tag) : Prop :=
  t = .nil ∨ t = .unassigned ∨ t = .true ∨ t = .false ∨ t = .int ∨ t = .builtin ∨ t = .waitGroup

/-- The tags of nodes all of whose words are references. -/
def IsPointers (t : Tag) : Prop :=
  t = .frame ∨ t = .environment ∨ t = .callframe ∨ t = .blockframe ∨ t = .closure

/-- The node at `a` has one of the fourteen tags and its references lie inside it, whatever its size. As
far as references go, there are four layouts. -/
def Regular (words : Array Word) (a : Addr) : Prop :=
  IsScalar (tagAt words a) ∨
  (IsPointers (tagAt words a) ∧ ((cell words a 0).byte 1).toNat ≤ nodeSize) ∨
  (tagAt words a = .intChannel ∧
    3 + ((cell words a 0).byte 7).toNat ≤ nodeSize ∧
    (((cell words a 0).byte 7).toNat = 0 → ((cell words a 0).byte 6).toNat = 0)) ∨
  tagAt words a = .waitQueue

theorem Layout.regular (layout : Layout words a) : Regular words a := by
  unfold Layout at layout
  unfold Regular
  dsimp only at layout
  unfold nodeSize at *
  split at layout
  case h_15 => exact layout.elim
  case h_12 tag => exact .inr (.inr (.inl ⟨tag, by omega, layout.2.2⟩))
  case h_13 tag => exact .inr (.inr (.inr tag))
  case h_7 tag | h_8 tag | h_9 tag | h_10 tag | h_11 tag =>
    rw [tag]
    exact .inr (.inl ⟨by simp [IsPointers, Tag.frame, Tag.environment, Tag.callframe,
      Tag.blockframe, Tag.closure], by omega⟩)
  all_goals
    rename_i tag
    rw [tag]
    exact .inl (by simp [IsScalar, Tag.nil, Tag.unassigned, Tag.true, Tag.false, Tag.int,
      Tag.builtin, Tag.waitGroup])

theorem refs_of_scalar (tag : IsScalar (tagAt words a)) : refs words a = [] := by
  unfold refs
  dsimp only
  rcases tag with h | h | h | h | h | h | h <;> rw [h] <;> rfl

theorem refs_of_pointers (tag : IsPointers (tagAt words a)) :
    refs words a = (List.range (((cell words a 0).byte 1).toNat - 1)).map
      fun i => (cell words a (1 + i)).low := by
  unfold refs
  dsimp only
  rcases tag with h | h | h | h | h <;> rw [h] <;> rfl

theorem refs_of_channel (tag : tagAt words a = .intChannel) :
    refs words a = (cell words a 1).low :: (cell words a 2).low ::
      (ringCells words a 3 ((cell words a 0).byte 4).toNat ((cell words a 0).byte 6).toNat
        ((cell words a 0).byte 7).toNat).map Word.low := by
  unfold refs
  dsimp only
  rw [tag]
  rfl

theorem refs_of_queue (tag : tagAt words a = .waitQueue) :
    refs words a = ((ringCells words a 1 ((cell words a 0).byte 3).toNat
      ((cell words a 0).byte 5).toNat maxChildren).map Word.low).filter (· != noAddr) := by
  unfold refs
  dsimp only
  rw [tag]
  rfl

theorem references_of_regular (ha : NodeIn words a) (regular : Regular words a) :
    references words a = .ok (refs words a) := by
  have first := nodeWord_ok ha (i := 0) (by decide)
  unfold references
  simp only [first, bind, Except.bind]
  rw [show (⟨(cell words a 0).byte 0⟩ : Tag) = tagAt words a from rfl]
  rcases regular with tag | ⟨tag, le⟩ | ⟨tag, le, empty⟩ | tag
  · rw [refs_of_scalar tag]
    rcases tag with h | h | h | h | h | h | h <;> rw [h] <;> rfl
  · have children : (List.range (((cell words a 0).byte 1).toNat - 1)).mapM
          (fun i => nodeWord words a (1 + i)) =
        .ok ((List.range (((cell words a 0).byte 1).toNat - 1)).map
          fun i => cell words a (1 + i)) := by
      apply mapM_ok
      intro i hi
      have := List.mem_range.1 hi
      exact nodeWord_ok ha (by omega)
    rw [refs_of_pointers tag]
    rcases tag with h | h | h | h | h <;> rw [h] <;>
      simp [Tag.frame, Tag.environment, Tag.callframe, Tag.blockframe, Tag.closure, children,
        pure, Except.pure]
  · rw [refs_of_channel tag, tag]
    simp [Tag.intChannel, nodeWord_ok ha (i := 1) (by decide), nodeWord_ok ha (i := 2) (by decide),
      ringWords_ok ha empty le, pure, Except.pure]
  · have ring : ringWords words a 1 ((cell words a 0).byte 3).toNat
        ((cell words a 0).byte 5).toNat maxChildren = .ok _ := ringWords_ok ha noSlots (by decide)
    rw [refs_of_queue tag, tag]
    simp [Tag.waitQueue, ring, pure, Except.pure]

/-- Two arrays agree on a node but for its mark byte. -/
def SameBody (words words' : Array Word) (a : Addr) : Prop :=
  (∀ k < 8, k ≠ 2 → (cell words' a 0).byte k = (cell words a 0).byte k) ∧
    ∀ i < nodeSize, i ≠ 0 → cell words' a i = cell words a i

theorem SameNode.sameBody (same : SameNode words words' a) : SameBody words words' a :=
  ⟨fun k _ _ => by rw [same 0 (by decide)], fun i hi _ => same i hi⟩

theorem SameBody.tagAt (same : SameBody words words' a) : tagAt words' a = tagAt words a := by
  rw [Heap.tagAt, Heap.tagAt, same.1 0 (by decide) (by decide)]

theorem SameBody.layout (same : SameBody words words' a) (layout : Layout words a) :
    Layout words' a := by
  unfold Layout at layout ⊢
  simpa only [same.tagAt, same.1 1 (by decide) (by decide),
    same.1 6 (by decide) (by decide), same.1 7 (by decide) (by decide)] using layout

theorem SameBody.regular (same : SameBody words words' a) (regular : Regular words a) :
    Regular words' a := by
  unfold Regular at regular ⊢
  simpa only [same.tagAt, same.1 1 (by decide) (by decide),
    same.1 6 (by decide) (by decide), same.1 7 (by decide) (by decide)] using regular

theorem ringCells_congr (same : ∀ i < nodeSize, i ≠ 0 → cell words' a i = cell words a i)
    {start first count ring : Nat} (pos : 0 < start) (empty : ring = 0 → count = 0)
    (fits : start + ring ≤ nodeSize) :
    ringCells words' a start first count ring = ringCells words a start first count ring := by
  apply List.map_congr_left
  intro k hk
  have slots : 0 < ring := by
    have := List.mem_range.1 hk
    omega
  have lt := Nat.mod_lt (first + k) slots
  exact same _ (by omega) (by omega)

theorem SameBody.refs (same : SameBody words words' a) (regular : Regular words a) :
    refs words' a = refs words a := by
  have byte : ∀ k < 8, k ≠ 2 → (cell words' a 0).byte k = (cell words a 0).byte k := same.1
  have tag' := same.tagAt
  rcases regular with tag | ⟨tag, le⟩ | ⟨tag, le, empty⟩ | tag
  · rw [refs_of_scalar tag, refs_of_scalar (tag' ▸ tag)]
  · rw [refs_of_pointers tag, refs_of_pointers (tag' ▸ tag), byte 1 (by decide) (by decide)]
    apply List.map_congr_left
    intro i hi
    have := List.mem_range.1 hi
    rw [same.2 (1 + i) (by omega) (by omega)]
  · rw [refs_of_channel tag, refs_of_channel (tag' ▸ tag), same.2 1 (by decide) (by decide),
      same.2 2 (by decide) (by decide), byte 4 (by decide) (by decide),
      byte 6 (by decide) (by decide), byte 7 (by decide) (by decide),
      ringCells_congr same.2 (by decide) empty le]
  · rw [refs_of_queue tag, refs_of_queue (tag' ▸ tag), byte 3 (by decide) (by decide),
      byte 5 (by decide) (by decide),
      ringCells_congr same.2 (by decide) noSlots (by decide)]

/-- The node at `a` holds a reference to `b`. -/
def Refers (words : Array Word) (a b : Addr) : Prop :=
  ∃ as, references words a = .ok as ∧ b ∈ as

theorem refers_iff_of_regular (ha : NodeIn words a) (regular : Regular words a) :
    Refers words a b ↔ b ∈ refs words a := by
  simp [Refers, references_of_regular ha regular]

theorem refers_iff (ha : NodeIn words a) (layout : Layout words a) :
    Refers words a b ↔ b ∈ refs words a := refers_iff_of_regular ha layout.regular

end References

/-- An address at which a collection stops: none at all, or a reserved node. -/
def Skipped (a : Addr) : Prop := a = noAddr ∨ a < bottom

/-- The closure of the roots under the references of collectable nodes. Reserved nodes are reached but
not entered. -/
inductive Reaches (words : Array Word) (roots : List Addr) : Addr → Prop
  | root {a : Addr} : a ∈ roots → Reaches words roots a
  | step {a b : Addr} : Reaches words roots a → bottom ≤ a → Refers words a b → Reaches words roots b

namespace Reaches

variable {words words' : Array Word} {roots roots' : List Addr} {a b : Addr}

theorem mono (h : Reaches words roots a) (sub : ∀ r ∈ roots, Reaches words roots' r) :
    Reaches words roots' a := by
  induction h with
  | root mem => exact sub _ mem
  | step _ le refers ih => exact .step ih le refers

theorem of_subset (h : Reaches words roots a) (sub : roots ⊆ roots') : Reaches words roots' a :=
  h.mono fun _ mem => .root (sub mem)

theorem mem_of_closed {S : Addr → Prop} (h : Reaches words roots a) (start : ∀ r ∈ roots, S r)
    (closed : ∀ x y, S x → bottom ≤ x → Refers words x y → S y) : S a := by
  induction h with
  | root mem => exact start _ mem
  | step _ le refers ih => exact closed _ _ ih le refers

end Reaches

/-- Every collectable address that the roots reach is a laid-out node. -/
def Traceable (words : Array Word) (roots : List Addr) : Prop :=
  ∀ a, Reaches words roots a → Skipped a ∨ NodeIn words a ∧ Layout words a

/-- Every collectable address that the roots reach is a node whose references lie inside it. -/
def Traced (words : Array Word) (roots : List Addr) : Prop :=
  ∀ a, Reaches words roots a → Skipped a ∨ NodeIn words a ∧ Regular words a

theorem Traceable.traced {words : Array Word} {roots : List Addr} (traceable : Traceable words roots) :
    Traced words roots := fun a reach =>
  (traceable a reach).imp_right fun ⟨ha, layout⟩ => ⟨ha, layout.regular⟩

end Heap

end FiberVm
