import FiberVm.Proofs.Heap.Access
import FiberVm.Proofs.Heap.Collection

/-!
# Taking nodes into use

A node comes off the free list, if need be after a collection, or there is none. Either way everything
that the roots and the pins reach stays as it was; the node taken is none of these. The constructors add
what the node stands for.
-/

set_option autoImplicit false

namespace FiberVm

namespace Heap

/-- What the allocator keeps true of a heap. -/
structure Sound (h : Heap) : Prop where
  sized : Sized h.words
  unmarked : Unmarked h.words
  list : ∃ l, FreeList h.words h.freeHead l ∧ l.Nodup ∧ ∀ a ∈ l, NodeIn h.words a ∧ bottom ≤ a

theorem Sound.pin {h : Heap} (sound : Sound h) (as : List Addr) : Sound { h with pinned := as } :=
  ⟨sound.sized, sound.unmarked, sound.list⟩

theorem WellFormed.sound {h : Heap} {free : List Addr} (wf : h.WellFormed free) : Sound h :=
  ⟨wf.sized, wf.unmarked, free, wf.list, wf.nodup, wf.free_in⟩

/-- Reserved nodes and all that `roots` reach are in `h'` what they are in `h`. -/
structure Kept (roots : List Addr) (h h' : Heap) : Prop where
  sound : Sound h'
  size : h'.words.size = h.words.size
  pinned : h'.pinned = h.pinned
  same : ∀ b, NodeIn h.words b → b < bottom ∨ Reaches h.words roots b → SameNode h.words h'.words b

/-- The node at `a` has been taken into use. -/
structure Fresh (roots : List Addr) (h h' : Heap) (a : Addr) : Prop extends Kept roots h h' where
  high : bottom ≤ a
  unreached : ¬ Reaches h.words roots a

section

variable {h h' h'' : Heap} {roots : List Addr} {a : Addr}

theorem Sound.only (sound : Sound h) (used : tagAt h.words a ≠ .free) (only : Only h h' a)
    (clear : ¬ Marked h'.words a) : Sound h' := by
  obtain ⟨l, list, nodup, inside⟩ := sound.list
  have apart : ∀ b ∈ l, b ≠ a := by
    rintro b mem rfl
    exact used (list.tagAt mem)
  refine ⟨sound.sized.congr only.size, ?_,
    l, ?_, nodup, fun b mem => ⟨only.nodeIn.2 (inside b mem).1, (inside b mem).2⟩⟩
  · intro b hb
    by_cases same : b = a
    · rw [same]
      exact clear
    · replace hb := only.nodeIn.1 hb
      rw [Marked, only.others b hb same 0 (by decide)]
      exact sound.unmarked b hb
  · rw [only.freeHead]
    exact list.congr fun b mem => only.others b (inside b mem).1 (apart b mem) 0 (by decide)

theorem Sound.updates {n n' : Node} (sound : Sound h) (s : Shows h.words a n)
    (u : Updates h h' a n') : Sound h' :=
  sound.only s.layout.tagAt_ne u.toOnly u.shows.not_marked

theorem Collected.sound {l : List Addr} (sized : Sized h.words) (c : Collected h roots l h') :
    Sound h' := by
  refine ⟨sized.congr c.size, c.unmarked, l, c.list,
    nodup_of_descending c.descending, fun a mem => ?_⟩
  obtain ⟨ha, le, -⟩ := (c.mem_iff a).1 mem
  exact ⟨(nodeIn_congr c.size).2 ha, le⟩

theorem Collected.kept {l : List Addr} (sized : Sized h.words) (c : Collected h roots l h') :
    Kept (roots ++ h.pinned) h h' := by
  refine ⟨c.sound sized, c.size, c.pinned, ?_⟩
  rintro b hb (low | reach)
  · exact c.reserved b hb low
  · exact c.live b hb reach

theorem Kept.refl (sound : Sound h) (roots : List Addr) : Kept roots h h :=
  ⟨sound, rfl, rfl, fun _ _ _ _ _ => rfl⟩

theorem Kept.subset {roots' : List Addr} (kept : Kept roots' h h') (sub : roots ⊆ roots') : Kept roots h h' :=
  ⟨kept.sound, kept.size, kept.pinned, fun b hb live => kept.same b hb (live.imp_right (·.of_subset sub))⟩

theorem collect_kept (sound : Sound h) (traceable : Traceable h.words (roots ++ h.pinned)) :
    ∃ n h', collect roots h = .ok n h' ∧ Kept (roots ++ h.pinned) h h' := by
  obtain ⟨l, h', run, c⟩ := collect_collected sound.sized sound.unmarked traceable
  exact ⟨l.length, h', run, c.kept sound.sized⟩

theorem collect_visit (thunk : Roots) (n : UInt64) (sized : Sized h.words) (clear : Unmarked h.words)
    (traced : Traced h.words (thunk.get ++ h.pinned)) : collect (thunk.visit n) h = collect thunk.get h :=
  collect_eq_of_mem sized clear traced fun _ => (thunk.perm n).mem_iff

theorem Kept.traceable (kept : Kept roots h h') (small : h.words.size ≤ maxWords)
    (traceable : Traceable h.words roots) : Traceable h'.words roots :=
  traceable.of_same small kept.size fun b hb reach => kept.same b hb (.inr reach)

theorem Kept.reaches (kept : Kept roots h h') (small : h.words.size ≤ maxWords)
    (traceable : Traceable h.words roots) {b : Addr} :
    Reaches h'.words roots b ↔ Reaches h.words roots b :=
  reaches_iff_of_same small kept.size traceable fun b hb reach => kept.same b hb (.inr reach)

theorem Kept.trans (kept : Kept roots h h') (kept' : Kept roots h' h'')
    (small : h.words.size ≤ maxWords) (traceable : Traceable h.words roots) : Kept roots h h'' := by
  refine ⟨kept'.sound, kept'.size.trans kept.size, kept'.pinned.trans kept.pinned, ?_⟩
  intro b hb live
  refine (kept.same b hb live).trans (kept'.same b ?_ ?_)
  · exact (nodeIn_congr kept.size).2 hb
  · exact live.imp_right (kept.reaches small traceable).2

end

/-- The cells of a node that has just been taken. -/
def blank (tag : Tag) (size : Nat) : Nat → Word := fun i => if i = 0 then freshHeader tag size else 0

theorem getD_clear (words : Array Word) (a n k : Nat) (inside : a + 1 + n ≤ words.size) :
    ((List.range n).foldl (fun ws i => ws.setIfInBounds (a + 1 + i) 0) words).size = words.size ∧
    ((List.range n).foldl (fun ws i => ws.setIfInBounds (a + 1 + i) 0) words).getD k 0 =
      if a + 1 ≤ k ∧ k < a + 1 + n then 0 else words.getD k 0 := by
  induction n with
  | zero => exact ⟨rfl, by rw [if_neg (by omega)]; rfl⟩
  | succ n ih =>
    obtain ⟨size, get⟩ := ih (by omega)
    rw [List.range_succ, List.foldl_append]
    refine ⟨by simpa using size, ?_⟩
    by_cases last : a + 1 + n = k
    · rw [if_pos (by omega), ← last]
      exact getD_setIfInBounds_self (by rw [size]; omega)
    · refine (getD_setIfInBounds_of_ne last).trans (get.trans ?_)
      by_cases before : a + 1 ≤ k ∧ k < a + 1 + n
      · rw [if_pos before, if_pos (by omega)]
      · rw [if_neg before, if_neg (by omega)]

section

variable {words : Array Word} {a b : Addr} {w : Word}

theorem stamp_size (ha : NodeIn words a) : (stamp words a.toNat w).size = words.size := by
  have inside := ha.2
  have clear := getD_clear (words.setIfInBounds a.toNat w) a.toNat maxChildren 0
    (by simp only [Array.size_setIfInBounds]; unfold maxChildren nodeSize at *; omega)
  exact clear.1.trans (by simp)

theorem cell_stamp (ha : NodeIn words a) (hb : NodeIn words b) {j : Nat} (hj : j < nodeSize) :
    cell (stamp words a.toNat w) b j =
      if b = a then if j = 0 then w else 0 else cell words b j := by
  have inside := ha.2
  have clear := getD_clear (words.setIfInBounds a.toNat w) a.toNat maxChildren (b.toNat + j)
    (by simp only [Array.size_setIfInBounds]; unfold maxChildren nodeSize at *; omega)
  have first := cell_setIfInBounds (i := 0) (w := w) ha hb.1 (by decide) hj
  rw [Nat.add_zero] at first
  refine clear.2.trans ?_
  rw [show (words.setIfInBounds a.toNat w).getD (b.toNat + j) 0 = _ from first]
  have aligned := ha.1
  have aligned' := hb.1
  unfold maxChildren nodeSize at *
  by_cases same : b = a
  · subst same
    by_cases zero : j = 0
    · rw [if_neg (by omega), if_pos ⟨rfl, zero.symm⟩, if_pos rfl, if_pos zero]
    · rw [if_pos (by omega), if_pos rfl, if_neg zero]
  · have apart : a.toNat ≠ b.toNat := fun e => same (UInt32.toNat_inj.1 e.symm)
    rw [if_neg (by omega), if_neg (fun e => same e.1.symm), if_neg same]

end

section

variable {h h' h'' : Heap} {roots : List Addr} {tag : Tag} {a : Addr}

theorem Fresh.of_kept (kept : Kept roots h h') (fresh : Fresh roots h' h'' a)
    (small : h.words.size ≤ maxWords) (traceable : Traceable h.words roots) : Fresh roots h h'' a :=
  ⟨kept.trans fresh.toKept small traceable, fresh.high,
    fun reach => fresh.unreached ((kept.reaches small traceable).2 reach)⟩

theorem take_ok (ha : NodeIn h.words a) (tag : Tag) (size : Nat) :
    ∃ h', take tag size a h = .ok a h' ∧ h'.words.size = h.words.size ∧
      h'.freeHead = nextFree (cell h.words a 0) ∧ h'.pinned = h.pinned ∧
      (∀ b, NodeIn h.words b → b ≠ a → SameNode h.words h'.words b) ∧
      ∀ i < nodeSize, cell h'.words a i = blank tag size i := by
  have get : h.words[a.toNat]? = some (cell h.words a 0) :=
    getElem?_of_nodeIn ha (i := 0) (by decide)
  have other : ∀ b, NodeIn h.words b → b ≠ a →
      SameNode h.words (stamp h.words a.toNat (freshHeader tag size)) b := by
    intro b hb ne j hj
    rw [cell_stamp ha hb hj, if_neg ne]
  have cells : ∀ i < nodeSize, cell (stamp h.words a.toNat (freshHeader tag size)) a i =
      blank tag size i := by
    intro i hi
    rw [cell_stamp ha ha hi, if_pos rfl, blank]
  have size' := stamp_size (w := freshHeader tag size) ha
  rw [take, get]
  dsimp only
  rw [if_pos ha.2]
  generalize stamp h.words a.toNat (freshHeader tag size) = words at *
  exact ⟨_, rfl, size', rfl, rfl, other, cells⟩

/-- Taking the head of the free list leaves the rest of it. -/
theorem FreeList.pop {l : List Addr} (list : FreeList h.words (some a) (a :: l)) (nodup : (a :: l).Nodup)
    (inside : ∀ b ∈ a :: l, NodeIn h.words b) (small : h.words.size ≤ maxWords)
    (head : h'.freeHead = nextFree (cell h.words a 0))
    (others : ∀ b, NodeIn h.words b → b ≠ a → SameNode h.words h'.words b) :
    FreeList h'.words h'.freeHead l := by
  cases list with
  | @cons _ next _ link tail =>
    have next_eq : nextFree (cell h.words a 0) = next := by
      rw [link]
      refine nextFree_freeWord fun bad => ?_
      subst bad
      cases tail
      exact not_nodeIn_noAddr small (inside noAddr (by simp))
    rw [head, next_eq]
    refine tail.congr fun b mem => others b (inside b (List.mem_cons_of_mem a mem)) ?_ 0 (by decide)
    rintro rfl
    exact (List.nodup_cons.1 nodup).1 mem

/-- The head of the free list, at `a`, has been taken into use and is blank. -/
structure Popped (tag : Tag) (size : Nat) (h h' : Heap) (a : Addr) : Prop where
  sound : Sound h'
  room : h'.words.size = h.words.size
  pinned : h'.pinned = h.pinned
  node : NodeIn h.words a
  high : bottom ≤ a
  free : tagAt h.words a = .free
  others : ∀ b, NodeIn h.words b → b ≠ a → SameNode h.words h'.words b
  edited : Edited h' h' a (blank tag size)

theorem take_popped (sound : Sound h) (head : h.freeHead = some a) (tag : Tag) {size : Nat}
    (le : size ≤ nodeSize) : ∃ h', take tag size a h = .ok a h' ∧ Popped tag size h h' a := by
  obtain ⟨l, list, nodup, inside⟩ := sound.list
  rw [head] at list
  have free : tagAt h.words a = .free := by
    cases list with
    | cons link tail => exact FreeList.tagAt (.cons link tail) List.mem_cons_self
  obtain ⟨rest, rfl⟩ : ∃ rest, l = a :: rest := by
    cases list with
    | cons link tail => exact ⟨_, rfl⟩
  obtain ⟨ha, high⟩ := inside a List.mem_cons_self
  obtain ⟨h', run, size', head', pinned, other, cells⟩ := take_ok ha tag size
  have nodeIn : ∀ b, NodeIn h'.words b ↔ NodeIn h.words b := fun _ => nodeIn_congr size'
  have sound' : Sound h' := by
    refine ⟨?_, ?_, rest, ?_, (List.nodup_cons.1 nodup).2, ?_⟩
    · exact sound.sized.congr size'
    · intro b hb
      by_cases same : b = a
      · subst same
        rw [Marked, Bool.not_eq_true, cells 0 (by decide), Word.isMarked_eq_false_iff]
        exact byte_freshHeader tag (by unfold nodeSize at le; omega) (by decide)
      · rw [Marked, other b ((nodeIn b).1 hb) same 0 (by decide)]
        exact sound.unmarked b ((nodeIn b).1 hb)
    · exact list.pop nodup (fun b mem => (inside b mem).1) sound.sized.small head' other
    · intro b mem
      obtain ⟨hb, le⟩ := inside b (List.mem_cons_of_mem a mem)
      exact ⟨(nodeIn b).2 hb, le⟩
  exact ⟨h', run, sound', size', pinned, ha, high, free, other, ⟨.refl h' a, (nodeIn a).2 ha, cells⟩⟩

/-- Nothing leads to the node that is taken. -/
theorem take_fresh (sound : Sound h) (traceable : Traceable h.words roots)
    (head : h.freeHead = some a) (tag : Tag) {size : Nat} (le : size ≤ nodeSize) :
    ∃ h', take tag size a h = .ok a h' ∧ Fresh roots h h' a ∧ Edited h' h' a (blank tag size) := by
  obtain ⟨h', run, popped⟩ := take_popped sound head tag le
  have unreached : ¬ Reaches h.words roots a := by
    intro reach
    rcases traceable a reach with (none | low) | ⟨-, layout⟩
    · exact not_nodeIn_noAddr sound.sized.small (none ▸ popped.node)
    · exact UInt32.not_lt.2 popped.high low
    · exact layout.tagAt_ne popped.free
  refine ⟨h', run, ⟨⟨popped.sound, popped.room, popped.pinned, ?_⟩, popped.high, unreached⟩, popped.edited⟩
  intro b hb live
  refine popped.others b hb ?_
  rintro rfl
  rcases live with low | reach
  · exact UInt32.not_lt.2 popped.high low
  · exact unreached reach

/-- How a call of the allocator goes. `h₁` is the heap that the node is taken from: the one given or, if nothing is
free there, the one that a collection leaves. -/
inductive Allocation (thunk : Roots) (tag : Tag) (size : Int) (h : Heap) : EStateM.Result Failure Heap Addr → Prop
  | refused (outside : size < 1 ∨ (nodeSize : Int) < size) :
    Allocation thunk tag size h (.error (.crash (.allocateSize tag size)) h)
  | crashed {e : Failure} {h₁ : Heap} (fits : 1 ≤ size ∧ size ≤ nodeSize) (empty : h.freeHead = none)
    (collected : collect (thunk.visit h.stats.collections) h = .error e h₁) : Allocation thunk tag size h (.error e h₁)
  | exhausted {k : Nat} {h₁ : Heap} (fits : 1 ≤ size ∧ size ≤ nodeSize) (empty : h.freeHead = none)
    (collected : collect (thunk.visit h.stats.collections) h = .ok k h₁) (head : h₁.freeHead = none) :
    Allocation thunk tag size h (.error (.fault (.outOfMemory h₁.stats.nodes)) h₁)
  | taken {a : Addr} {h₁ : Heap} (fits : 1 ≤ size ∧ size ≤ nodeSize)
    (source : h₁ = h ∨ h.freeHead = none ∧ ∃ k, collect (thunk.visit h.stats.collections) h = .ok k h₁)
    (head : h₁.freeHead = some a) : Allocation thunk tag size h (take tag size.toNat a h₁)

theorem allocate_goes (thunk : Roots) (tag : Tag) (size : Int) (h : Heap) :
    Allocation thunk tag size h (allocate thunk tag size h) := by
  unfold allocate
  split
  · exact .refused ‹_›
  have fits : 1 ≤ size ∧ size ≤ nodeSize := by omega
  split
  · exact .taken fits (.inl rfl) ‹_›
  split
  · exact .crashed fits ‹_› ‹_›
  next collected =>
  split
  · exact .taken fits (.inr ⟨‹_›, _, collected⟩) ‹_›
  · exact .exhausted fits ‹_› collected ‹_›

/-- The outcome of an allocation: a fresh node, or no memory. -/
def Allocates (roots : List Addr) (h : Heap) (P : Heap → Addr → Prop)
    (r : EStateM.Result Failure Heap Addr) : Prop :=
  (∃ a h', r = .ok a h' ∧ Fresh roots h h' a ∧ P h' a) ∨
    ∃ n h', r = .error (.fault (.outOfMemory n)) h' ∧ Kept roots h h'

theorem allocate_blank (thunk : Roots) (sound : Sound h)
    (traceable : Traceable h.words (thunk.get ++ h.pinned)) (tag : Tag) (size : Int) {n : Nat}
    (hn : size = n) (pos : 1 ≤ n) (le : n ≤ nodeSize) :
    Allocates (thunk.get ++ h.pinned) h (fun h' a => Edited h' h' a (blank tag n))
      (allocate thunk tag size h) := by
  have small := sound.sized.small
  obtain ⟨k, h', collected, kept⟩ := collect_kept sound traceable
  rw [← collect_visit thunk h.stats.collections sound.sized sound.unmarked traceable.traced] at collected
  have goes := allocate_goes thunk tag size h
  generalize allocate thunk tag size h = r at goes ⊢
  cases goes with
  | refused outside => omega
  | crashed _ _ failed => cases failed.symm.trans collected
  | exhausted _ _ collected' =>
    cases collected'.symm.trans collected
    exact .inr ⟨_, h', rfl, kept⟩
  | @taken a h₁ _ source head =>
    have kept₁ : Kept (thunk.get ++ h.pinned) h h₁ := by
      obtain rfl | ⟨-, _, collected'⟩ := source
      · exact .refl sound _
      · cases collected'.symm.trans collected
        exact kept
    have count : size.toNat = n := by omega
    rw [count]
    obtain ⟨h₂, run, fresh, cells⟩ := take_fresh kept₁.sound (kept₁.traceable small traceable) head tag le
    exact .inl ⟨_, h₂, run, .of_kept kept₁ fresh small traceable, cells⟩

theorem Fresh.only (fresh : Fresh roots h h' a) (used : tagAt h'.words a ≠ .free)
    (only : Only h' h'' a) (clear : ¬ Marked h''.words a) : Fresh roots h h'' a := by
  refine ⟨⟨fresh.sound.only used only clear, only.size.trans fresh.size,
    only.pinned.trans fresh.pinned, fun b hb live => ?_⟩, fresh.high, fresh.unreached⟩
  refine (fresh.same b hb live).trans (only.others b ?_ ?_)
  · exact (nodeIn_congr fresh.size).2 hb
  · rintro rfl
    rcases live with low | reach
    · exact UInt32.not_lt.2 fresh.high low
    · exact fresh.unreached reach

theorem Edited.shows {N : Nat → Word} {n : Node} (e : Edited h h' a N)
    (tag : (N 0).byte 0 = n.tag.number) (size : ((N 0).byte 1).toNat = n.size)
    (unmarked : (N 0).byte 2 = 0) (le : n.size ≤ nodeSize) (body : Body N n) :
    Shows h'.words a n := by
  have zero := e.cells 0 (by decide)
  exact ⟨e.node, by rw [zero, tag], by rw [zero, size], by rw [zero, unmarked],
    body.congr e.cells le⟩

theorem tagAt_blank {size : Nat} (le : size ≤ nodeSize) (e : Edited h h' a (blank tag size)) :
    tagAt h'.words a = tag := by
  have first := byte_freshHeader tag (i := 0) (show size < 256 by unfold nodeSize at le; omega) (by decide)
  rw [Heap.tagAt, e.cells 0 (by decide), blank, if_pos rfl, first, if_pos rfl]

theorem Allocates.fill {x : HeapM Addr} {body : Addr → HeapM Addr} {size : Nat} {n : Node}
    (alloc : Allocates roots h (fun h' a => Edited h' h' a (blank tag size)) (x h))
    (used : tag ≠ .free) (le : size ≤ nodeSize)
    (fill : ∀ a h', Fresh roots h h' a → Edited h' h' a (blank tag size) →
      ∃ h'', body a h' = .ok a h'' ∧ Updates h' h'' a n) :
    Allocates roots h (fun h' a => Shows h'.words a n) ((x >>= body) h) := by
  rcases alloc with ⟨a, h₁, run, fresh, cells⟩ | ⟨k, h₁, run, kept⟩
  · obtain ⟨h₂, run', u⟩ := fill a h₁ fresh cells
    have tag := tagAt_blank le cells
    refine .inl ⟨a, h₂, by rw [bind_of_ok run, run'], ?_, u.shows⟩
    exact fresh.only (tag ▸ used) u.toOnly u.shows.not_marked
  · exact .inr ⟨k, h₁, bind_of_error run, kept⟩

theorem Sound.release (sound : Sound h) (mark : Nat) : Sound (h.release mark) :=
  sound.pin _

theorem Kept.release {as : List Addr}
    (kept : Kept roots { h with pinned := h.pinned ++ as } h') :
    Kept roots h (h'.release h.pinned.length) := by
  refine ⟨kept.sound.release _, kept.size, ?_, kept.same⟩
  rw [Heap.release, kept.pinned]
  exact List.take_left

theorem Allocates.withPins {as : List Addr} {op : HeapM Addr} {P : Heap → Addr → Prop}
    (alloc : Allocates roots { h with pinned := h.pinned ++ as } P
      (op { h with pinned := h.pinned ++ as }))
    (stable : ∀ h' a, P h' a → P (h'.release h.pinned.length) a) :
    Allocates roots h P (withPins as op h) := by
  rcases alloc with ⟨a, h₁, run, fresh, holds⟩ | ⟨k, h₁, run, kept⟩
  · refine .inl ⟨a, _, by rw [Heap.withPins, run], ⟨fresh.toKept.release, fresh.high, fresh.unreached⟩,
      stable h₁ a holds⟩
  · exact .inr ⟨k, _, by rw [Heap.withPins, run], kept.release⟩

end

theorem byte_blank (tag : Tag) {size i : Nat} (le : size ≤ nodeSize) (hi : i < 8) :
    (blank tag size 0).byte i = if i = 0 then tag.number else if i = 1 then size.toUInt8 else 0 :=
  byte_freshHeader tag (by unfold nodeSize at le; omega) hi

theorem high_blank (tag : Tag) {size : Nat} (le : size ≤ nodeSize) : (blank tag size 0).high = 0 :=
  high_freshHeader tag (by unfold nodeSize at le; omega)

/-- A node that has just been taken and whose header still has its tag, size and mark. -/
theorem Edited.shows_blank {h h' : Heap} {a : Addr} {N : Nat → Word} {n : Node}
    (e : Edited h h' a N) (le : n.size ≤ nodeSize)
    (low : ∀ k < 3, (N 0).byte k = (blank n.tag n.size 0).byte k) (body : Body N n) :
    Shows h'.words a n := by
  refine e.shows ?_ ?_ ?_ le body
  · rw [low 0 (by decide), byte_blank n.tag le (by decide), if_pos rfl]
  · rw [low 1 (by decide), byte_blank n.tag le (by decide), if_neg (by decide), if_pos rfl]
    exact UInt8.toNat_ofNat_of_lt (show n.size < 256 by unfold nodeSize at le; omega)
  · rw [low 2 (by decide), byte_blank n.tag le (by decide), if_neg (by decide), if_neg (by decide)]

/-- Freshly taken slots read as zeros. -/
theorem shows_zeros {h h' : Heap} {a : Addr} {m : List Addr → Node}
    (kind : m = .frame ∨ m = .environment) {n : Nat} (le : n ≤ 15)
    (e : Edited h h' a (blank (m []).tag (n + 1))) : Shows h'.words a (m (List.replicate n 0)) := by
  have slots : Slots Word.low (blank (m []).tag (n + 1)) 1 (List.replicate n 0) := by
    intro i x get
    rw [blank, if_neg (by omega)]
    obtain ⟨lt, zero⟩ := List.getElem?_eq_some_iff.1 get
    rw [List.getElem_replicate] at zero
    rw [← zero]
    rfl
  have size : (m (List.replicate n 0)).size = n + 1 := by
    rcases kind with rfl | rfl <;> simp [Node.size]
  have tag : (m (List.replicate n 0)).tag = (m []).tag := by
    rcases kind with rfl | rfl <;> rfl
  refine e.shows_blank (by rw [size]; unfold nodeSize; omega) (fun i _ => by rw [tag, size]) ?_
  rcases kind with rfl | rfl <;> exact ⟨by simpa using le, slots⟩

section Filling

variable {h h' : Heap} {a env : Addr}

theorem fill_int (e : Edited h h a (blank .int 2)) (k : Int64) :
    ∃ h', (do setPayload a 0 k.toUInt64; return a : HeapM Addr) h = .ok a h' ∧ Updates h h' a (.int k) := by
  obtain ⟨h₁, r₁, e₁⟩ := e.setPayload (i := 0) (k := 0) rfl (by decide) k.toUInt64
  refine ⟨h₁, by rw [bind_of_ok r₁]; rfl, e₁.toOnly, e₁.shows_blank (show 2 ≤ 16 by decide) ?_ ?_⟩
  · exact fun i _ => congrArg (Word.byte · i) (write_of_ne _ _ (by decide))
  · exact Int64.toInt64_toUInt64 k

theorem fill_blockframe (e : Edited h h a (blank .blockframe 2)) (env : Addr) :
    ∃ h', (do setChild a 0 env; return a : HeapM Addr) h = .ok a h' ∧ Updates h h' a (.blockframe env) := by
  obtain ⟨h₁, r₁, e₁⟩ := e.setChild (i := 0) (k := 0) rfl (by decide) env
  refine ⟨h₁, by rw [bind_of_ok r₁]; rfl, e₁.toOnly, e₁.shows_blank (show 2 ≤ 16 by decide) ?_ ?_⟩
  · exact fun i _ => congrArg (Word.byte · i) (write_of_ne _ _ (by decide))
  · exact Word.low_toUInt64 env

theorem fill_callframe (e : Edited h h a (blank .callframe 2)) (pc : Int) (env : Addr) :
    ∃ h', (do setWideField a (UInt32.ofInt pc); setChild a 0 env; return a : HeapM Addr) h = .ok a h' ∧
      Updates h h' a (.callframe (UInt32.ofInt pc).toNat env) := by
  obtain ⟨h₁, r₁, e₁⟩ := e.setWideField (UInt32.ofInt pc)
  obtain ⟨h₂, r₂, e₂⟩ := e₁.setChild (i := 0) (k := 0) rfl (by decide) env
  refine ⟨h₂, by rw [bind_of_ok r₁, bind_of_ok r₂]; rfl, e₂.toOnly,
    e₂.shows_blank (show 2 ≤ 16 by decide) ?_ ⟨?_, Word.low_toUInt64 env⟩⟩
  · intro i lt
    rw [write_of_ne _ _ (by decide), write_self]
    exact Word.byte_setHigh _ _ (by omega)
  · rw [write_of_ne _ _ (by decide), write_self, Word.high_setHigh]

theorem fill_closure (e : Edited h h a (blank .closure 2)) {arity : Int} (fits : 0 ≤ arity ∧ arity ≤ 15) (pc : Int)
    (env : Addr) :
    ∃ h', (do
        setField a 3 arity.toNat.toUInt8
        setWideField a (UInt32.ofInt pc)
        setChild a 0 env
        return a : HeapM Addr) h = .ok a h' ∧
      Updates h h' a (.closure arity.toNat (UInt32.ofInt pc).toNat env) := by
  obtain ⟨h₁, r₁, e₁⟩ := e.setField 3 arity.toNat.toUInt8
  obtain ⟨h₂, r₂, e₂⟩ := e₁.setWideField (UInt32.ofInt pc)
  obtain ⟨h₃, r₃, e₃⟩ := e₂.setChild (i := 0) (k := 0) rfl (by decide) env
  refine ⟨h₃, by rw [bind_of_ok r₁, bind_of_ok r₂, bind_of_ok r₃]; rfl, e₃.toOnly,
    e₃.shows_blank (show 2 ≤ 16 by decide) ?_ ⟨?_, ?_, Word.low_toUInt64 env⟩⟩
  · intro i lt
    rw [write_of_ne _ _ (by decide), write_self, write_self, Word.byte_setHigh _ _ (by omega),
      Word.byte_setByte_of_ne _ _ (by decide) (by omega) (by omega)]
    rfl
  · rw [write_of_ne _ _ (by decide), write_self, write_self, Word.byte_setHigh _ _ (by decide),
      Word.byte_setByte_self _ _ (by decide)]
    exact UInt8.toNat_ofNat_of_lt (show arity.toNat < 256 by omega)
  · rw [write_of_ne _ _ (by decide), write_self, Word.high_setHigh]

theorem shows_queue (e : Edited h h' a (blank .waitQueue nodeSize)) : Shows h'.words a (.queue []) := by
  refine e.shows_blank (Nat.le_refl 16) (fun i _ => rfl) ?_
  have byte : ∀ k < 8, 2 < k → ((blank .waitQueue nodeSize 0).byte k).toNat = 0 := by
    intro k lt gt
    rw [byte_blank .waitQueue (Nat.le_refl _) lt, if_neg (by omega), if_neg (by omega)]
    rfl
  simp only [Body, byte 3 (by decide) (by decide), byte 4 (by decide) (by decide), byte 5 (by decide) (by decide)]
  exact ⟨rfl, Nat.zero_le _, fun pos => pos, fun _ => rfl, by simp⟩

theorem shows_group (e : Edited h h' a (blank .waitGroup nodeSize)) : Shows h'.words a (.group 0 []) := by
  refine e.shows_blank (Nat.le_refl 16) (fun i _ => rfl) ?_
  have byte := byte_blank .waitGroup (i := 3) (Nat.le_refl nodeSize) (by decide)
  have high := high_blank .waitGroup (Nat.le_refl nodeSize)
  simp only [Body, byte, high]
  exact ⟨rfl, Nat.zero_le _, rfl, fun i x get => by simp at get⟩

theorem fill_channel {capacity : Int} (fits : 0 ≤ capacity ∧ capacity ≤ 13)
    (e : Edited h h a (blank .intChannel (3 + capacity.toNat))) (senders receivers : Addr) :
    ∃ h', (do
        setField a 7 capacity.toNat.toUInt8
        setChild a 0 senders
        setChild a 1 receivers
        return a : HeapM Addr) h = .ok a h' ∧
      Updates h h' a (.channel capacity.toNat Bool.false senders receivers []) := by
  have le : 3 + capacity.toNat ≤ nodeSize := by unfold nodeSize; omega
  obtain ⟨h₁, r₁, e₁⟩ := e.setField 7 capacity.toNat.toUInt8
  obtain ⟨h₂, r₂, e₂⟩ := e₁.setChild (i := 0) (k := 0) rfl (by decide) senders
  obtain ⟨h₃, r₃, e₃⟩ := e₂.setChild (i := 1) (k := 1) rfl (by decide) receivers
  have byte : ∀ k < 7, 2 < k → (blank .intChannel (3 + capacity.toNat) 0).byte k = 0 := by
    intro k lt gt
    rw [byte_blank .intChannel le (by omega), if_neg (by omega), if_neg (by omega)]
  have cap : capacity.toNat.toUInt8.toNat = capacity.toNat :=
    UInt8.toNat_ofNat_of_lt (show capacity.toNat < 256 by omega)
  refine ⟨h₃, by rw [bind_of_ok r₁, bind_of_ok r₂, bind_of_ok r₃]; rfl, e₃.toOnly,
    e₃.shows_blank le ?_ ?_⟩
  · intro i lt
    rw [write_of_ne _ _ (by decide), write_of_ne _ _ (by decide), write_self,
      Word.byte_setByte_of_ne _ _ (by decide) (by omega) (by omega)]
    rfl
  · simp only [Body, write_of_ne _ _ (show 0 ≠ 1 + 1 by decide), write_of_ne _ _ (show 0 ≠ 0 + 1 by decide),
      write_self, Word.byte_setByte, Nat.reduceLT, Nat.reduceEqDiff, if_true, if_false, cap,
      byte 3 (by decide) (by decide), byte 4 (by decide) (by decide), byte 5 (by decide) (by decide),
      byte 6 (by decide) (by decide)]
    refine ⟨by omega, trivial, by decide, ?_, ?_, rfl, Nat.zero_le _, fun pos => pos, fun _ => ?_,
      by simp⟩
    · rw [write_of_ne _ _ (by decide), show 1 = 0 + 1 from rfl, write_self, Word.low_toUInt64]
    · exact Word.low_toUInt64 receivers
    · exact (Nat.zero_mod _).symm

theorem fill_frame {n : Int} (fits : 0 ≤ n ∧ n ≤ 15) (e : Edited h h a (blank .frame (n.toNat + 1))) :
    ∃ h', (do
        (List.range n.toNat).forM fun i : Nat => setChild a i unassigned
        return a : HeapM Addr) h = .ok a h' ∧
      Updates h h' a (.frame (List.replicate n.toNat unassigned)) := by
  have zeros := shows_zeros (m := Node.frame) (.inl rfl) (by omega) e
  obtain ⟨h₁, r₁, u₁⟩ := forM_setChild (.inl rfl) zeros (fun i : Nat => setChild a i unassigned)
    (fun _ => unassigned) n.toNat (fun _ _ _ _ => rfl) (by simp)
  refine ⟨h₁, by rw [bind_of_ok r₁]; rfl, ?_⟩
  simpa [List.map_const'] using u₁

/-- The frames of the environment extended are read while the new one is filled. -/
theorem fill_environment {frames : List Addr} (e : Edited h h a (blank .environment (frames.length + 1 + 1)))
    (s : Lists h.words env frames) (apart : env ≠ a) (fits : frames.length < 15) (frame : Addr) :
    ∃ h', (do
        (List.range ((frames.length + 1 : Nat) - 1 : Int).toNat).forM fun i : Nat => do setChild a i (← child env i)
        setChild a ((frames.length + 1 : Nat) - 1 : Int) frame
        return a : HeapM Addr) h = .ok a h' ∧
      Updates h h' a (.environment (frames ++ [frame])) := by
  have zeros := shows_zeros (m := Node.environment) (n := frames.length + 1) (.inr rfl) (by omega) e
  have copy : ∀ i < frames.length, ∀ h'', Only h h'' a →
      (do setChild a (i : Nat) (← child env (i : Nat)) : HeapM Unit) h'' =
        setChild a i (frames[i]?.getD 0) h'' := by
    intro i lt h'' only
    have get : frames[i]? = some frames[i] := List.getElem?_eq_getElem lt
    have here := s.of_same (only.others env s.node apart) only.size
    rw [bind_of_ok (here.child rfl get), get]
    rfl
  obtain ⟨h₁, r₁, u₁⟩ := forM_setChild (.inr rfl) zeros _ _ frames.length copy (by simp)
  have prefix_eq : (List.range frames.length).map (fun i => frames[i]?.getD 0) = frames := by
    apply List.ext_getElem (by simp)
    intro i _ lt
    simp [lt]
  rw [prefix_eq, List.drop_replicate, Nat.add_sub_cancel_left] at u₁
  obtain ⟨h₂, r₂, u₂⟩ := setChild_slots (m := Node.environment) (.inr rfl) u₁.shows
    (k := (frames.length + 1 : Nat) - 1) (i := frames.length) (by omega) (by simp) frame
  have last : (frames ++ List.replicate 1 (0 : Addr)).set frames.length frame = frames ++ [frame] := by
    rw [List.set_append_right _ _ (Nat.le_refl _), Nat.sub_self]
    rfl
  rw [last] at u₂
  refine ⟨h₂, ?_, u₁.trans u₂⟩
  have count : ((frames.length + 1 : Nat) - 1 : Int).toNat = frames.length := by omega
  rw [count, bind_of_ok r₁, bind_of_ok r₂]
  rfl

end Filling

section Constructors

variable {h : Heap} {thunk : Roots}

theorem newInt_allocates (sound : Sound h) (traceable : Traceable h.words (thunk.get ++ h.pinned))
    (k : Int64) :
    Allocates (thunk.get ++ h.pinned) h (fun h' a => Shows h'.words a (.int k))
      (newInt thunk k h) := by
  have alloc := allocate_blank thunk sound traceable .int 2 (n := 2) rfl (by decide)
    (by decide)
  exact alloc.fill (by decide) (by decide) fun a h' _ e => fill_int e k

theorem newBlockframe_allocates {env : Addr} (sound : Sound h)
    (traceable : Traceable h.words (thunk.get ++ (h.pinned ++ [env]))) :
    Allocates (thunk.get ++ (h.pinned ++ [env])) h (fun h' a => Shows h'.words a (.blockframe env))
      (newBlockframe thunk env h) := by
  have alloc := allocate_blank (h := { h with pinned := h.pinned ++ [env] }) thunk
    (sound.pin _) traceable .blockframe 2 (n := 2) rfl
    (by decide) (by decide)
  exact Allocates.withPins (alloc.fill (by decide) (by decide) fun a h' _ e => fill_blockframe e env) fun _ _ s => s

theorem newCallframe_allocates {env : Addr} (sound : Sound h)
    (traceable : Traceable h.words (thunk.get ++ (h.pinned ++ [env]))) (pc : Int) :
    Allocates (thunk.get ++ (h.pinned ++ [env])) h
      (fun h' a => Shows h'.words a (.callframe (UInt32.ofInt pc).toNat env))
      (newCallframe thunk pc env h) := by
  have alloc := allocate_blank (h := { h with pinned := h.pinned ++ [env] }) thunk
    (sound.pin _) traceable .callframe 2 (n := 2) rfl
    (by decide) (by decide)
  exact Allocates.withPins (alloc.fill (by decide) (by decide) fun a h' _ e => fill_callframe e pc env) fun _ _ s => s

theorem newClosure_allocates {env : Addr} (sound : Sound h)
    (traceable : Traceable h.words (thunk.get ++ (h.pinned ++ [env]))) {arity : Int}
    (fits : 0 ≤ arity ∧ arity ≤ 15) (pc : Int) :
    Allocates (thunk.get ++ (h.pinned ++ [env])) h
      (fun h' a => Shows h'.words a (.closure arity.toNat (UInt32.ofInt pc).toNat env))
      (newClosure thunk arity pc env h) := by
  have alloc := allocate_blank (h := { h with pinned := h.pinned ++ [env] }) thunk
    (sound.pin _) traceable .closure 2 (n := 2) rfl
    (by decide) (by decide)
  rw [newClosure, if_neg (by unfold maxChildren; omega)]
  exact Allocates.withPins (alloc.fill (by decide) (by decide) fun a h' _ e => fill_closure e fits pc env)
    fun _ _ s => s

theorem newWaitQueue_allocates (sound : Sound h)
    (traceable : Traceable h.words (thunk.get ++ h.pinned)) :
    Allocates (thunk.get ++ h.pinned) h (fun h' a => Shows h'.words a (.queue []))
      (newWaitQueue thunk h) :=
  (allocate_blank thunk sound traceable .waitQueue nodeSize rfl (by decide) (by decide)).imp_left
    fun ⟨a, h', run, fresh, e⟩ => ⟨a, h', run, fresh, shows_queue e⟩

theorem newWaitGroup_allocates (sound : Sound h)
    (traceable : Traceable h.words (thunk.get ++ h.pinned)) :
    Allocates (thunk.get ++ h.pinned) h (fun h' a => Shows h'.words a (.group 0 []))
      (newWaitGroup thunk h) :=
  (allocate_blank thunk sound traceable .waitGroup nodeSize rfl (by decide) (by decide)).imp_left
    fun ⟨a, h', run, fresh, e⟩ => ⟨a, h', run, fresh, shows_group e⟩

theorem channel_allocates (sound : Sound h) (traceable : Traceable h.words (thunk.get ++ h.pinned))
    {capacity : Int} (fits : 0 ≤ capacity ∧ capacity ≤ 13) (senders receivers : Addr) :
    Allocates (thunk.get ++ h.pinned) h
      (fun h' a => Shows h'.words a (.channel capacity.toNat Bool.false senders receivers []))
      ((do
        let ch ← allocate thunk .intChannel (3 + capacity)
        setField ch 7 capacity.toNat.toUInt8
        setChild ch 0 senders
        setChild ch 1 receivers
        return ch : HeapM Addr) h) := by
  have le : 3 + capacity.toNat ≤ nodeSize := by unfold nodeSize; omega
  have alloc := allocate_blank thunk sound traceable .intChannel (3 + capacity)
    (n := 3 + capacity.toNat) (by omega) (by omega) le
  exact alloc.fill (by decide) le fun a h' _ e => fill_channel fits e senders receivers

theorem newFrame_allocates (sound : Sound h) (traceable : Traceable h.words (thunk.get ++ h.pinned))
    {n : Int} (fits : 0 ≤ n ∧ n ≤ 15) :
    Allocates (thunk.get ++ h.pinned) h
      (fun h' a => Shows h'.words a (.frame (List.replicate n.toNat unassigned)))
      (newFrame thunk n h) := by
  have le : n.toNat + 1 ≤ nodeSize := by unfold nodeSize; omega
  have alloc := allocate_blank thunk sound traceable .frame (n + 1) (n := n.toNat + 1)
    (by omega) (by omega) le
  rw [newFrame, if_neg (by unfold maxChildren; omega)]
  exact alloc.fill (by decide) le fun a h' _ e => fill_frame fits e

/-- Whatever the node is that is extended, the words that it uses are taken over as frames. -/
theorem extend_allocates {env frame : Addr} {frames : List Addr} (sound : Sound h)
    (traceable : Traceable h.words (thunk.get ++ (h.pinned ++ [env, frame])))
    (s : Lists h.words env frames) (fits : frames.length < 15) :
    Allocates (thunk.get ++ (h.pinned ++ [env, frame])) h
      (fun h' a => Shows h'.words a (.environment (frames ++ [frame])))
      (extend thunk env frame h) := by
  have le : frames.length + 1 + 1 ≤ nodeSize := by unfold nodeSize; omega
  have alloc := allocate_blank (h := { h with pinned := h.pinned ++ [env, frame] }) thunk
    (sound.pin _) traceable .environment
    ((frames.length + 1 : Nat) - 1 + 2) (n := frames.length + 1 + 1) (by omega) (by omega) le
  rw [extend, bind_of_ok s.childCount, if_neg (by unfold maxChildren; omega)]
  refine Allocates.withPins (alloc.fill (by decide) le fun a h' fresh e => ?_) fun _ _ s => s
  have reach : Reaches h.words (thunk.get ++ (h.pinned ++ [env, frame])) env := .root (by simp)
  have apart : env ≠ a := by
    rintro rfl
    exact fresh.unreached reach
  exact fill_environment e (s.of_same (fresh.same env s.node (.inr reach)) fresh.size) apart fits frame

end Constructors

end Heap

end FiberVm
