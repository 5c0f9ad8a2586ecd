import FiberVm.Proofs.Heap.Initial
import FiberVm.Proofs.Heap.Stale

/-!
# The allocator is a stack of free addresses

The links from the head of the free list visit the nodes with tag 0, each once, after any history of
allocations, frees, collections, pins and writes that stay inside the layout of a node in use. Stored
references may be stale: a node may still refer to one that has been freed. A collection that comes upon
such a reference crashes, and a history ends there; one that does not has seen nodes in use only.

An allocation pops the stack. From an empty stack it collects first, and it fails exactly if that
leaves the stack empty, which is when everything collectable is reachable. Freeing pushes.
-/

set_option autoImplicit false

namespace FiberVm

namespace Heap

/-- The free list of `h` is `l`, and everything that is not on it can be traced. -/
structure Managed (h : Heap) (l : List Addr) : Prop where
  sized : Sized h.words
  unmarked : Unmarked h.words
  links : FreeList h.words h.freeHead l
  nodup : l.Nodup
  free : ∀ a ∈ l, NodeIn h.words a ∧ bottom ≤ a
  used : ∀ a, NodeIn h.words a → a ∉ l →
    Regular h.words a ∧ ∀ c ∈ refs h.words a, IsAddress h.words c
  low : ∀ a, NodeIn h.words a → a < bottom → ∀ c ∈ refs h.words a, Skipped c
  pins : ∀ a ∈ h.pinned, IsAddress h.words a

/-- The counters fit a free list `l` after `frees` nodes have been returned one by one. -/
structure Counted (h : Heap) (l : List Addr) (frees : Nat) : Prop where
  nodes : h.stats.nodes = h.words.size / nodeSize
  free : h.stats.freeNodes = l.length
  balance : h.stats.allocations - h.stats.freed - frees.toUInt64 =
    UInt64.ofInt (h.stats.nodes - h.stats.freeNodes)

theorem FreeList.empty {words : Array Word} {head : Option Addr} (list : FreeList words head []) :
    head = none := by
  cases list
  rfl

theorem FreeList.uncons {words : Array Word} {head : Option Addr} {a : Addr} {l : List Addr}
    (list : FreeList words head (a :: l)) :
    head = some a ∧ ∃ next, cell words a 0 = freeWord next ∧ FreeList words next l := by
  cases list with
  | cons link tail => exact ⟨rfl, _, link, tail⟩

section Tracing

variable {h : Heap} {l K : List Addr} {a : Addr}

theorem Managed.mem_iff (m : Managed h l) : a ∈ l ↔ NodeIn h.words a ∧ tagAt h.words a = .free := by
  constructor
  · intro mem
    exact ⟨(m.free a mem).1, m.links.tagAt mem⟩
  · rintro ⟨ha, free⟩
    exact Classical.byContradiction fun out => (m.used a ha out).1.tagAt_ne free

theorem Managed.tidy (m : Managed h l) : Tidy h.words :=
  ⟨m.sized, m.unmarked, fun a ha used => m.used a ha fun mem => used (m.links.tagAt mem)⟩

theorem Managed.refers (m : Managed h l) {b : Addr} (ha : NodeIn h.words a) (refers : Refers h.words a b) :
    a ∉ l ∧ b ∈ refs h.words a := by
  obtain ⟨used, mem⟩ := m.tidy.refers ha refers
  exact ⟨fun free => used (m.links.tagAt free), mem⟩

/-- From addresses only addresses are reached, and reserved nodes lead nowhere else. -/
theorem Managed.closure (m : Managed h l) (start : ∀ r ∈ K, IsAddress h.words r)
    (closure : Closure h.words K a) : IsAddress h.words a ∧ (Reaches h.words K a ∨ Skipped a) := by
  induction closure with
  | root mem => exact ⟨start _ mem, .inl (.root mem)⟩
  | @step x y _ refers ih =>
    obtain ⟨rfl | hx, reach⟩ := ih
    · exact absurd refers (not_refers_noAddr m.sized.small)
    obtain ⟨out, mem⟩ := m.refers hx refers
    refine ⟨(m.used x hx out).2 y mem, ?_⟩
    by_cases below : x < bottom
    · exact .inr (m.low x hx below y mem)
    · have le := UInt32.not_lt.1 below
      exact .inl ((reach.resolve_right (not_skipped m.sized.small le refers)).step le refers)

theorem Managed.closure_iff (m : Managed h l) (start : ∀ r ∈ K, IsAddress h.words r)
    (ha : NodeIn h.words a) (le : bottom ≤ a) : Closure h.words K a ↔ Reaches h.words K a := by
  refine ⟨fun closure => ?_, Reaches.closure⟩
  refine (m.closure start closure).2.resolve_right ?_
  rintro (rfl | below)
  · exact not_nodeIn_noAddr m.sized.small ha
  · exact UInt32.not_lt.2 le below

/-- If no free node is reached, everything reached can be traced. -/
theorem Managed.traced (m : Managed h l) (start : ∀ r ∈ K, IsAddress h.words r)
    (apart : ∀ a, Reaches h.words K a → a ∉ l) : Traced h.words K := by
  intro a reach
  rcases (m.closure start reach.closure).1 with none | ha
  · exact .inl (.inl none)
  · exact .inr ⟨ha, (m.used a ha (apart a reach)).1⟩

end Tracing

theorem toNat_ofInt (n : Int) : (UInt64.ofInt n).toNat = (n % 18446744073709551616).toNat := by
  rw [UInt64.ofInt, UInt64.toNat_ofNat_of_lt']
  · rfl
  · have := Int.emod_lt_of_pos n (b := 18446744073709551616) (by decide)
    have := Int.emod_nonneg n (b := 18446744073709551616) (by decide)
    simp only [UInt64.size]
    omega

theorem ofInt_sub (n k : Int) : UInt64.ofInt (n - k) = UInt64.ofInt n - UInt64.ofInt k := by
  rw [← UInt64.toNat_inj, UInt64.toNat_sub, toNat_ofInt, toNat_ofInt, toNat_ofInt]
  omega

theorem ofInt_sub_add (n f d : Int) : UInt64.ofInt (n - (f + d)) = UInt64.ofInt (n - f) - UInt64.ofInt d := by
  rw [← ofInt_sub, Int.sub_sub]

section Collecting

variable {h h' : Heap} {l l' roots : List Addr} {frees : Nat}

theorem Managed.collected (m : Managed h l) (traced : Traced h.words (roots ++ h.pinned))
    (c : Collected h roots l' h') : Managed h' l' := by
  have size := c.size
  have nodeIn : ∀ a, NodeIn h'.words a ↔ NodeIn h.words a := fun _ => nodeIn_congr size
  -- A node that is left was in use before.
  have kept : ∀ a, NodeIn h.words a → a ∉ l' → a ∉ l := by
    intro a ha out mem
    have le := (m.free a mem).2
    have reach : Reaches h.words (roots ++ h.pinned) a := Classical.byContradiction fun dead =>
      out ((c.mem_iff a).2 ⟨ha, le, dead⟩)
    rcases traced a reach with (none | below) | ⟨-, regular⟩
    · exact not_nodeIn_noAddr m.sized.small (none ▸ ha)
    · exact UInt32.not_lt.2 le below
    · exact regular.tagAt_ne (m.links.tagAt mem)
  have low_out : ∀ a, a < bottom → a ∉ l' := fun a below mem =>
    UInt32.not_lt.2 ((c.mem_iff a).1 mem).2.1 below
  refine ⟨m.sized.congr size, c.unmarked, c.list,
    nodup_of_descending c.descending, fun a mem => ?_, fun a ha out => ?_, fun a ha below => ?_, ?_⟩
  · obtain ⟨ha, le, -⟩ := (c.mem_iff a).1 mem
    exact ⟨(nodeIn a).2 ha, le⟩
  · replace ha := (nodeIn a).1 ha
    obtain ⟨regular, inside⟩ := m.used a ha (kept a ha out)
    have body := (c.same ha out).sameBody
    rw [body.refs regular]
    exact ⟨body.regular regular, fun b mem => (isAddress_congr size).2 (inside b mem)⟩
  · replace ha := (nodeIn a).1 ha
    have out := low_out a below
    rw [(c.same ha out).sameBody.refs (m.used a ha (kept a ha out)).1]
    exact m.low a ha below
  · rw [c.pinned]
    exact fun a mem => (isAddress_congr size).2 (m.pins a mem)

theorem Counted.collected (k : Counted h l frees) (c : Collected h roots l' h') : Counted h' l' frees := by
  refine ⟨?_, ?_, ?_⟩
  · rw [c.stats, c.size]
    exact k.nodes
  · rw [c.stats]
  · rw [c.stats]
    have before := k.balance
    have apart := ofInt_sub_add h.stats.nodes h.stats.freeNodes (l'.length - h.stats.freeNodes)
    rw [show h.stats.freeNodes + (l'.length - h.stats.freeNodes) = l'.length by omega] at apart
    simp only [apart, ← before]
    generalize UInt64.ofInt _ = d
    grind

theorem Counted.pushed {a : Addr} (k : Counted h l frees) (size : h'.words.size = h.words.size)
    (stats : h'.stats = { h.stats with freeNodes := h.stats.freeNodes + 1 }) : Counted h' (a :: l) (frees + 1) := by
  refine ⟨?_, ?_, ?_⟩
  · rw [stats, size]
    exact k.nodes
  · rw [stats, List.length_cons, k.free]
    rfl
  · have next : (frees + 1).toUInt64 = frees.toUInt64 + 1 := UInt64.ofNat_add frees 1
    have unit : UInt64.ofInt 1 = 1 := rfl
    have before := k.balance
    simp only [stats, ofInt_sub_add, ← before, next, unit]
    grind

theorem Counted.popped {a : Addr} (k : Counted h (a :: l) frees) (size : h'.words.size = h.words.size)
    (stats : h'.stats = { h.stats with
      allocations := h.stats.allocations + 1, freeNodes := h.stats.freeNodes - 1 }) : Counted h' l frees := by
  refine ⟨?_, ?_, ?_⟩
  · rw [stats, size]
    exact k.nodes
  · have count := k.free
    rw [List.length_cons] at count
    simp only [stats]
    omega
  · have minus : UInt64.ofInt (-1) = -1 := rfl
    have before := k.balance
    have apart := ofInt_sub_add h.stats.nodes h.stats.freeNodes (-1)
    rw [← Int.sub_eq_add_neg] at apart
    simp only [stats, apart, ← before, minus]
    grind

/-- A collection that does not crash leaves a stack of the nodes that it has not reached. -/
theorem Managed.collect (m : Managed h l) (k : Counted h l frees) (start : ∀ r ∈ roots, IsAddress h.words r)
    {n : Nat} (run : Heap.collect roots h = .ok n h') :
    ∃ l', n = l'.length ∧ Collected h roots l' h' ∧ Managed h' l' ∧ Counted h' l' frees := by
  have all : ∀ r ∈ roots ++ h.pinned, IsAddress h.words r := fun r mem =>
    (List.mem_append.1 mem).elim (start r) (m.pins r)
  have traced := m.tidy.traced_of_collect all run
  obtain ⟨l', h₁, run', c⟩ := collect_of_traced m.sized m.unmarked traced
  rw [run] at run'
  cases run'
  exact ⟨l', rfl, c, m.collected traced c, k.collected c⟩

end Collecting

section Changing

variable {h h' : Heap} {l l' : List Addr} {a : Addr}

/-- Only the node at `a` has changed, and the list only in whether `a` is on it. -/
theorem Managed.change (m : Managed h l) (size : h'.words.size = h.words.size)
    (pinned : h'.pinned = h.pinned) (others : ∀ b, NodeIn h.words b → b ≠ a → SameNode h.words h'.words b)
    (clear : ¬ Marked h'.words a) (links : FreeList h'.words h'.freeHead l') (nodup : l'.Nodup)
    (same : ∀ b, b ≠ a → (b ∈ l' ↔ b ∈ l)) (free : a ∈ l' → NodeIn h.words a ∧ bottom ≤ a)
    (used : NodeIn h.words a → a ∉ l' → Regular h'.words a ∧ (∀ c ∈ refs h'.words a, IsAddress h.words c) ∧
      (a < bottom → ∀ c ∈ refs h'.words a, Skipped c)) : Managed h' l' := by
  have nodeIn : ∀ b, NodeIn h'.words b ↔ NodeIn h.words b := fun _ => nodeIn_congr size
  have high : ∀ b ∈ l', bottom ≤ b := by
    intro b mem
    by_cases here : b = a
    · exact here ▸ (free (here ▸ mem)).2
    · exact (m.free b ((same b here).1 mem)).2
  have refs_eq : ∀ b, NodeIn h.words b → b ≠ a → b ∉ l' → Regular h'.words b ∧ refs h'.words b = refs h.words b := by
    intro b hb here out
    have regular := (m.used b hb fun mem => out ((same b here).2 mem)).1
    have body := (others b hb here).sameBody
    exact ⟨body.regular regular, body.refs regular⟩
  exact {
    sized := m.sized.congr size
    unmarked := fun b hb => by
      replace hb := (nodeIn b).1 hb
      by_cases here : b = a
      · exact here ▸ clear
      · rw [Marked, others b hb here 0 (by decide)]
        exact m.unmarked b hb
    links := links
    nodup := nodup
    free := fun b mem => by
      refine ⟨(nodeIn b).2 ?_, high b mem⟩
      by_cases here : b = a
      · exact here ▸ (free (here ▸ mem)).1
      · exact (m.free b ((same b here).1 mem)).1
    used := fun b hb out => by
      replace hb := (nodeIn b).1 hb
      by_cases here : b = a
      · subst here
        obtain ⟨regular, inside, -⟩ := used hb out
        exact ⟨regular, fun c mem => (isAddress_congr size).2 (inside c mem)⟩
      · obtain ⟨regular, equal⟩ := refs_eq b hb here out
        rw [equal]
        refine ⟨regular, fun c mem => (isAddress_congr size).2 ?_⟩
        exact (m.used b hb fun mem => out ((same b here).2 mem)).2 c mem
    low := fun b hb below => by
      replace hb := (nodeIn b).1 hb
      have out : b ∉ l' := fun mem => UInt32.not_lt.2 (high b mem) below
      by_cases here : b = a
      · subst here
        exact (used hb out).2.2 below
      · rw [(refs_eq b hb here out).2]
        exact m.low b hb below
    pins := by
      rw [pinned]
      exact fun b mem => (isAddress_congr size).2 (m.pins b mem) }

end Changing

/-- The node at `a`, which was free in `h`, has been handed out: it lies inside the heap and above the
reserved nodes, it is blank but for its header, and no other node has been touched. -/
structure Hands (tag : Tag) (size : Nat) (h h' : Heap) (a : Addr) : Prop where
  aligned : a.toNat % nodeSize = 0
  inside : a.toNat + nodeSize ≤ h.words.size
  high : bottom ≤ a
  present : a ≠ noAddr
  unused : tagAt h.words a = .free
  header : cell h'.words a 0 = freshHeader tag size
  clear : ∀ i < nodeSize, i ≠ 0 → cell h'.words a i = 0
  length : h'.words.size = h.words.size
  others : ∀ b, NodeIn h.words b → b ≠ a → SameNode h.words h'.words b

section Taking

variable {h h' : Heap} {l : List Addr} {frees size : Nat} {tag : Tag} {a : Addr}

/-- The fourteen tags of nodes in use. -/
def Tag.IsUsed (t : Tag) : Prop := 1 ≤ t.number.toNat ∧ t.number.toNat ≤ 14

theorem take_stats (run : take tag size a h = .ok a h') :
    h'.stats = { h.stats with
      allocations := h.stats.allocations + 1, freeNodes := h.stats.freeNodes - 1 } := by
  unfold take at run
  split at run
  · cases run
  · split at run
    · rw [← (EStateM.Result.ok.inj run).2]
    · cases run

theorem isScalar_or_of_isUsed (used : Tag.IsUsed tag) :
    IsScalar tag ∨ IsPointers tag ∨ tag = .intChannel ∨ tag = .waitQueue := by
  have all : ∀ n < 15, 1 ≤ n → IsScalar ⟨n.toUInt8⟩ ∨ IsPointers ⟨n.toUInt8⟩ ∨
      (⟨n.toUInt8⟩ : Tag) = .intChannel ∨ (⟨n.toUInt8⟩ : Tag) = .waitQueue := by
    unfold IsScalar IsPointers
    decide
  have here := all tag.number.toNat (Nat.lt_succ_of_le used.2) used.1
  rwa [Nat.toUInt8, UInt8.ofNat_toNat] at here

/-- A node that has just been taken refers to the first reserved node or to nothing. -/
theorem blank_regular {words : Array Word} (used : Tag.IsUsed tag) (le : size ≤ nodeSize)
    (cells : ∀ i < nodeSize, cell words a i = blank tag size i) :
    Regular words a ∧ ∀ c ∈ refs words a, c = 0 := by
  have small : size < 256 := by unfold nodeSize at le; omega
  have header : cell words a 0 = freshHeader tag size := cells 0 (by decide)
  have tagged : tagAt words a = tag := by
    rw [tagAt, header, byte_freshHeader tag small (by decide)]
    rfl
  have byte : ∀ i < 8, (cell words a 0).byte i = if i = 0 then tag.number else if i = 1 then size.toUInt8 else 0 := by
    intro i hi
    rw [header, byte_freshHeader tag small hi]
  have zero : ∀ i < nodeSize, i ≠ 0 → (cell words a i).low = 0 := by
    intro i hi ne
    rw [cells i hi, blank, if_neg ne]
    rfl
  have count : ((cell words a 0).byte 1).toNat = size := by
    rw [byte 1 (by decide)]
    exact toNat_toUInt8 small
  rcases isScalar_or_of_isUsed used with scalar | pointers | channel | queue
  · rw [← tagged] at scalar
    refine ⟨.inl scalar, fun c mem => ?_⟩
    rw [refs_of_scalar scalar] at mem
    cases mem
  · rw [← tagged] at pointers
    refine ⟨.inr (.inl ⟨pointers, by omega⟩), fun c mem => ?_⟩
    rw [refs_of_pointers pointers] at mem
    obtain ⟨i, inside, rfl⟩ := List.mem_map.1 mem
    have := List.mem_range.1 inside
    exact zero _ (by omega) (by omega)
  · rw [← tagged] at channel
    have empty : ((cell words a 0).byte 6).toNat = 0 := by
      rw [byte 6 (by decide)]
      rfl
    have slots : ((cell words a 0).byte 7).toNat = 0 := by
      rw [byte 7 (by decide)]
      rfl
    refine ⟨.inr (.inr (.inl ⟨channel, by rw [slots]; decide, fun _ => empty⟩)), fun c mem => ?_⟩
    rw [refs_of_channel channel, empty] at mem
    simp only [ringCells, List.range_zero, List.map_nil, List.mem_cons, List.not_mem_nil, or_false] at mem
    rcases mem with rfl | rfl
    · exact zero 1 (by decide) (by decide)
    · exact zero 2 (by decide) (by decide)
  · rw [← tagged] at queue
    have empty : ((cell words a 0).byte 5).toNat = 0 := by
      rw [byte 5 (by decide)]
      rfl
    refine ⟨.inr (.inr (.inr queue)), fun c mem => ?_⟩
    rw [refs_of_queue queue, empty] at mem
    cases mem

/-- Taking the head of the list pops it. -/
theorem Managed.take (m : Managed h (a :: l)) (k : Counted h (a :: l) frees) (used : Tag.IsUsed tag)
    {size : Nat} (le : size ≤ nodeSize) :
    ∃ h', Heap.take tag size a h = .ok a h' ∧ Hands tag size h h' a ∧ Managed h' l ∧ Counted h' l frees := by
  obtain ⟨ha, high⟩ := m.free a List.mem_cons_self
  obtain ⟨fresh, nodup⟩ := List.nodup_cons.1 m.nodup
  obtain ⟨h', run, size', head, pinned, others, cells⟩ := take_ok ha tag size
  obtain ⟨regular, zero⟩ := blank_regular used le cells
  have present : a ≠ noAddr := fun none => not_nodeIn_noAddr m.sized.small (none ▸ ha)
  have hands : Hands tag size h h' a := by
    refine ⟨ha.1, ha.2, high, present, m.links.tagAt List.mem_cons_self, cells 0 (by decide),
      fun i hi ne => ?_, size', others⟩
    rw [cells i hi, blank, if_neg ne]
  have managed : Managed h' l := by
    refine m.change size' pinned others ?_ ?_ nodup (fun b ne => by simp [ne]) (fun mem => absurd mem fresh)
      fun _ _ => ⟨regular, fun c mem => ?_, fun below => absurd below (UInt32.not_lt.2 high)⟩
    · rw [Marked, Bool.not_eq_true, hands.header, Word.isMarked_eq_false_iff]
      exact byte_freshHeader tag (by unfold nodeSize at le; omega) (by decide)
    · have links := m.links
      rw [links.uncons.1] at links
      exact links.pop m.nodup (fun b mem => (m.free b mem).1) m.sized.small head others
    · rw [zero c mem]
      exact .inr (m.sized.nodeIn_low (by decide) (by decide))
  exact ⟨h', run, hands, managed, k.popped size' (take_stats run)⟩

end Taking

section Operations

variable {h h' : Heap} {l roots : List Addr} {frees : Nat} {a : Addr}

/-- An allocation pops the list, which must not be empty. -/
theorem Managed.allocate_cons (m : Managed h (a :: l)) (k : Counted h (a :: l) frees) (roots : List Addr)
    {tag : Tag} (used : Tag.IsUsed tag) {size : Int} (fits : 1 ≤ size ∧ size ≤ 16) :
    ∃ h', allocate (.pure roots) tag size h = .ok a h' ∧ Hands tag size.toNat h h' a ∧ Managed h' l ∧
      Counted h' l frees := by
  have le : size.toNat ≤ nodeSize := by unfold nodeSize; omega
  obtain ⟨h', run, rest⟩ := m.take k used le
  refine ⟨h', ?_, rest⟩
  rw [allocate, if_neg (by unfold nodeSize; omega), m.links.uncons.1]
  exact run

/-- From an empty list an allocation goes on after a collection, which cannot crash. -/
theorem Managed.allocate_nil (m : Managed h []) (k : Counted h [] frees)
    (start : ∀ r ∈ roots, IsAddress h.words r) (tag : Tag) {size : Int} (fits : 1 ≤ size ∧ size ≤ 16) :
    ∃ l' h₁, Heap.collect roots h = .ok l'.length h₁ ∧ Collected h roots l' h₁ ∧ Managed h₁ l' ∧
      Counted h₁ l' frees ∧ allocate (.pure roots) tag size h =
        if l' = [] then .error (.fault (.outOfMemory h.stats.nodes)) h₁
        else allocate (.pure roots) tag size h₁ := by
  have all : ∀ r ∈ roots ++ h.pinned, IsAddress h.words r := fun r mem =>
    (List.mem_append.1 mem).elim (start r) (m.pins r)
  have traced := m.traced all fun a _ => List.not_mem_nil
  obtain ⟨l', h₁, run, c⟩ := collect_of_traced m.sized m.unmarked traced
  have m₁ := m.collected traced c
  refine ⟨l', h₁, run, c, m₁, k.collected c, ?_⟩
  have within : ¬ (size < 1 ∨ (nodeSize : Int) < size) := by unfold nodeSize; omega
  have visited : (Roots.pure roots).visit h.stats.collections = roots := rfl
  rw [allocate, if_neg within, m.links.empty, visited]
  simp only [run]
  cases l' with
  | nil => rw [m₁.links.empty, if_pos rfl, c.stats]
  | cons a rest =>
    rw [if_neg (List.cons_ne_nil a rest), allocate, if_neg within, m₁.links.uncons.1]

/-- An allocation that is refused for want of memory has collected before. -/
theorem Managed.allocates (m : Managed h l) (k : Counted h l frees) (start : ∀ r ∈ roots, IsAddress h.words r) {tag : Tag}
    (used : Tag.IsUsed tag) {size : Int} (fits : 1 ≤ size ∧ size ≤ 16) :
    ∃ l' h', ((∃ a, allocate (.pure roots) tag size h = .ok a h') ∨
      ∃ c, allocate (.pure roots) tag size h = .error (.fault c) h') ∧ Managed h' l' ∧ Counted h' l' frees := by
  cases l with
  | cons a rest =>
    obtain ⟨h', run, -, m', k'⟩ := m.allocate_cons k roots used fits
    exact ⟨rest, h', .inl ⟨a, run⟩, m', k'⟩
  | nil =>
    obtain ⟨l', h₁, -, -, m₁, k₁, run⟩ := m.allocate_nil k start tag fits
    cases l' with
    | nil => exact ⟨[], h₁, .inr ⟨_, run⟩, m₁, k₁⟩
    | cons a rest =>
      rw [if_neg (List.cons_ne_nil a rest)] at run
      obtain ⟨h', run', -, m', k'⟩ := m₁.allocate_cons k₁ roots used fits
      exact ⟨rest, h', .inl ⟨a, run.trans run'⟩, m', k'⟩

theorem Managed.push (m : Managed h l) (k : Counted h l frees) (high : bottom ≤ a) (ha : NodeIn h.words a)
    (used : tagAt h.words a ≠ .free) :
    ∃ h', Heap.free a h = .ok () h' ∧ Managed h' (a :: l) ∧ Counted h' (a :: l) (frees + 1) := by
  have out : a ∉ l := fun mem => used (m.links.tagAt mem)
  have inside : h.isNode a = Bool.true := by
    simp [isNode, ha.1]
    have := ha.2
    unfold nodeSize at this
    omega
  have taken : (h.words.getD a.toNat 0).byte 0 ≠ 0 := fun zero => used (congrArg Tag.mk zero)
  let h' : Heap :=
    { h.put a 0 (freeWord h.freeHead) with
      freeHead := some a
      stats := { h.stats with freeNodes := h.stats.freeNodes + 1 } }
  have run : Heap.free a h = .ok () h' := by
    rw [Heap.free, if_neg (UInt32.not_lt.2 high), if_neg (by simp [inside]), if_neg taken]
    rfl
  have size : h'.words.size = h.words.size := put_size
  have self : cell h'.words a 0 = freeWord h.freeHead := by
    rw [show h'.words = (h.put a 0 (freeWord h.freeHead)).words from rfl,
      cell_put ha ha (by decide) (by decide), if_pos ⟨rfl, rfl⟩]
  have others : ∀ b, NodeIn h.words b → b ≠ a → SameNode h.words h'.words b := fun b hb ne =>
    sameNode_put ha hb (by decide) ne
  have managed : Managed h' (a :: l) := by
    refine m.change size rfl others ?_ (.cons self ?_) (List.nodup_cons.2 ⟨out, m.nodup⟩)
      (fun b ne => by simp [ne]) (fun _ => ⟨ha, high⟩) fun _ apart => absurd List.mem_cons_self apart
    · rw [Marked, self, isMarked_freeWord]
      decide
    · refine m.links.congr fun b mem => others b (m.free b mem).1 ?_ 0 (by decide)
      rintro rfl
      exact out mem
  exact ⟨h', run, managed, k.pushed size rfl⟩

/-- Returning anything else crashes before the heap is touched. -/
theorem free_refused (m : Managed h l) (bad : ¬ (bottom ≤ a ∧ NodeIn h.words a ∧ tagAt h.words a ≠ .free)) :
    ∃ c, free a h = .error (.crash c) h := by
  rw [free]
  split
  · exact ⟨_, rfl⟩
  · next high =>
    split
    · exact ⟨_, rfl⟩
    · next inside =>
      split
      · exact ⟨_, rfl⟩
      · next used =>
        refine absurd ⟨UInt32.not_lt.1 high, ?_, fun free => used (congrArg Tag.number free)⟩ bad
        have aligned := m.sized.aligned
        simp only [isNode, Bool.not_eq_true', Bool.not_eq_false, Bool.and_eq_true, decide_eq_true_eq,
          beq_iff_eq] at inside
        unfold NodeIn nodeSize at *
        omega

/-- The write keeps the tag, the size and the mark of a node in use. Afterwards its references lie inside
it and are addresses; those of a reserved node stay with the reserved ones. -/
structure InLayout (h : Heap) (a : Addr) (i : Nat) (w : Word) : Prop where
  node : NodeIn h.words a
  used : tagAt h.words a ≠ .free
  inside : i < nodeSize
  header : ∀ k < 3, (cell (h.put a i w).words a 0).byte k = (cell h.words a 0).byte k
  regular : Regular (h.put a i w).words a
  references : ∀ c ∈ refs (h.put a i w).words a, IsAddress h.words c
  reserved : a < bottom → ∀ c ∈ refs (h.put a i w).words a, Skipped c

theorem Managed.write (m : Managed h l) {i : Nat} {w : Word} (fits : InLayout h a i w) :
    Managed (h.put a i w) l := by
  have others : ∀ b, NodeIn h.words b → b ≠ a → SameNode h.words (h.put a i w).words b :=
    fun b hb ne => sameNode_put fits.node hb fits.inside ne
  have out : a ∉ l := fun mem => fits.used (m.links.tagAt mem)
  refine m.change put_size rfl others ?_ ?_ m.nodup (fun _ _ => Iff.rfl) (fun mem => absurd mem out)
    fun _ _ => ⟨fits.regular, fits.references, fits.reserved⟩
  · have clear := m.unmarked a fits.node
    rw [Marked, Bool.not_eq_true, Word.isMarked_eq_false_iff] at clear ⊢
    rw [fits.header 2 (by decide), clear]
  · refine m.links.congr fun b mem => others b (m.free b mem).1 ?_ 0 (by decide)
    rintro rfl
    exact out mem

end Operations

theorem reserved_of_low {a : Addr} (aligned : a.toNat % nodeSize = 0) (low : a < bottom) : ∃ r, Reserved a r := by
  rw [UInt32.lt_iff_toNat_lt, bottom_toNat] at low
  by_cases value : a < builtinsFrame
  · exact ⟨.value, aligned, value⟩
  · unfold nodeSize at aligned
    rw [UInt32.lt_iff_toNat_lt, show builtinsFrame.toNat = 224 from rfl] at value
    by_cases frame : a.toNat = 224
    · exact ⟨.frame, UInt32.toNat_inj.1 frame⟩
    · exact ⟨.environment, UInt32.toNat_inj.1 (show a.toNat = 240 by omega)⟩

/-- Every reserved node of a new heap stands for something that refers to reserved nodes only. -/
theorem create_low {size : Int} {h : Heap} {a : Addr} (made : create size = .ok h) (ha : NodeIn h.words a)
    (low : a < bottom) : Regular h.words a ∧ (∀ c ∈ refs h.words a, IsAddress h.words c) ∧
      ∀ c ∈ refs h.words a, Skipped c := by
  have mirror := create_mirror made made
  obtain ⟨r, reserved⟩ := reserved_of_low ha.1 low
  obtain ⟨n, s, admits, -⟩ := mirror.nodes a r (mirror.reserved a r reserved)
  rw [s.refs]
  refine ⟨s.layout.regular, fun c mem => ?_, fun c mem => .inr ((admits.low low).2 c mem)⟩
  obtain ⟨t, known⟩ := admits.fits.known mem
  obtain ⟨n', s', -⟩ := mirror.nodes c t known
  exact .inr s'.node

theorem create_stats {size : Int} {h : Heap} (made : create size = .ok h) :
    h.stats = { nodes := size.toNat / nodeSize, freeNodes := ((size.toNat / nodeSize - reservedNodes : Nat) : Int),
                allocations := reservedNodes.toUInt64, collections := 0, freed := 0 } := by
  unfold create at made
  split at made
  · cases made
  · split at made
    · cases made
    · split at made
      · cases made
      · rw [← Except.ok.inj made]

theorem create_counted {size : Int} {h : Heap} (made : create size = .ok h) :
    Counted h (ascending h.words.size) 0 := by
  obtain ⟨init, -, -⟩ := create_initial made
  obtain ⟨total, -⟩ := init.total
  have sixteen : ((size.toNat / nodeSize : Nat) : Int) - ((size.toNat / nodeSize - reservedNodes : Nat) : Int) = 16 := by
    unfold nodeSize reservedNodes at *
    omega
  refine ⟨?_, ?_, ?_⟩
  · rw [create_stats made, init.size_eq]
  · rw [create_stats made, init.size_eq]
    simp [ascending]
  · rw [create_stats made]
    simp only [sixteen]
    rfl

theorem create_managed {size : Int} {h : Heap} (made : create size = .ok h) :
    Managed h (ascending h.words.size) ∧ Counted h (ascending h.words.size) 0 := by
  obtain ⟨init, head, pins⟩ := create_initial made
  refine ⟨?_, create_counted made⟩
  rw [init.size_eq]
  refine ⟨init.sized, init.unmarked, head ▸ init.freeList, init.nodup_ascending,
    fun a mem => init.mem_ascending.1 mem, fun a ha out => ?_, fun a ha low => (create_low made ha low).2.2, ?_⟩
  · have low : a < bottom := UInt32.not_le.1 fun high => out (init.mem_ascending.2 ⟨ha, high⟩)
    exact ⟨(create_low made ha low).1, (create_low made ha low).2.1⟩
  · simp [pins]

/-- The free list of the heap is the stack `l`, after `frees` nodes have been returned one by one: the
links visit the nodes with tag 0, each once, and the counters fit. -/
structure Stack (h : Heap) (l : List Addr) (frees : Nat) : Prop where
  links : FreeList h.words h.freeHead l
  once : l.Nodup
  mem_iff : ∀ a, a ∈ l ↔ NodeIn h.words a ∧ tagAt h.words a = .free
  count : h.stats.freeNodes = l.length
  balance : h.stats.allocations - h.stats.freed - frees.toUInt64 =
    UInt64.ofInt (h.stats.nodes - h.stats.freeNodes)

theorem Managed.stack {h : Heap} {l : List Addr} {frees : Nat} (m : Managed h l) (k : Counted h l frees) :
    Stack h l frees :=
  ⟨m.links, m.nodup, fun _ => m.mem_iff, k.free, k.balance⟩

/-- A call to the allocator, with the roots that a collection would start from, or a write. -/
inductive Op
  | allocate (roots : List Addr) (tag : Tag) (size : Int)
  | free (a : Addr)
  | collect (roots : List Addr)
  | pin (as : List Addr)
  | release (mark : Nat)
  /-- Replaces word `i` of the node at `a`. -/
  | write (a : Addr) (i : Nat) (w : Word)

namespace Op

def perform : Op → HeapM Unit
  | allocate roots tag size => do let _ ← Heap.allocate (.pure roots) tag size
  | free a => Heap.free a
  | collect roots => do let _ ← Heap.collect roots
  | pin as => modify fun h => { h with pinned := h.pinned ++ as }
  | release mark => modify fun h => h.release mark
  | write a i w => writeWord ((a.toNat + i : Nat) : Int) w

def frees : Op → Nat
  | free _ => 1
  | _ => 0

/-- Nodes are taken with a tag and a size that exist, roots and pins are addresses, and writes stay
inside the layout. -/
def Proper (h : Heap) : Op → Prop
  | allocate roots tag size =>
    Tag.IsUsed tag ∧ (1 ≤ size ∧ size ≤ 16) ∧ ∀ r ∈ roots, IsAddress h.words r
  | free _ | release _ => True
  | collect roots => ∀ r ∈ roots, IsAddress h.words r
  | pin as => ∀ r ∈ as, IsAddress h.words r
  | write a i w => InLayout h a i w

end Op

/-- The heaps that a heap of `size` words can become without a crash, with the number of nodes that have
been returned one by one. -/
inductive History (size : Int) : Nat → Heap → Prop
  | create {h : Heap} : Heap.create size = .ok h → History size 0 h
  | ok {frees : Nat} {h h' : Heap} (op : Op) : History size frees h → op.Proper h →
    op.perform h = .ok () h' → History size (frees + op.frees) h'
  | refused {frees : Nat} {h h' : Heap} {c : Cause} (op : Op) : History size frees h → op.Proper h →
    op.perform h = .error (.fault c) h' → History size (frees + op.frees) h'

section Histories

variable {h h' : Heap} {l : List Addr} {frees : Nat} {op : Op}

/-- What an operation that does not crash leaves can be managed. -/
theorem Managed.perform (m : Managed h l) (k : Counted h l frees) (proper : op.Proper h) :
    match op.perform h with
    | .ok _ h' => ∃ l', Managed h' l' ∧ Counted h' l' (frees + op.frees)
    | .error (.fault _) h' => ∃ l', Managed h' l' ∧ Counted h' l' (frees + op.frees)
    | .error (.crash _) _ => True := by
  cases op with
  | allocate roots tag size =>
    obtain ⟨used, fits, start⟩ := proper
    obtain ⟨l', h', ⟨a, run⟩ | ⟨c, run⟩, m', k'⟩ := m.allocates k start used fits
    · have done : Op.perform (.allocate roots tag size) h = .ok () h' := bind_of_ok run
      rw [done]
      exact ⟨l', m', k'⟩
    · have done : Op.perform (.allocate roots tag size) h = .error (.fault c) h' := bind_of_error run
      rw [done]
      exact ⟨l', m', k'⟩
  | free a =>
    by_cases good : bottom ≤ a ∧ NodeIn h.words a ∧ tagAt h.words a ≠ .free
    · obtain ⟨h', run, m', k'⟩ := m.push k good.1 good.2.1 good.2.2
      have done : Op.perform (.free a) h = .ok () h' := run
      rw [done]
      exact ⟨a :: l, m', k'⟩
    · obtain ⟨c, run⟩ := free_refused m good
      have done : Op.perform (.free a) h = .error (.crash c) h := run
      rw [done]
      trivial
  | collect roots =>
    cases run : Heap.collect roots h with
    | ok n h' =>
      obtain ⟨l', -, -, m', k'⟩ := m.collect k proper run
      have done : Op.perform (.collect roots) h = .ok () h' := bind_of_ok run
      rw [done]
      exact ⟨l', m', k'⟩
    | error e h' =>
      obtain ⟨c, rfl⟩ : ∃ c, e = .crash c := by
        unfold Heap.collect at run
        split at run
        · exact ⟨_, (EStateM.Result.error.inj run).1.symm⟩
        · cases run
      have done : Op.perform (.collect roots) h = .error (.crash c) h' := bind_of_error run
      rw [done]
      trivial
  | pin as =>
    refine ⟨l, ⟨m.sized, m.unmarked, m.links, m.nodup, m.free, m.used, m.low, fun a mem => ?_⟩,
      k.nodes, k.free, k.balance⟩
    exact (List.mem_append.1 mem).elim (m.pins a) (proper a)
  | release mark =>
    exact ⟨l, ⟨m.sized, m.unmarked, m.links, m.nodup, m.free, m.used, m.low,
      fun a mem => m.pins a (List.mem_of_mem_take mem)⟩, k.nodes, k.free, k.balance⟩
  | write a i w =>
    have done : Op.perform (.write a i w) h = .ok () (h.put a i w) := writeWord_ok proper.node proper.inside
    rw [done]
    refine ⟨l, m.write proper, ?_, k.free, k.balance⟩
    rw [put_size]
    exact k.nodes

theorem History.managed {size : Int} (history : History size frees h) :
    ∃ l, Managed h l ∧ Counted h l frees := by
  induction history with
  | create made => exact ⟨_, create_managed made⟩
  | ok op _ proper run ih =>
    obtain ⟨l, m, k⟩ := ih
    have next := m.perform k proper
    rwa [run] at next
  | refused op _ proper run ih =>
    obtain ⟨l, m, k⟩ := ih
    have next := m.perform k proper
    rwa [run] at next

end Histories

/-- The top of the stack `l` of `h` has been handed out; `r` is what the allocation returned. -/
def Pops (tag : Tag) (size : Int) (frees : Nat) (h : Heap) (l : List Addr)
    (r : EStateM.Result Failure Heap Addr) : Prop :=
  ∃ a rest h', l = a :: rest ∧ r = .ok a h' ∧ Hands tag size.toNat h h' a ∧ Stack h' rest frees

theorem Managed.pops {h : Heap} {l : List Addr} {frees : Nat} (m : Managed h l) (k : Counted h l frees)
    (roots : List Addr) {tag : Tag} (used : Tag.IsUsed tag) {size : Int} (fits : 1 ≤ size ∧ size ≤ 16)
    (some : l ≠ []) : Pops tag size frees h l (allocate (.pure roots) tag size h) := by
  cases l with
  | nil => exact absurd rfl some
  | cons a rest =>
    obtain ⟨h', run, hands, m', k'⟩ := m.allocate_cons k roots used fits
    exact ⟨a, rest, h', rfl, run, hands, m'.stack k'⟩

/-- A heap is a stack of free addresses. A new one has all collectable addresses on it, the lowest on
top. After any history without a crash, an allocation pops, after a collection if the stack is empty; it
fails exactly if the stack is empty and everything collectable is reachable. A collection leaves what is
not reachable. Freeing a node in use pushes; freeing anything else crashes and changes nothing. -/
theorem allocator_is_stack (size : Int) :
    (∀ h, create size = .ok h → h.Stack (ascending h.words.size) 0) ∧
    ∀ frees h, History size frees h → ∃ l, h.Stack l frees ∧
      (∀ roots tag k, (Op.allocate roots tag k).Proper h →
        (l ≠ [] → Pops tag k frees h l (allocate (.pure roots) tag k h)) ∧
        (l = [] → ∃ l' h₁, collect roots h = .ok l'.length h₁ ∧ h₁.Stack l' frees ∧
          (∀ a ∈ l', ¬ Closure h.words (roots ++ h.pinned) a) ∧
          (l' ≠ [] → Pops tag k frees h₁ l' (allocate (.pure roots) tag k h))) ∧
        ((∃ h', allocate (.pure roots) tag k h = .error (.fault (.outOfMemory h.stats.nodes)) h') ↔
          l = [] ∧ ∀ a, NodeIn h.words a → bottom ≤ a → Closure h.words (roots ++ h.pinned) a)) ∧
      (∀ roots n h', (Op.collect roots).Proper h → collect roots h = .ok n h' →
        ∃ l', n = l'.length ∧ h'.Stack l' frees ∧ ∀ a, a ∈ l' ↔
          NodeIn h.words a ∧ bottom ≤ a ∧ ¬ Closure h.words (roots ++ h.pinned) a) ∧
      (∀ a, bottom ≤ a → NodeIn h.words a → tagAt h.words a ≠ .free →
        ∃ h', free a h = .ok () h' ∧ h'.Stack (a :: l) (frees + 1)) ∧
      ∀ a, a < bottom ∨ ¬ NodeIn h.words a ∨ tagAt h.words a = .free →
        ∃ c, free a h = .error (.crash c) h := by
  refine ⟨fun h made => ?_, fun frees h history => ?_⟩
  · obtain ⟨m, k⟩ := create_managed made
    exact m.stack k
  obtain ⟨l, m, k⟩ := history.managed
  have address : ∀ {roots : List Addr}, (∀ r ∈ roots, IsAddress h.words r) →
      ∀ r ∈ roots ++ h.pinned, IsAddress h.words r := fun start r mem =>
    (List.mem_append.1 mem).elim (start r) (m.pins r)
  -- What a collection frees, in terms of all references.
  have freed : ∀ {roots l' : List Addr} {h' : Heap}, (∀ r ∈ roots, IsAddress h.words r) →
      Collected h roots l' h' → ∀ a, a ∈ l' ↔
        NodeIn h.words a ∧ bottom ≤ a ∧ ¬ Closure h.words (roots ++ h.pinned) a := by
    intro roots l' h' start c a
    rw [c.mem_iff a]
    refine and_congr_right fun ha => and_congr_right fun le => not_congr ?_
    exact (m.closure_iff (address start) ha le).symm
  refine ⟨l, m.stack k, ?_, ?_, fun a high ha used => ?_, fun a bad => free_refused m ?_⟩
  · rintro roots tag n ⟨used, fits, start⟩
    refine ⟨m.pops k roots used fits, ?_, ?_⟩
    · rintro rfl
      obtain ⟨l', h₁, run, c, m₁, k₁, same⟩ := m.allocate_nil k start tag fits
      refine ⟨l', h₁, run, m₁.stack k₁, fun a mem => ((freed start c a).1 mem).2.2, fun some => ?_⟩
      rw [same, if_neg some]
      exact m₁.pops k₁ roots used fits some
    · cases l with
      | cons a rest =>
        obtain ⟨h', run, -⟩ := m.allocate_cons k roots used fits
        rw [run]
        simp
      | nil =>
        obtain ⟨l', h₁, -, c, m₁, k₁, same⟩ := m.allocate_nil k start tag fits
        rw [same]
        -- The collection leaves nothing exactly if everything collectable is reachable.
        have empty : l' = [] ↔ ∀ a, NodeIn h.words a → bottom ≤ a → Closure h.words (roots ++ h.pinned) a := by
          rw [List.eq_nil_iff_forall_not_mem]
          refine forall_congr' fun a => ?_
          rw [freed start c a]
          constructor
          · exact fun none ha le => Classical.byContradiction fun dead => none ⟨ha, le, dead⟩
          · exact fun all ⟨ha, le, dead⟩ => dead (all ha le)
        rw [← empty]
        cases l' with
        | nil => simp
        | cons a rest =>
          obtain ⟨h', run, -⟩ := m₁.allocate_cons k₁ roots used fits
          rw [if_neg (List.cons_ne_nil a rest), run]
          simp
  · intro roots n h' start run
    obtain ⟨l', length, c, m', k'⟩ := m.collect k start run
    exact ⟨l', length, m'.stack k', freed start c⟩
  · obtain ⟨h', run, m', k'⟩ := m.push k high ha used
    exact ⟨h', run, m'.stack k'⟩
  · rintro ⟨high, ha, used⟩
    rcases bad with below | out | free
    · exact UInt32.not_lt.2 high below
    · exact out ha
    · exact used free

/-- A node that has been taken from a new heap and returned is the next one to be handed out. -/
theorem allocator_is_stack_lifo : ∃ h rest, History 288 1 h ∧ h.Stack (256 :: rest) 1 ∧
    Pops .int 2 1 h (256 :: rest) (allocate (.pure []) .int 2 h) := by
  obtain ⟨h₀, made⟩ : ∃ h₀, create 288 = .ok h₀ := ⟨_, rfl⟩
  have size : h₀.words.size = 288 := (create_initial made).1.size_eq
  obtain ⟨m₀, k₀⟩ := create_managed made
  rw [size, show ascending 288 = [256, 272] from by decide] at m₀ k₀
  have proper : ∀ h, (Op.allocate [] .int 2).Proper h := fun h => ⟨⟨by decide, by decide⟩, by decide, nofun⟩
  obtain ⟨h₁, run₁, hands, m₁, k₁⟩ := m₀.allocate_cons k₀ [] (proper h₀).1 (proper h₀).2.1
  have ha : NodeIn h₁.words 256 := ⟨hands.aligned, hands.length ▸ hands.inside⟩
  have used : tagAt h₁.words 256 ≠ .free := by
    rw [tagAt, hands.header]
    decide
  obtain ⟨h₂, run₂, m₂, -⟩ := m₁.push k₁ (by decide) ha used
  have history : History 288 1 h₂ := .ok (.free 256)
    (.ok (.allocate [] .int 2) (.create made) (proper h₀) (bind_of_ok run₁)) trivial run₂
  obtain ⟨l, stack, allocates, -⟩ := (allocator_is_stack 288).2 1 h₂ history
  obtain ⟨rest, rfl⟩ : ∃ rest, l = 256 :: rest := by
    have links := stack.links
    rw [m₂.links.uncons.1] at links
    cases links with
    | cons _ _ => exact ⟨_, rfl⟩
  exact ⟨h₂, rest, history, stack, (allocates [] .int 2 (proper h₂)).1 (List.cons_ne_nil _ _)⟩

end Heap

end FiberVm
