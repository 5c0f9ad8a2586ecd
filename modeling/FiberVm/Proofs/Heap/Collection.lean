import FiberVm.Proofs.Heap.Node
import FiberVm.Proofs.Heap.Sweep

/-!
# A collection is exact

What the roots and the pins reach stays as it is, word for word; every other collectable node goes onto
the free list, once, highest address first; nothing else changes but the counters. A second collection
finds nothing to do.
-/

set_option autoImplicit false

namespace FiberVm

namespace Heap

/-- What a collection from `roots` has made of `h`; `l` is the free list it leaves. -/
structure Collected (h : Heap) (roots l : List Addr) (h' : Heap) : Prop where
  size : h'.words.size = h.words.size
  pinned : h'.pinned = h.pinned
  reserved : ∀ a, NodeIn h.words a → a < bottom → SameNode h.words h'.words a
  live : ∀ a, NodeIn h.words a → Reaches h.words (roots ++ h.pinned) a →
    SameNode h.words h'.words a
  payload : ∀ a, NodeIn h.words a → ∀ i < nodeSize, i ≠ 0 → cell h'.words a i = cell h.words a i
  list : FreeList h'.words h'.freeHead l
  descending : l.Pairwise (· > ·)
  mem_iff : ∀ a, a ∈ l ↔
    NodeIn h.words a ∧ bottom ≤ a ∧ ¬ Reaches h.words (roots ++ h.pinned) a
  unmarked : Unmarked h'.words
  stats : h'.stats =
    { h.stats with
      freeNodes := l.length
      collections := h.stats.collections + 1
      freed := h.stats.freed + UInt64.ofInt (l.length - h.stats.freeNodes) }

/-- The heap after a sweep. -/
def afterSweep (h : Heap) (s : Sweep) : Heap :=
  { h with
    words := s.words
    freeHead := s.free
    stats :=
      { h.stats with
        freeNodes := s.count
        collections := h.stats.collections + 1
        freed := h.stats.freed + UInt64.ofInt (s.count - h.stats.freeNodes) } }

section

variable {h : Heap} {roots : List Addr}

theorem FreeList.header {words : Array Word} {head : Option Addr} {l : List Addr} {a : Addr}
    (list : FreeList words head l) (ha : a ∈ l) : ∃ next, cell words a 0 = freeWord next := by
  induction list with
  | nil => cases ha
  | @cons b next l link _ ih =>
    rcases List.mem_cons.1 ha with rfl | ha
    · exact ⟨next, link⟩
    · exact ih ha

theorem FreeList.tagAt {words : Array Word} {head : Option Addr} {l : List Addr} {a : Addr}
    (list : FreeList words head l) (ha : a ∈ l) : tagAt words a = .free := by
  obtain ⟨next, link⟩ := list.header ha
  rw [Heap.tagAt, link, byte_freeWord next (by decide)]
  rfl

theorem FreeList.not_marked {words : Array Word} {head : Option Addr} {l : List Addr} {a : Addr}
    (list : FreeList words head l) (ha : a ∈ l) : ¬ Marked words a := by
  obtain ⟨next, link⟩ := list.header ha
  rw [Marked, link, isMarked_freeWord]
  decide

section Marked

variable {base words : Array Word} {a : Addr}

/-- Marking and sweeping together touch nothing but the headers of collectable nodes. -/
theorem MarkedFrom.cell_sweep (marks : MarkedFrom base words) (sized : Sized words) (ha : NodeIn base a) {i : Nat}
    (hi : i < nodeSize) (frame : i ≠ 0 ∨ a < bottom) : cell (sweep words).words a i = cell base a i := by
  rw [cell_sweep_of_frame sized (marks.nodeIn.2 ha) hi frame]
  rcases marks.cells a ha i hi with same | ⟨zero, le, -⟩
  · exact same
  · exact absurd frame (not_or.2 ⟨fun ne => ne zero, UInt32.not_lt.2 le⟩)

theorem MarkedFrom.sameNode_sweep (marks : MarkedFrom base words) (sized : Sized words) (clear : Unmarked base)
    (ha : NodeIn base a) (kept : a < bottom ∨ Marked words a) : SameNode base (sweep words).words a := by
  intro i hi
  by_cases frame : i ≠ 0 ∨ a < bottom
  · exact marks.cell_sweep sized ha hi frame
  · -- The header of a marked node: the sweep takes off the mark that was set on it.
    obtain ⟨zero, high⟩ := not_or.1 frame
    obtain rfl : i = 0 := by omega
    have mark := kept.resolve_left high
    rw [cell_sweep_of_marked sized (marks.nodeIn.2 ha) (UInt32.not_lt.1 high) mark,
      (marks.header_eq_mark clear ha mark).2, Word.unmark_mark (clear a ha)]

theorem MarkedFrom.unmarked_sweep (marks : MarkedFrom base words) (sized : Sized words) (clear : Unmarked base) :
    Unmarked (sweep words).words := by
  have list := (freeList_sweep sized).1
  intro a node
  have size : (sweep words).words.size = base.size := (swept_sweep sized).size.trans marks.size
  have ha : NodeIn base a := (nodeIn_congr size).1 node
  by_cases kept : a < bottom ∨ Marked words a
  · rw [Marked, marks.sameNode_sweep sized clear ha kept 0 (by decide)]
    exact clear a ha
  · obtain ⟨high, dead⟩ := not_or.1 kept
    exact list.not_marked ((mem_deadNodes sized).2 ⟨marks.nodeIn.2 ha, UInt32.not_lt.1 high, dead⟩)

end Marked

/-- A collection of a heap in which everything reachable can be traced. -/
theorem collect_of_traced (sized : Sized h.words) (clear : Unmarked h.words)
    (traced : Traced h.words (roots ++ h.pinned)) :
    ∃ l h', collect roots h = .ok l.length h' ∧ Collected h roots l h' := by
  obtain ⟨words, ok, marks, marked⟩ := mark_eq_reaches sized.small clear traced
  have sized' : Sized words := sized.congr marks.size
  obtain ⟨list, count⟩ := freeList_sweep sized'
  have run : collect roots h = .ok (deadNodes words).length (h.afterSweep (sweep words)) := by
    rw [collect, ok, ← count]
    rfl
  refine ⟨deadNodes words, _, run, ?_⟩
  exact {
    size := (swept_sweep sized').size.trans marks.size
    pinned := rfl
    reserved := fun a ha below => marks.sameNode_sweep sized' clear ha (.inl below)
    live := fun a ha reach => marks.sameNode_sweep sized' clear ha <|
      (UInt32.lt_or_le a bottom).imp_right fun le => (marked a ha).2 ⟨le, reach⟩
    payload := fun a ha i hi ne => marks.cell_sweep sized' ha hi (.inl ne)
    list := list
    descending := pairwise_deadNodes sized'
    mem_iff := fun a => by
      rw [mem_deadNodes sized', marks.nodeIn]
      refine and_congr_right fun ha => and_congr_right fun le => not_congr ?_
      exact (marked a ha).trans (and_iff_right le)
    unmarked := marks.unmarked_sweep sized' clear
    stats := by rw [← count]; rfl }

theorem collect_collected (sized : Sized h.words) (clear : Unmarked h.words)
    (traceable : Traceable h.words (roots ++ h.pinned)) :
    ∃ l h', collect roots h = .ok l.length h' ∧ Collected h roots l h' :=
  collect_of_traced sized clear traceable.traced

theorem SameNode.refers_iff {words words' : Array Word} {a b : Addr}
    (same : SameNode words words' a) (size : words'.size = words.size) (ha : NodeIn words a)
    (layout : Layout words a) : Refers words' a b ↔ Refers words a b := by
  have ha' : NodeIn words' a := (nodeIn_congr size).2 ha
  rw [Heap.refers_iff ha layout, Heap.refers_iff ha' (same.sameBody.layout layout),
    same.sameBody.refs layout.regular]

/-- If every collectable node that the roots reach stays as it is, so does what they reach. -/
theorem reaches_iff_of_same {words words' : Array Word} {roots : List Addr} {a : Addr}
    (small : words.size ≤ maxWords) (size : words'.size = words.size)
    (traceable : Traceable words roots)
    (same : ∀ b, NodeIn words b → Reaches words roots b → SameNode words words' b) :
    Reaches words' roots a ↔ Reaches words roots a := by
  constructor
  · intro reach
    induction reach with
    | root mem => exact .root mem
    | @step x y _ le refers ih =>
      obtain ⟨hx, layout⟩ := (traceable x ih).resolve_left (not_skipped (size ▸ small) le refers)
      exact ih.step le (((same x hx ih).refers_iff size hx layout).1 refers)
  · intro reach
    induction reach with
    | root mem => exact .root mem
    | @step x y before le refers ih =>
      obtain ⟨hx, layout⟩ := (traceable x before).resolve_left (not_skipped small le refers)
      exact ih.step le (((same x hx before).refers_iff size hx layout).2 refers)

theorem Traceable.of_same {words words' : Array Word} {roots : List Addr}
    (small : words.size ≤ maxWords) (size : words'.size = words.size)
    (traceable : Traceable words roots)
    (same : ∀ b, NodeIn words b → Reaches words roots b → SameNode words words' b) :
    Traceable words' roots := by
  intro a reach
  replace reach := (reaches_iff_of_same small size traceable same).1 reach
  rcases traceable a reach with skipped | ⟨ha, layout⟩
  · exact .inl skipped
  · exact .inr ⟨(nodeIn_congr size).2 ha, (same a ha reach).sameBody.layout layout⟩

/-- An array is determined by the cells of its nodes. -/
theorem ext_cells {words words' : Array Word} (sized : Sized words)
    (size : words'.size = words.size) (same : ∀ a, NodeIn words a → SameNode words words' a) :
    words' = words := by
  apply Array.ext size
  intro i hi hi'
  have aligned := sized.aligned
  have small := sized.small
  have back : (i / 16 * 16).toUInt32.toNat = i / 16 * 16 := by
    apply UInt32.toNat_ofNat_of_lt
    have : UInt32.size = 4294967296 := rfl
    unfold maxWords at small
    omega
  have node : NodeIn words (i / 16 * 16).toUInt32 := by
    rw [NodeIn, back]
    unfold nodeSize at *
    omega
  have eq := same _ node (i % 16) (by unfold nodeSize; omega)
  rw [cell, cell, back, show i / 16 * 16 + i % 16 = i by omega] at eq
  simpa [Array.getD_eq_getD_getElem?, hi, hi'] using eq

/-- Marks on the same nodes make the same array. -/
theorem MarkedFrom.unique {base words words' : Array Word} (clear : Unmarked base) (sized : Sized base) (marks : MarkedFrom base words)
    (marks' : MarkedFrom base words') (same : ∀ a, NodeIn base a → (Marked words' a ↔ Marked words a)) :
    words' = words := by
  have size : words'.size = words.size := marks'.size.trans marks.size.symm
  have sized' : Sized words := sized.congr marks.size
  refine ext_cells sized' size fun a ha i hi => ?_
  have ha' : NodeIn base a := marks.nodeIn.1 ha
  by_cases zero : i = 0
  · subst zero
    by_cases marked : Marked words a
    · rw [(marks.header_eq_mark clear ha' marked).2,
        (marks'.header_eq_mark clear ha' ((same a ha').2 marked)).2]
    · rw [marks.header_eq ha' marked, marks'.header_eq ha' fun m => marked ((same a ha').1 m)]
  · have cell : ∀ {words : Array Word}, MarkedFrom base words → cell words a i = cell base a i := by
      intro words marks
      rcases marks.cells a ha' i hi with same | ⟨e, -, -⟩
      · exact same
      · exact absurd e zero
    rw [cell marks, cell marks']

/-- Marking depends on the roots only through what they reach. -/
theorem mark_eq_of_reaches {base : Array Word} {roots roots' : List Addr} (sized : Sized base) (clear : Unmarked base)
    (traced : Traced base roots) (same : ∀ a, bottom ≤ a → (Reaches base roots' a ↔ Reaches base roots a)) :
    mark base roots' = mark base roots := by
  have traced' : Traced base roots' := by
    intro a reach
    by_cases low : a < bottom
    · exact .inl (.inr low)
    · exact traced a ((same a (UInt32.not_lt.1 low)).1 reach)
  obtain ⟨words, run, marks, marked⟩ := mark_eq_reaches sized.small clear traced
  obtain ⟨words', run', marks', marked'⟩ := mark_eq_reaches sized.small clear traced'
  rw [run, run', marks.unique clear sized marks' fun a ha => ?_]
  rw [marked a ha, marked' a ha]
  exact and_congr_right (same a)

/-- The order of the roots makes no difference to a collection. -/
theorem collect_eq_of_mem {roots' : List Addr} (sized : Sized h.words) (clear : Unmarked h.words)
    (traced : Traced h.words (roots ++ h.pinned)) (same : ∀ a, a ∈ roots' ↔ a ∈ roots) :
    collect roots' h = collect roots h := by
  have mem : ∀ a, a ∈ roots' ++ h.pinned ↔ a ∈ roots ++ h.pinned := by
    intro a
    rw [List.mem_append, List.mem_append, same]
  have reaches : ∀ a, Reaches h.words (roots' ++ h.pinned) a ↔ Reaches h.words (roots ++ h.pinned) a := by
    intro a
    exact ⟨fun reach => reach.of_subset fun x => (mem x).1, fun reach => reach.of_subset fun x => (mem x).2⟩
  unfold collect
  rw [mark_eq_of_reaches sized clear traced fun a _ => reaches a]

end

/-- The list fixes the links. -/
theorem FreeList.links {words words' : Array Word} {head head' : Option Addr} {l : List Addr}
    (list : FreeList words head l) (list' : FreeList words' head' l) :
    head' = head ∧ ∀ a ∈ l, cell words' a 0 = cell words a 0 := by
  induction list generalizing head' with
  | nil =>
    cases list'
    exact ⟨rfl, fun a mem => absurd mem List.not_mem_nil⟩
  | @cons a next l link _ ih =>
    cases list' with
    | cons link' rest' =>
      obtain ⟨same, links⟩ := ih rest'
      refine ⟨rfl, fun b mem => ?_⟩
      rcases List.mem_cons.1 mem with rfl | mem
      · rw [link, link', same]
      · exact links b mem

theorem nodup_of_descending {l : List Addr} (sorted : l.Pairwise (· > ·)) : l.Nodup := by
  apply sorted.imp
  rintro a b gt rfl
  exact UInt32.lt_irrefl a gt

theorem eq_of_descending {l l' : List Addr} (sorted : l.Pairwise (· > ·))
    (sorted' : l'.Pairwise (· > ·)) (same : ∀ a, a ∈ l ↔ a ∈ l') : l = l' := by
  have perm := (List.perm_ext_iff_of_nodup (nodup_of_descending sorted)
    (nodup_of_descending sorted')).2 fun a => same a
  exact perm.eq_of_pairwise (fun a b _ _ gt lt => absurd gt (UInt32.lt_asymm lt)) sorted sorted'

/-- A second collection from the same roots finds the heap as it would leave it. -/
theorem Collected.again {h h' : Heap} {roots l : List Addr} (sized : Sized h.words)
    (traceable : Traceable h.words (roots ++ h.pinned)) (c : Collected h roots l h') :
    collect roots h' = .ok l.length
      { h' with stats := { h'.stats with collections := h'.stats.collections + 1 } } := by
  have sized' : Sized h'.words := sized.congr c.size
  have nodeIn : ∀ a, NodeIn h'.words a ↔ NodeIn h.words a := fun _ => nodeIn_congr c.size
  have reaches : ∀ a, Reaches h'.words (roots ++ h'.pinned) a ↔
      Reaches h.words (roots ++ h.pinned) a := fun a => by
    rw [c.pinned]
    exact reaches_iff_of_same sized.small c.size traceable c.live
  have traceable' : Traceable h'.words (roots ++ h'.pinned) := by
    rw [c.pinned]
    exact traceable.of_same sized.small c.size c.live
  obtain ⟨l', h₂, run, c'⟩ := collect_collected sized' c.unmarked traceable'
  have list : l' = l := by
    refine eq_of_descending c'.descending c.descending fun a => ?_
    rw [c'.mem_iff, c.mem_iff, nodeIn, reaches]
  subst list
  obtain ⟨head, links⟩ := c.list.links c'.list
  have words : h₂.words = h'.words := by
    refine ext_cells sized' c'.size fun a ha i hi => ?_
    by_cases payload : i = 0
    · subst payload
      by_cases free : a ∈ l'
      · exact links a free
      · by_cases le : bottom ≤ a
        · have reach : Reaches h'.words (roots ++ h'.pinned) a :=
            Classical.byContradiction fun dead => free ((c'.mem_iff a).2 ⟨ha, le, dead⟩)
          exact c'.live a ha reach 0 hi
        · exact c'.reserved a ha (UInt32.not_le.1 le) 0 hi
    · exact c'.payload a ha i hi payload
  have stats : h₂.stats = { h'.stats with collections := h'.stats.collections + 1 } := by
    have counted : h'.stats.freeNodes = l'.length := by rw [c.stats]
    rw [c'.stats, ← counted, Int.sub_self, show UInt64.ofInt 0 = 0 from rfl, UInt64.add_zero]
  have pinned := c'.pinned
  obtain ⟨words₂, head₂, pinned₂, stats₂⟩ := h₂
  subst words head pinned stats
  exact run

/-- The closure of the roots under all references, reserved nodes included. -/
inductive Closure (words : Array Word) (roots : List Addr) : Addr → Prop
  | root {a : Addr} : a ∈ roots → Closure words roots a
  | step {a b : Addr} : Closure words roots a → Refers words a b → Closure words roots b

/-- The heaps that the allocator keeps, with `free` their free list: every collectable node is on the
list, with tag 0, or laid out; no mark is set; reserved nodes refer to reserved nodes only. -/
structure WellFormed (h : Heap) (free : List Addr) : Prop where
  sized : Sized h.words
  unmarked : Unmarked h.words
  low : ∀ a b, NodeIn h.words a → a < bottom → Refers h.words a b → Skipped b
  list : FreeList h.words h.freeHead free
  nodup : free.Nodup
  free_in : ∀ a ∈ free, NodeIn h.words a ∧ bottom ≤ a
  nodes : ∀ a, NodeIn h.words a → bottom ≤ a → a ∈ free ∨ Layout h.words a

/-- The roots lead to nodes in use, to reserved nodes and to no address at all. -/
def Valid (words : Array Word) (roots : List Addr) : Prop :=
  ∀ a, Closure words roots a →
    a = noAddr ∨ NodeIn words a ∧ (a < bottom ∨ tagAt words a ≠ .free)

section

variable {h : Heap} {roots free : List Addr}

theorem Layout.tagAt_ne {words : Array Word} {a : Addr} (layout : Layout words a) :
    tagAt words a ≠ .free := by
  intro free
  unfold Layout at layout
  rw [free] at layout
  exact layout

theorem Reaches.closure {words : Array Word} {a : Addr} (reach : Reaches words roots a) :
    Closure words roots a :=
  reach.mem_of_closed (fun _ => .root) fun _ _ before _ refers => before.step refers

/-- A list with the roots and all that its own members refer to has everything that is reached. -/
theorem Closure.mem_of_closed {words : Array Word} {inside : List Addr} {a : Addr} (start : roots ⊆ inside)
    (closed : inside.all fun x => ((references words x).toOption.getD []).all inside.contains)
    (closure : Closure words roots a) : a ∈ inside := by
  induction closure with
  | root mem => exact start mem
  | step _ refers ih =>
    obtain ⟨as, eq, mem⟩ := refers
    have next := List.all_eq_true.1 closed _ ih
    rw [eq] at next
    exact List.contains_iff_mem.1 (List.all_eq_true.1 next _ mem)

/-- Reserved nodes add nothing collectable to the closure. -/
theorem WellFormed.reaches_of_closure (wf : h.WellFormed free) (valid : Valid h.words roots)
    {a : Addr} (closure : Closure h.words roots a) : Reaches h.words roots a ∨ Skipped a := by
  induction closure with
  | root mem => exact .inl (.root mem)
  | @step x y before refers ih =>
    by_cases le : bottom ≤ x
    · have reach := ih.resolve_right (not_skipped wf.sized.small le refers)
      exact .inl (reach.step le refers)
    · rcases valid x before with rfl | ⟨hx, -⟩
      · exact absurd refers (not_refers_noAddr wf.sized.small)
      · exact .inr (wf.low x y hx (UInt32.not_le.1 le) refers)

theorem WellFormed.closure_iff (wf : h.WellFormed free) (valid : Valid h.words roots)
    {a : Addr} (ha : NodeIn h.words a) (le : bottom ≤ a) :
    Closure h.words roots a ↔ Reaches h.words roots a := by
  refine ⟨fun closure => (wf.reaches_of_closure valid closure).resolve_right ?_, Reaches.closure⟩
  rintro (rfl | below)
  · exact not_nodeIn_noAddr wf.sized.small ha
  · exact UInt32.not_lt.2 le below

theorem WellFormed.traceable (wf : h.WellFormed free) (valid : Valid h.words roots) :
    Traceable h.words roots := by
  intro a reach
  by_cases skipped : Skipped a
  · exact .inl skipped
  · obtain ⟨present, high⟩ := not_or.1 skipped
    obtain ⟨ha, used⟩ := (valid a reach.closure).resolve_left present
    rcases wf.nodes a ha (UInt32.not_lt.1 high) with mem | layout
    · exact absurd (wf.list.tagAt mem) (used.resolve_left high)
    · exact .inr ⟨ha, layout⟩

theorem ofInt_natCast (n : Nat) : UInt64.ofInt (n : Int) = n.toUInt64 := by
  have mod : ((n : Int) % 2 ^ 64).toNat = n % 2 ^ 64 := by omega
  rw [UInt64.ofInt, mod]
  exact UInt64.ofNat_mod_size

/-- Of the nodes on the list that a collection leaves, those that were not free before make up the
difference of the two lists' lengths. -/
theorem WellFormed.length_freed {h' : Heap} {l : List Addr} (wf : h.WellFormed free)
    (valid : Valid h.words (roots ++ h.pinned)) (c : Collected h roots l h') :
    l.length = free.length + (l.filter fun a => tagAt h.words a ≠ .free).length := by
  have mem : ∀ a, a ∈ free ↔ a ∈ l.filter fun a => tagAt h.words a = .free := by
    intro a
    rw [List.mem_filter, decide_eq_true_iff]
    constructor
    · intro before
      obtain ⟨ha, le⟩ := wf.free_in a before
      have tag := wf.list.tagAt before
      refine ⟨(c.mem_iff a).2 ⟨ha, le, fun reach => ?_⟩, tag⟩
      obtain ⟨-, low | used⟩ := (valid a reach.closure).resolve_left
        fun none => not_nodeIn_noAddr wf.sized.small (none ▸ ha)
      · exact UInt32.not_lt.2 le low
      · exact used tag
    · rintro ⟨after, tag⟩
      obtain ⟨ha, le, -⟩ := (c.mem_iff a).1 after
      exact (wf.nodes a ha le).resolve_right fun layout => layout.tagAt_ne tag
  have perm := (List.perm_ext_iff_of_nodup wf.nodup ((nodup_of_descending c.descending).filter _)).2 mem
  rw [perm.length_eq, List.length_eq_countP_add_countP fun a => tagAt h.words a = .free,
    List.countP_eq_length_filter, List.countP_eq_length_filter]
  simp

/-- A collection is exact, whatever the graph. It ends; the nodes that the roots and the pins reach and
the reserved nodes stay as they are in all their words; every other node ends free and stands once on
the free list, highest first; no mark is left; the count returned is the length of that list and the
counter of freed nodes grows by those that were not free before. A second collection changes nothing
but the number of collections. -/
theorem collect_exact (wf : h.WellFormed free) (valid : Valid h.words (roots ++ h.pinned)) :
    ∃ l h', collect roots h = .ok l.length h' ∧
      h'.words.size = h.words.size ∧ h'.pinned = h.pinned ∧
      (∀ a, NodeIn h.words a → a < bottom ∨ Closure h.words (roots ++ h.pinned) a →
        SameNode h.words h'.words a) ∧
      (∀ a, a ∈ l ↔ NodeIn h.words a ∧ bottom ≤ a ∧ ¬ Closure h.words (roots ++ h.pinned) a) ∧
      (∀ a ∈ l, tagAt h'.words a = .free) ∧
      FreeList h'.words h'.freeHead l ∧ l.Pairwise (· > ·) ∧
      Unmarked h'.words ∧
      h'.stats.freeNodes = l.length ∧ h'.stats.collections = h.stats.collections + 1 ∧
      h'.stats.nodes = h.stats.nodes ∧ h'.stats.allocations = h.stats.allocations ∧
      (h.stats.freeNodes = free.length → h'.stats.freed = h.stats.freed +
        (l.filter fun a => tagAt h.words a ≠ .free).length.toUInt64) ∧
      collect roots h' = .ok l.length
        { h' with stats := { h'.stats with collections := h'.stats.collections + 1 } } := by
  have traceable := wf.traceable valid
  obtain ⟨l, h', run, c⟩ := collect_collected wf.sized wf.unmarked traceable
  refine ⟨l, h', run, c.size, c.pinned, ?_, ?_, fun a mem => c.list.tagAt mem, c.list,
    c.descending, c.unmarked, by rw [c.stats], by rw [c.stats], by rw [c.stats], by rw [c.stats],
    ?_, c.again wf.sized traceable⟩
  · rintro a ha (low | closure)
    · exact c.reserved a ha low
    · by_cases le : bottom ≤ a
      · exact c.live a ha ((wf.closure_iff valid ha le).1 closure)
      · exact c.reserved a ha (UInt32.not_le.1 le)
  · intro a
    rw [c.mem_iff]
    constructor
    · rintro ⟨ha, le, dead⟩
      exact ⟨ha, le, mt (wf.closure_iff valid ha le).1 dead⟩
    · rintro ⟨ha, le, dead⟩
      exact ⟨ha, le, mt (wf.closure_iff valid ha le).2 dead⟩
  · intro counted
    have length := wf.length_freed valid c
    rw [c.stats, counted, length, Int.natCast_add, Int.add_comm, Int.add_sub_cancel, ofInt_natCast]

end

section Small

variable {h : Heap} {free : List Addr}

theorem nodeIn_small {words : Array Word} {a : Addr} (size : words.size = 288) (node : NodeIn words a) :
    ∃ k < 18, a = (16 * k : Nat).toUInt32 := by
  obtain ⟨aligned, inside⟩ := node
  rw [size] at inside
  unfold nodeSize at *
  refine ⟨a.toNat / 16, by omega, ?_⟩
  rw [show 16 * (a.toNat / 16) = a.toNat by omega]
  exact UInt32.toNat_inj.1 (UInt32.toNat_ofNat_of_lt a.toNat_lt).symm

theorem high_small {words : Array Word} {a : Addr} (size : words.size = 288) (node : NodeIn words a) (high : bottom ≤ a) :
    a = 256 ∨ a = 272 := by
  obtain ⟨k, lt, rfl⟩ := nodeIn_small size node
  have two : ∀ k < 18, bottom ≤ (16 * k : Nat).toUInt32 → k = 16 ∨ k = 17 := by decide +kernel
  rcases two k lt high with rfl | rfl
  · exact .inl rfl
  · exact .inr rfl

/-- What to check of a heap with two collectable nodes. -/
theorem wellFormed_small (size : h.words.size = 288)
    (clear : ∀ k < 18, ¬ (cell h.words (16 * k : Nat).toUInt32 0).isMarked = Bool.true)
    (reserved : ∀ k < 18, (16 * k : Nat).toUInt32 < bottom →
      ((references h.words (16 * k : Nat).toUInt32).toOption.getD []).all (· < bottom))
    (list : FreeList h.words h.freeHead free) (nodup : free.Nodup) (free_in : ∀ a ∈ free, NodeIn h.words a ∧ bottom ≤ a)
    (lower : 256 ∈ free ∨ ∃ n, Shows h.words 256 n) (upper : 272 ∈ free ∨ ∃ n, Shows h.words 272 n) :
    h.WellFormed free := by
  refine ⟨by constructor <;> rw [size] <;> decide, ?_, ?_, list, nodup, free_in, ?_⟩
  · intro a node
    obtain ⟨k, lt, rfl⟩ := nodeIn_small size node
    exact clear k lt
  · rintro a b node low ⟨as, refers, mem⟩
    obtain ⟨k, lt, rfl⟩ := nodeIn_small size node
    have all := reserved k lt low
    rw [refers] at all
    exact .inr (of_decide_eq_true (List.all_eq_true.1 all b mem))
  · intro a node high
    rcases high_small size node high with rfl | rfl
    · exact lower.imp_right fun ⟨_, shows⟩ => shows.layout
    · exact upper.imp_right fun ⟨_, shows⟩ => shows.layout

end Small

/-- A heap with two collectable nodes, a frame that holds itself and a free node. -/
def ouroboros : Heap where
  words := List.toArray <| (List.range 288).map fun i =>
    if i = 256 then freshHeader .frame 2 else if i = 257 then 256 else initialWord 288 i
  freeHead := some 272
  pinned := []
  stats := { nodes := 18, freeNodes := 1, allocations := 17, collections := 0, freed := 0 }

theorem size_ouroboros : ouroboros.words.size = 288 := by
  simp only [ouroboros, List.size_toArray, List.length_map, List.length_range]

theorem refers_ouroboros {b : Addr} (refers : Refers ouroboros.words 256 b) : b = 256 := by
  obtain ⟨as, eq, mem⟩ := refers
  have known : (references ouroboros.words 256).toOption = some [256] := by decide +kernel
  rw [eq] at known
  obtain rfl := Option.some.inj known
  exact List.mem_singleton.1 mem

theorem wellFormed_ouroboros : ouroboros.WellFormed [272] := by
  have frame : Shows ouroboros.words 256 (.frame [256]) := by decide +kernel
  have free_in : NodeIn ouroboros.words 272 ∧ bottom ≤ 272 := ⟨by rw [NodeIn, size_ouroboros]; decide, by decide⟩
  exact wellFormed_small size_ouroboros (by decide +kernel) (by decide +kernel) (.cons (by decide +kernel) .nil)
    (by decide) (List.forall_mem_singleton.2 free_in) (.inr ⟨_, frame⟩) (.inl List.mem_cons_self)

theorem collect_exact_ouroboros : ∃ (l : List Addr) (h' : Heap), collect [256] ouroboros = .ok l.length h' ∧
    SameNode ouroboros.words h'.words 256 ∧ 272 ∈ l ∧ (256 : Addr) ∉ l := by
  have closure : ∀ a, Closure ouroboros.words [256] a → a = 256 := by
    intro a reach
    induction reach with
    | root mem => exact List.mem_singleton.1 mem
    | step _ refers ih => exact refers_ouroboros (ih ▸ refers)
  have node : ∀ a : Addr, a.toNat % 16 = 0 → a.toNat + 16 ≤ 288 → NodeIn ouroboros.words a := by
    intro a aligned inside
    exact ⟨aligned, by rw [size_ouroboros]; exact inside⟩
  have valid : Valid ouroboros.words ([256] ++ ouroboros.pinned) := by
    intro a reach
    obtain rfl := closure a reach
    exact .inr ⟨node 256 (by decide) (by decide), .inr (by decide +kernel)⟩
  obtain ⟨l, h', run, -, -, same, mem, -⟩ := collect_exact wellFormed_ouroboros valid
  refine ⟨l, h', run, same 256 (node 256 (by decide) (by decide)) (.inr (.root ?_)), ?_, ?_⟩
  · exact List.mem_singleton_self _
  · refine (mem 272).2 ⟨node 272 (by decide) (by decide), by decide, fun reach => ?_⟩
    exact absurd (closure 272 reach) (by decide)
  · intro listed
    exact ((mem 256).1 listed).2.2 (.root (List.mem_singleton_self _))

end Heap

end FiberVm
