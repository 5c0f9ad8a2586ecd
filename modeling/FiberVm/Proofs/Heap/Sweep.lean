import FiberVm.Proofs.Heap.Mark

/-!
# Sweeping rebuilds the free list

A sweep passes over the collectable nodes in ascending order. A marked one loses its mark, every other
one goes in front of the list built so far, so that the list ends up holding exactly the unmarked
collectable nodes, highest first.
-/

set_option autoImplicit false

namespace FiberVm

namespace Heap

/-- Following the links from a head gives the list, which ends where a link says that it does. -/
inductive FreeList (words : Array Word) : Option Addr → List Addr → Prop
  | nil : FreeList words none []
  | cons {a : Addr} {next : Option Addr} {l : List Addr} :
      cell words a 0 = freeWord next → FreeList words next l → FreeList words (some a) (a :: l)

theorem FreeList.congr {words words' : Array Word} {head : Option Addr} {l : List Addr}
    (list : FreeList words head l) (same : ∀ a ∈ l, cell words' a 0 = cell words a 0) :
    FreeList words' head l := by
  induction list with
  | nil => exact .nil
  | @cons a next l link _ ih =>
    refine .cons ?_ (ih fun b hb => same b (List.mem_cons_of_mem a hb))
    rw [same a List.mem_cons_self, link]

theorem cell_zero (words : Array Word) (a : Addr) : cell words a 0 = words.getD a.toNat 0 := rfl

/-- The unmarked among the addresses `xs`. -/
def dead (words : Array Word) (xs : List Nat) : List Nat :=
  xs.filter fun x => !(words.getD x 0).isMarked

theorem getD_setIfInBounds_of_ne {words : Array Word} {i j : Nat} {w : Word} (ne : i ≠ j) :
    (words.setIfInBounds i w).getD j 0 = words.getD j 0 := by
  simp [Array.getD_eq_getD_getElem?, ne]

theorem getD_setIfInBounds_self {words : Array Word} {i : Nat} {w : Word} (lt : i < words.size) :
    (words.setIfInBounds i w).getD i 0 = w := by
  simp [Array.getD_eq_getD_getElem?, lt]

namespace Sweep

variable {s : Sweep} {x : Nat}

theorem visit_of_marked (marked : (s.words.getD x 0).isMarked = Bool.true) :
    s.visit x = { s with words := s.words.setIfInBounds x (s.words.getD x 0).unmark } := by
  simp only [visit, marked, if_true]

theorem visit_of_unmarked (low : ¬ (s.words.getD x 0).isMarked = Bool.true) :
    s.visit x = ⟨s.words.setIfInBounds x (freeWord s.free), some x.toUInt32, s.count + 1⟩ := by
  simp only [visit, low, Bool.false_eq_true, if_false]

theorem visit_words_of_ne {y : Nat} (ne : x ≠ y) :
    (s.visit x).words.getD y 0 = s.words.getD y 0 := by
  unfold visit
  dsimp only
  split <;> exact getD_setIfInBounds_of_ne ne

theorem visit_size : (s.visit x).words.size = s.words.size := by
  unfold visit
  dsimp only
  split <;> simp

/-- One visit puts an unmarked node in front of the list and leaves the list alone otherwise. -/
theorem visit_list {l : List Addr} (list : FreeList s.words s.free l)
    (bound : x < s.words.size ∧ x < UInt32.size) (apart : ∀ a ∈ l, a.toNat ≠ x) :
    FreeList (s.visit x).words (s.visit x).free
        (((dead s.words [x]).map Nat.toUInt32).reverse ++ l) ∧
      (s.visit x).count = s.count + (dead s.words [x]).length := by
  have kept : FreeList (s.visit x).words s.free l :=
    list.congr fun a ha => visit_words_of_ne (Ne.symm (apart a ha))
  by_cases marked : (s.words.getD x 0).isMarked = Bool.true
  · have none : dead s.words [x] = [] := List.filter_cons_of_neg (by rw [marked]; decide)
    have free : (s.visit x).free = s.free := by rw [visit_of_marked marked]
    rw [none, free, visit_of_marked marked] at *
    exact ⟨kept, rfl⟩
  · have one : dead s.words [x] = [x] :=
      List.filter_cons_of_pos (by rw [Bool.eq_false_iff.2 marked]; decide)
    have free : (s.visit x).free = some x.toUInt32 := by rw [visit_of_unmarked marked]
    have count : (s.visit x).count = s.count + 1 := by rw [visit_of_unmarked marked]
    rw [one, free, count]
    refine ⟨.cons ?_ kept, rfl⟩
    rw [cell_zero, show x.toUInt32.toNat = x from UInt32.toNat_ofNat_of_lt bound.2,
      visit_of_unmarked marked, getD_setIfInBounds_self bound.1]

end Sweep

/-- What a sweep over the addresses `xs` has made of `s`. -/
structure Swept (xs : List Nat) (s t : Sweep) (l : List Addr) : Prop where
  size : t.words.size = s.words.size
  frame : ∀ i, i ∉ xs → t.words.getD i 0 = s.words.getD i 0
  live : ∀ x ∈ xs, (s.words.getD x 0).isMarked = Bool.true →
    t.words.getD x 0 = (s.words.getD x 0).unmark
  list : FreeList t.words t.free (((dead s.words xs).map Nat.toUInt32).reverse ++ l)
  count : t.count = s.count + (dead s.words xs).length

theorem swept_foldl (xs : List Nat) (s : Sweep) (l : List Addr) (nodup : xs.Nodup)
    (bound : ∀ x ∈ xs, x < s.words.size ∧ x < UInt32.size) (list : FreeList s.words s.free l)
    (apart : ∀ a ∈ l, a.toNat ∉ xs) : Swept xs s (xs.foldl Sweep.visit s) l := by
  induction xs generalizing s l with
  | nil => exact ⟨rfl, fun _ _ => rfl, by simp, by simpa [dead] using list, by simp [dead]⟩
  | cons x xs ih =>
    obtain ⟨fresh, nodup⟩ := List.nodup_cons.1 nodup
    have here := bound x List.mem_cons_self
    have other : ∀ y ∈ xs, x ≠ y := fun y hy e => fresh (e ▸ hy)
    have rest : dead (s.visit x).words xs = dead s.words xs := by
      apply List.filter_congr
      intro y hy
      rw [Sweep.visit_words_of_ne (other y hy)]
    have split : dead s.words (x :: xs) = dead s.words [x] ++ dead s.words xs := by
      rw [dead, dead, dead, ← List.filter_append]
      rfl
    obtain ⟨list', count'⟩ := Sweep.visit_list list here fun a ha e =>
      apart a ha (e ▸ List.mem_cons_self)
    have away : ∀ a ∈ ((dead s.words [x]).map Nat.toUInt32).reverse ++ l, a.toNat ∉ xs := by
      intro a ha
      rcases List.mem_append.1 ha with ha | ha
      · obtain ⟨y, hy, rfl⟩ := List.mem_map.1 (List.mem_reverse.1 ha)
        obtain rfl := List.mem_singleton.1 (List.mem_filter.1 hy).1
        rwa [show y.toUInt32.toNat = y from UInt32.toNat_ofNat_of_lt here.2]
      · exact fun mem => apart a ha (List.mem_cons_of_mem x mem)
    have swept := ih (s.visit x) _ nodup (fun y hy => by
      rw [Sweep.visit_size]
      exact bound y (List.mem_cons_of_mem x hy)) list' away
    rw [List.foldl_cons]
    refine ⟨swept.size.trans Sweep.visit_size, ?_, ?_, ?_, ?_⟩
    · intro i hi
      obtain ⟨ne, out⟩ := not_or.1 (mt List.mem_cons.2 hi)
      rw [swept.frame i out, Sweep.visit_words_of_ne (Ne.symm ne)]
    · intro y hy high
      rcases List.mem_cons.1 hy with rfl | hy
      · rw [swept.frame y fresh, Sweep.visit_of_marked high, getD_setIfInBounds_self here.1]
      · rw [swept.live y hy (by rwa [Sweep.visit_words_of_ne (other y hy)]),
          Sweep.visit_words_of_ne (other y hy)]
    · rw [split, List.map_append, List.reverse_append, List.append_assoc, ← rest]
      exact swept.list
    · rw [swept.count, rest, split, count', List.length_append]
      omega

structure Sized (words : Array Word) : Prop where
  aligned : words.size % nodeSize = 0
  room : bottom.toNat < words.size
  small : words.size ≤ maxWords

section Collectable

variable {words : Array Word} {a : Addr}

theorem bottom_toNat : bottom.toNat = 256 := by decide

theorem Sized.congr {words' : Array Word} (sized : Sized words) (size : words'.size = words.size) : Sized words' :=
  ⟨size ▸ sized.aligned, size ▸ sized.room, size ▸ sized.small⟩

theorem Sized.nodeIn_low (sized : Sized words) (aligned : a.toNat % nodeSize = 0) (low : a < bottom) :
    NodeIn words a := by
  have room := sized.room
  rw [bottom_toNat] at room
  rw [UInt32.lt_iff_toNat_lt, bottom_toNat] at low
  refine ⟨aligned, ?_⟩
  unfold nodeSize at *
  omega

theorem bottom_le_iff : bottom ≤ a ↔ 256 ≤ a.toNat := by
  rw [UInt32.le_iff_toNat_le, bottom_toNat]

/-- The addresses a sweep passes over are those of the collectable nodes. -/
theorem mem_collectable (sized : Sized words) :
    a.toNat ∈ collectable words.size ↔ NodeIn words a ∧ bottom ≤ a := by
  have aligned := sized.aligned
  simp only [collectable, List.mem_map, List.mem_range, NodeIn, bottom_le_iff, bottom_toNat,
    nodeSize, reservedNodes] at *
  constructor
  · rintro ⟨i, hi, eq⟩
    omega
  · rintro ⟨⟨mod, le⟩, low⟩
    exact ⟨(a.toNat - 256) / 16, by omega, by omega⟩

theorem collectable_lt (sized : Sized words) {x : Nat} (hx : x ∈ collectable words.size) :
    x < words.size ∧ x < UInt32.size := by
  have small := sized.small
  have room := sized.room
  simp only [collectable, List.mem_map, List.mem_range, bottom_toNat, nodeSize, reservedNodes,
    maxWords] at *
  obtain ⟨i, hi, rfl⟩ := hx
  have : UInt32.size = 4294967296 := rfl
  omega

theorem pairwise_collectable (size : Nat) : (collectable size).Pairwise (· < ·) := by
  rw [collectable, List.pairwise_map]
  apply List.pairwise_lt_range.imp
  intro i j lt
  simp only [nodeSize]
  omega

end Collectable

/-- The free list that a sweep leaves. -/
def deadNodes (words : Array Word) : List Addr :=
  ((dead words (collectable words.size)).map Nat.toUInt32).reverse

theorem mem_deadNodes {words : Array Word} (sized : Sized words) {a : Addr} :
    a ∈ deadNodes words ↔ NodeIn words a ∧ bottom ≤ a ∧ ¬ Marked words a := by
  simp only [deadNodes, List.mem_reverse, List.mem_map, dead, List.mem_filter]
  constructor
  · rintro ⟨x, ⟨mem, low⟩, rfl⟩
    have back : x.toUInt32.toNat = x := UInt32.toNat_ofNat_of_lt (collectable_lt sized mem).2
    obtain ⟨node, le⟩ := (mem_collectable sized).1 (back.symm ▸ mem)
    exact ⟨node, le, by simpa [Marked, cell_zero, back] using low⟩
  · rintro ⟨node, le, low⟩
    refine ⟨a.toNat, ⟨(mem_collectable sized).2 ⟨node, le⟩, ?_⟩, ?_⟩
    · simpa [Marked, cell_zero] using low
    · exact UInt32.toNat_inj.1 (UInt32.toNat_ofNat_of_lt a.toNat_lt)

theorem pairwise_deadNodes {words : Array Word} (sized : Sized words) :
    (deadNodes words).Pairwise (· > ·) := by
  rw [deadNodes, List.pairwise_reverse, List.pairwise_map]
  have sorted := (pairwise_collectable words.size).filter
    fun x => !(words.getD x 0).isMarked
  apply sorted.imp_of_mem
  intro x y hx hy lt
  have small := collectable_lt sized (List.mem_filter.1 hx).1
  have small' := collectable_lt sized (List.mem_filter.1 hy).1
  rw [gt_iff_lt, UInt32.lt_iff_toNat_lt,
    show x.toUInt32.toNat = x from UInt32.toNat_ofNat_of_lt small.2,
    show y.toUInt32.toNat = y from UInt32.toNat_ofNat_of_lt small'.2]
  exact lt

/-- The sweep of a whole heap. -/
theorem swept_sweep {words : Array Word} (sized : Sized words) :
    Swept (collectable words.size) ⟨words, none, 0⟩ (sweep words) [] :=
  swept_foldl _ ⟨words, none, 0⟩ [] ((pairwise_collectable words.size).imp Nat.ne_of_lt)
    (fun _ hx => collectable_lt sized hx) .nil (by simp)

theorem freeList_sweep {words : Array Word} (sized : Sized words) :
    FreeList (sweep words).words (sweep words).free (deadNodes words) ∧
      (sweep words).count = (deadNodes words).length := by
  have swept := swept_sweep sized
  constructor
  · simpa [deadNodes] using swept.list
  · simpa [deadNodes] using swept.count

/-- A sweep touches nothing but the headers of collectable nodes. -/
theorem cell_sweep_of_frame {words : Array Word} (sized : Sized words) {a : Addr} {i : Nat}
    (ha : NodeIn words a) (hi : i < nodeSize) (frame : i ≠ 0 ∨ a < bottom) :
    cell (sweep words).words a i = cell words a i := by
  apply (swept_sweep sized).frame
  intro mem
  have aligned := ha.1
  simp only [collectable, List.mem_map, List.mem_range, bottom_toNat] at mem
  obtain ⟨k, -, eq⟩ := mem
  rw [UInt32.lt_iff_toNat_lt, bottom_toNat] at frame
  unfold nodeSize at *
  omega

theorem cell_sweep_of_marked {words : Array Word} (sized : Sized words) {a : Addr}
    (ha : NodeIn words a) (le : bottom ≤ a) (marked : Marked words a) :
    cell (sweep words).words a 0 = (cell words a 0).unmark :=
  (swept_sweep sized).live a.toNat ((mem_collectable sized).2 ⟨ha, le⟩) marked

end Heap

end FiberVm
