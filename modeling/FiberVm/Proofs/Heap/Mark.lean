import FiberVm.Proofs.Heap.Reach

/-!
# Marking is reachability

The walk over the explicit stack ends, and when it does the marked nodes are exactly the collectable
nodes that the roots reach. The invariant is the usual one: what is marked is reachable, and what a
marked node refers to is marked or still on the stack.

Addresses below `bottom` and the address that stands for none are passed over.
-/

set_option autoImplicit false

namespace FiberVm

namespace Heap

/-- The mark byte of the node at `a` is set. -/
def Marked (words : Array Word) (a : Addr) : Prop := (cell words a 0).isMarked = Bool.true

/-- The walk has nothing left to do at `a`. -/
def Settled (words : Array Word) (a : Addr) : Prop := Skipped a ∨ Marked words a

/-- The array differs from `base` by marks on collectable nodes only. -/
structure MarkedFrom (base words : Array Word) : Prop where
  size : words.size = base.size
  cells : ∀ a, NodeIn base a → ∀ i < nodeSize,
    cell words a i = cell base a i ∨
      i = 0 ∧ bottom ≤ a ∧ cell words a i = (cell base a i).mark

/-- No mark byte is set. -/
def Unmarked (words : Array Word) : Prop := ∀ a, NodeIn words a → ¬ Marked words a

section

variable {base words : Array Word} {a b : Addr} {roots : List Addr}

theorem MarkedFrom.nodeIn (from' : MarkedFrom base words) : NodeIn words a ↔ NodeIn base a :=
  nodeIn_congr from'.size

theorem MarkedFrom.refl (base : Array Word) : MarkedFrom base base :=
  ⟨rfl, fun _ _ _ _ => .inl rfl⟩

theorem MarkedFrom.sameBody (from' : MarkedFrom base words) (ha : NodeIn base a) :
    SameBody base words a := by
  constructor
  · intro k hk ne
    rcases from'.cells a ha 0 (by decide) with same | ⟨-, -, marked⟩
    · rw [same]
    · rw [marked, Word.byte_mark_of_ne _ hk ne]
  · intro i hi ne
    rcases from'.cells a ha i hi with same | ⟨zero, -, -⟩
    · exact same
    · exact absurd zero ne

theorem MarkedFrom.header_eq (from' : MarkedFrom base words) (ha : NodeIn base a)
    (low : ¬ Marked words a) : cell words a 0 = cell base a 0 := by
  rcases from'.cells a ha 0 (by decide) with same | ⟨-, -, marked⟩
  · exact same
  · exact absurd (by rw [Marked, marked, Word.isMarked_mark]) low

theorem MarkedFrom.header_eq_mark (from' : MarkedFrom base words) (clear : Unmarked base)
    (ha : NodeIn base a) (high : Marked words a) :
    bottom ≤ a ∧ cell words a 0 = (cell base a 0).mark := by
  rcases from'.cells a ha 0 (by decide) with same | ⟨-, le, marked⟩
  · exact absurd (by rwa [Marked, same] at high) (clear a ha)
  · exact ⟨le, marked⟩

theorem set_eq_setIfInBounds {i : Nat} (h : i < words.size) (w : Word) :
    words.set i w h = words.setIfInBounds i w := by
  simp [Array.setIfInBounds, h]

theorem getElem_eq_cell (h : a.toNat < words.size) : words[a.toNat] = cell words a 0 := by
  simp [cell, Array.getD_eq_getD_getElem?, Array.getElem?_eq_getElem h]

theorem MarkedFrom.mark (from' : MarkedFrom base words) (ha : NodeIn base a) (le : bottom ≤ a)
    (low : ¬ Marked words a) :
    MarkedFrom base (words.setIfInBounds a.toNat (cell words a 0).mark) := by
  have clear := from'.header_eq ha low
  refine ⟨by simp [from'.size], fun b hb i hi => ?_⟩
  have set := cell_setIfInBounds (i := 0) (w := (cell words a 0).mark) (from'.nodeIn.2 ha) hb.1
    (by decide) hi
  rw [Nat.add_zero] at set
  rw [set]
  split
  · next same =>
    obtain ⟨rfl, rfl⟩ := same
    exact .inr ⟨rfl, le, by rw [clear]⟩
  · exact from'.cells b hb i hi

theorem marked_setIfInBounds_mark (ha : a.toNat < words.size) :
    Marked (words.setIfInBounds a.toNat (cell words a 0).mark) b ↔ b = a ∨ Marked words b := by
  simp only [Marked, cell, Nat.add_zero, Array.getD_eq_getD_getElem?,
    Array.getElem?_setIfInBounds, UInt32.toNat_inj]
  by_cases same : a = b
  · simp [same ▸ ha, same]
  · simp [same, Ne.symm same]

end

/-- What the walk keeps true of the marks and the stack. -/
structure Walk (base : Array Word) (roots : List Addr) (words : Array Word) (stack : List Addr) :
    Prop where
  marks : MarkedFrom base words
  sound : ∀ a, NodeIn base a → Marked words a → Reaches base roots a
  pending : ∀ a ∈ stack, Reaches base roots a
  started : ∀ a ∈ roots, Settled words a ∨ a ∈ stack
  closed : ∀ a, NodeIn base a → Marked words a → ∀ b ∈ refs base a, Settled words b ∨ b ∈ stack

theorem Walk.drop {base words : Array Word} {roots rest : List Addr} {a : Addr}
    (walk : Walk base roots words (a :: rest)) (settled : Settled words a) :
    Walk base roots words rest := by
  refine ⟨walk.marks, walk.sound, fun x hx => walk.pending x (List.mem_cons_of_mem a hx), ?_, ?_⟩
  · intro x hx
    rcases walk.started x hx with done | mem
    · exact .inl done
    · rcases List.mem_cons.1 mem with rfl | mem
      · exact .inl settled
      · exact .inr mem
  · intro x nodeIn marked y hy
    rcases walk.closed x nodeIn marked y hy with done | mem
    · exact .inl done
    · rcases List.mem_cons.1 mem with rfl | mem
      · exact .inl settled
      · exact .inr mem

theorem Walk.enter {base words : Array Word} {roots rest : List Addr} {a : Addr}
    (walk : Walk base roots words (a :: rest)) (ha : NodeIn base a) (regular : Regular base a)
    (le : bottom ≤ a) (low : ¬ Marked words a) :
    Walk base roots (words.setIfInBounds a.toNat (cell words a 0).mark)
      ((refs base a).reverse ++ rest) := by
  have lt : a.toNat < words.size := by
    rw [walk.marks.size]
    exact Nat.lt_of_lt_of_le (Nat.lt_add_of_pos_right (by decide)) ha.2
  have reach : Reaches base roots a := walk.pending a List.mem_cons_self
  have settled : ∀ b, Settled words b ∨ b ∈ a :: rest →
      Settled (words.setIfInBounds a.toNat (cell words a 0).mark) b ∨
        b ∈ (refs base a).reverse ++ rest := by
    rintro b ((skipped | marked) | mem)
    · exact .inl (.inl skipped)
    · exact .inl (.inr ((marked_setIfInBounds_mark lt).2 (.inr marked)))
    · rcases List.mem_cons.1 mem with rfl | mem
      · exact .inl (.inr ((marked_setIfInBounds_mark lt).2 (.inl rfl)))
      · exact .inr (List.mem_append_right _ mem)
  refine ⟨walk.marks.mark ha le low, ?_, ?_, fun b hb => settled b (walk.started b hb), ?_⟩
  · intro b hb marked
    rcases (marked_setIfInBounds_mark lt).1 marked with rfl | marked
    · exact reach
    · exact walk.sound b hb marked
  · intro b hb
    rcases List.mem_append.1 hb with mem | mem
    · exact reach.step le ((refers_iff_of_regular ha regular).2 (List.mem_reverse.1 mem))
    · exact walk.pending b (List.mem_cons_of_mem a mem)
  · intro b hb marked c hc
    rcases (marked_setIfInBounds_mark lt).1 marked with rfl | marked
    · exact .inr (List.mem_append_left _ (List.mem_reverse.2 hc))
    · exact settled c (walk.closed b hb marked c hc)

/-- The walk ends without a crash and leaves nothing on the stack. -/
theorem Walk.run {base : Array Word} {roots : List Addr} (traced : Traced base roots)
    (words : Array Word) (stack : List Addr) (walk : Walk base roots words stack) :
    ∃ words', mark words stack = .ok () words' ∧ Walk base roots words' [] := by
  fun_induction mark words stack with
  | case1 words => exact ⟨words, rfl, walk⟩
  | case2 words a rest skipped ih => exact ih (walk.drop (.inl skipped))
  | case3 words a rest kept lt marked ih =>
    refine ih (walk.drop (.inr ?_))
    rwa [Marked, ← getElem_eq_cell lt]
  | case4 words a rest kept lt low as refers ih =>
    have le : bottom ≤ a := UInt32.not_lt.1 (not_or.1 kept).2
    obtain ⟨ha, regular⟩ := (traced a (walk.pending a List.mem_cons_self)).resolve_left kept
    have low' : ¬ Marked words a := by rwa [Marked, ← getElem_eq_cell lt]
    have entered := walk.enter ha regular le low'
    simp only [set_eq_setIfInBounds, getElem_eq_cell lt] at refers ih ⊢
    have body := entered.marks.sameBody ha
    rw [references_of_regular (entered.marks.nodeIn.2 ha) (body.regular regular), body.refs regular]
      at refers
    obtain rfl := Except.ok.inj refers
    exact ih entered
  | case5 words a rest kept lt low c refers =>
    have le : bottom ≤ a := UInt32.not_lt.1 (not_or.1 kept).2
    obtain ⟨ha, regular⟩ := (traced a (walk.pending a List.mem_cons_self)).resolve_left kept
    have low' : ¬ Marked words a := by rwa [Marked, ← getElem_eq_cell lt]
    have entered := walk.enter ha regular le low'
    simp only [set_eq_setIfInBounds, getElem_eq_cell lt] at refers
    have body := entered.marks.sameBody ha
    rw [references_of_regular (entered.marks.nodeIn.2 ha) (body.regular regular)] at refers
    cases refers
  | case6 words a rest kept out =>
    obtain ⟨ha, -⟩ := (traced a (walk.pending a List.mem_cons_self)).resolve_left kept
    have := ha.2
    have := walk.marks.size
    unfold nodeSize at *
    omega

/-- The address that stands for none is outside every heap, so nothing is read there. -/
theorem not_nodeIn_noAddr {words : Array Word} (small : words.size ≤ maxWords) :
    ¬ NodeIn words noAddr := by
  intro h
  have := h.2
  have : noAddr.toNat = 4294967295 := by decide
  unfold maxWords nodeSize at *
  omega

theorem not_refers_noAddr {words : Array Word} (small : words.size ≤ maxWords) {b : Addr} :
    ¬ Refers words noAddr b := by
  rintro ⟨as, refers, -⟩
  have none : words[noAddr.toNat + 0]? = none := by
    have : noAddr.toNat = 4294967295 := by decide
    apply Array.getElem?_eq_none
    unfold maxWords at small
    omega
  rw [references, nodeWord, none] at refers
  cases refers

/-- A collectable address with a reference is neither reserved nor the address that stands for none. -/
theorem not_skipped {words : Array Word} (small : words.size ≤ maxWords) {a b : Addr}
    (le : bottom ≤ a) (refers : Refers words a b) : ¬ Skipped a := by
  rintro (rfl | below)
  · exact not_refers_noAddr small refers
  · exact UInt32.not_lt.2 le below

/-- A finished walk has settled everything reachable. -/
theorem Walk.settled {base words : Array Word} {roots : List Addr} {a : Addr}
    (walk : Walk base roots words []) (small : base.size ≤ maxWords)
    (traced : Traced base roots) (reach : Reaches base roots a) : Settled words a := by
  induction reach with
  | root mem => exact (walk.started _ mem).resolve_right List.not_mem_nil
  | @step x y before le refers ih =>
    have entered := not_skipped small le refers
    obtain ⟨hx, regular⟩ := (traced x before).resolve_left entered
    have marked := ih.resolve_left entered
    exact (walk.closed x hx marked y ((refers_iff_of_regular hx regular).1 refers)).resolve_right
      List.not_mem_nil

/-- Marking from the roots: it succeeds, changes nothing but marks, and marks exactly the collectable
nodes that the roots reach. -/
theorem mark_eq_reaches {base : Array Word} {roots : List Addr} (small : base.size ≤ maxWords)
    (clear : Unmarked base) (traced : Traced base roots) :
    ∃ words, mark base roots = .ok () words ∧ MarkedFrom base words ∧
      ∀ a, NodeIn base a → (Marked words a ↔ bottom ≤ a ∧ Reaches base roots a) := by
  have start : Walk base roots base roots :=
    ⟨.refl base, fun a ha marked => absurd marked (clear a ha), fun _ => .root,
      fun _ => .inr, fun a ha marked => absurd marked (clear a ha)⟩
  obtain ⟨words, ok, walk⟩ := start.run traced
  refine ⟨words, ok, walk.marks, fun a ha => ⟨fun marked => ?_, ?_⟩⟩
  · exact ⟨(walk.marks.header_eq_mark clear ha marked).1, walk.sound a ha marked⟩
  · rintro ⟨le, reach⟩
    rcases walk.settled small traced reach with (none | below) | marked
    · exact absurd ha (none ▸ not_nodeIn_noAddr small)
    · exact absurd below (UInt32.not_lt.2 le)
    · exact marked

end Heap

end FiberVm
