import FiberVm.Proofs.Heap.Collection

/-!
# Collections that come upon stale references

A stored reference may be stale: its target has been freed, and may have been taken into use again as
something else. Marking a free node crashes. So a walk that does not crash has entered nodes in use only,
whatever the references looked like before, and all that it has reached can be traced.
-/

set_option autoImplicit false

namespace FiberVm

namespace Heap

/-- The address names a node, or nothing at all. -/
def IsAddress (words : Array Word) (a : Addr) : Prop := a = noAddr ∨ NodeIn words a

/-- Every node that is not free can be traced, and what it refers to are addresses. -/
structure Tidy (words : Array Word) : Prop where
  sized : Sized words
  unmarked : Unmarked words
  used : ∀ a, NodeIn words a → tagAt words a ≠ .free →
    Regular words a ∧ ∀ c ∈ refs words a, IsAddress words c

theorem isAddress_congr {words words' : Array Word} {a : Addr} (size : words'.size = words.size) :
    IsAddress words' a ↔ IsAddress words a := by
  simp only [IsAddress, NodeIn, size]

theorem tagOf_noAddr {h : Heap} (sized : Sized h.words) : tagOf noAddr h = .error (.crash .outOfRange) h := by
  have outside : h.words[noAddr.toNat]? = none :=
    Array.getElem?_eq_none (Nat.le_trans sized.small (by decide))
  have read : header noAddr h = .error (.crash .outOfRange) h := by
    simp only [header, readWord, Int.toNat_natCast, outside]
    rfl
  exact bind_of_error read

theorem Regular.tagAt_ne {words : Array Word} {a : Addr} (regular : Regular words a) :
    tagAt words a ≠ .free := by
  intro free
  unfold Regular IsScalar IsPointers at regular
  rw [free] at regular
  revert regular
  simp [Tag.free, Tag.nil, Tag.unassigned, Tag.true, Tag.false, Tag.int, Tag.builtin, Tag.waitGroup,
    Tag.frame, Tag.environment, Tag.callframe, Tag.blockframe, Tag.closure, Tag.intChannel, Tag.waitQueue]

/-- A free node has no references; looking for them crashes. -/
theorem references_of_free {words : Array Word} {a : Addr} (ha : NodeIn words a)
    (free : tagAt words a = .free) : references words a = .error (.markFree a) := by
  have first := nodeWord_ok ha (i := 0) (by decide)
  unfold references
  simp only [first, bind, Except.bind]
  rw [show (⟨(cell words a 0).byte 0⟩ : Tag) = tagAt words a from rfl, free]
  rfl

/-- What is not freed is what it was. -/
theorem Collected.same {h h' : Heap} {roots l : List Addr} (c : Collected h roots l h') {a : Addr}
    (ha : NodeIn h.words a) (out : a ∉ l) : SameNode h.words h'.words a := by
  by_cases below : a < bottom
  · exact c.reserved a ha below
  · refine c.live a ha (Classical.byContradiction fun dead => out ?_)
    exact (c.mem_iff a).2 ⟨ha, UInt32.not_lt.1 below, dead⟩

namespace Tidy

variable {base words words' : Array Word} {K stack : List Addr} {a b : Addr}

theorem refers (tidy : Tidy base) (ha : NodeIn base a) (refers : Refers base a b) :
    tagAt base a ≠ .free ∧ b ∈ refs base a := by
  by_cases free : tagAt base a = .free
  · obtain ⟨as, run, -⟩ := refers
    rw [references_of_free ha free] at run
    cases run
  · exact ⟨free, (refers_iff_of_regular ha (tidy.used a ha free).1).1 refers⟩

/-- A walk that does not crash has entered nodes in use only. -/
theorem walk (tidy : Tidy base) (words : Array Word) (stack : List Addr) (walk : Walk base K words stack)
    (start : ∀ a ∈ stack, IsAddress base a) (used : ∀ a, NodeIn base a → Marked words a → tagAt base a ≠ .free)
    (ok : mark words stack = .ok () words') :
    Walk base K words' [] ∧ ∀ a, NodeIn base a → Marked words' a → tagAt base a ≠ .free := by
  fun_induction mark words stack with
  | case1 words =>
    cases ok
    exact ⟨walk, used⟩
  | case2 words a rest skipped ih =>
    exact ih (walk.drop (.inl skipped)) (fun b mem => start b (List.mem_cons_of_mem a mem)) used ok
  | case3 words a rest kept lt marked ih =>
    have marked' : Marked words a := by rwa [Marked, ← getElem_eq_cell lt]
    exact ih (walk.drop (.inr marked')) (fun b mem => start b (List.mem_cons_of_mem a mem)) used ok
  | case4 words a rest kept lt low as found ih =>
    have le : bottom ≤ a := UInt32.not_lt.1 (not_or.1 kept).2
    have ha : NodeIn base a := (start a List.mem_cons_self).resolve_left (not_or.1 kept).1
    have low' : ¬ Marked words a := by rwa [Marked, ← getElem_eq_cell lt]
    simp only [set_eq_setIfInBounds, getElem_eq_cell lt] at found ih ok
    have marks := walk.marks.mark ha le low'
    have ha' := marks.nodeIn.2 ha
    have body := marks.sameBody ha
    -- The node is in use, for a free one would have stopped the walk.
    have here : tagAt base a ≠ .free := by
      intro free
      rw [references_of_free ha' (body.tagAt.trans free)] at found
      cases found
    obtain ⟨regular, inside⟩ := tidy.used a ha here
    rw [references_of_regular ha' (body.regular regular), body.refs regular] at found
    obtain rfl := Except.ok.inj found
    refine ih (walk.enter ha regular le low') (fun b mem => ?_) (fun b hb marked => ?_) ok
    · rcases List.mem_append.1 mem with mem | mem
      · exact inside b (List.mem_reverse.1 mem)
      · exact start b (List.mem_cons_of_mem a mem)
    · have lt' : a.toNat < words.size := lt
      rcases (marked_setIfInBounds_mark lt').1 marked with rfl | marked
      · exact here
      · exact used b hb marked
  | case5 => cases ok
  | case6 => cases ok

/-- A collection that does not crash has come upon no free node. -/
theorem traced_of_mark (tidy : Tidy base) (start : ∀ r ∈ K, IsAddress base r)
    (ok : mark base K = .ok () words) : Traced base K := by
  have begin : Walk base K base K :=
    ⟨.refl _, fun a ha marked => absurd marked (tidy.unmarked a ha), fun _ => .root, fun _ => .inr,
      fun a ha marked => absurd marked (tidy.unmarked a ha)⟩
  obtain ⟨walk, used⟩ := tidy.walk base K begin start
    (fun a ha marked => absurd marked (tidy.unmarked a ha)) ok
  -- What is reached has been passed over or marked, and what is marked is in use.
  have settled : ∀ a, Reaches base K a → Skipped a ∨ NodeIn base a ∧ Marked words a := by
    intro a reach
    induction reach with
    | @root a mem =>
      rcases (walk.started a mem).resolve_right List.not_mem_nil with skipped | marked
      · exact .inl skipped
      · rcases start a mem with none | ha
        · exact .inl (.inl none)
        · exact .inr ⟨ha, marked⟩
    | @step x y _ le refers ih =>
      obtain ⟨hx, marked⟩ := ih.resolve_left (not_skipped tidy.sized.small le refers)
      obtain ⟨here, mem⟩ := tidy.refers hx refers
      rcases (walk.closed x hx marked y mem).resolve_right List.not_mem_nil with skipped | marked
      · exact .inl skipped
      · rcases (tidy.used x hx here).2 y mem with none | hy
        · exact .inl (.inl none)
        · exact .inr ⟨hy, marked⟩
  intro a reach
  rcases settled a reach with skipped | ⟨ha, marked⟩
  · exact .inl skipped
  · exact .inr ⟨ha, (tidy.used a ha (used a ha marked)).1⟩

variable {h h' : Heap} {roots roots' : List Addr} {k : Nat}

theorem traced_of_collect (tidy : Tidy h.words) (start : ∀ r ∈ roots ++ h.pinned, IsAddress h.words r)
    (run : collect roots h = .ok k h') : Traced h.words (roots ++ h.pinned) := by
  cases marking : mark h.words (roots ++ h.pinned) with
  | ok _ words => exact tidy.traced_of_mark start marking
  | error c words =>
    rw [collect, marking] at run
    cases run

/-- A collection that does not crash does the same whatever the order of the roots. -/
theorem collect_eq (tidy : Tidy h.words) (start : ∀ r ∈ roots ++ h.pinned, IsAddress h.words r)
    (same : ∀ a, a ∈ roots' ↔ a ∈ roots) (run : collect roots h = .ok k h') : collect roots' h = .ok k h' := by
  rw [← run]
  exact collect_eq_of_mem tidy.sized tidy.unmarked (tidy.traced_of_collect start run) same

end Tidy

end Heap

end FiberVm
