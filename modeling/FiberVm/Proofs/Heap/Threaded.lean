import FiberVm.Proofs.Heap.FreeStack
import FiberVm.Proofs.Heap.Building

/-!
# Free lists that run through nodes

A free list whose links lead from node to node is all that an allocation needs to hand out a node: nothing is assumed of
what the nodes in use hold, nor of the roots and pins that a collection starts from. The node handed out is blank, and
the list that is left runs through nodes again. So a new wait queue is empty, a new channel is open and empty, and both
can be followed by further allocations.
-/

set_option autoImplicit false

namespace FiberVm

namespace Heap

/-- The free list visits nodes, each once. -/
structure Threaded (h : Heap) : Prop where
  sized : Sized h.words
  list : ∃ l, FreeList h.words h.freeHead l ∧ l.Nodup ∧ ∀ a ∈ l, NodeIn h.words a

section Order

variable {h : Heap}

theorem Threaded.pin (t : Threaded h) (as : List Addr) : Threaded { h with pinned := as } := ⟨t.sized, t.list⟩

theorem Sound.threaded (sound : Sound h) : Threaded h := by
  obtain ⟨l, list, nodup, inside⟩ := sound.list
  exact ⟨sound.sized, l, list, nodup, fun a mem => (inside a mem).1⟩

theorem History.threaded {size : Int} {frees : Nat} (history : History size frees h) : Threaded h := by
  obtain ⟨l, m, -⟩ := history.managed
  exact Sound.threaded ⟨m.sized, m.unmarked, l, m.links, m.nodup, m.free⟩

/-- The links do not lead through a node in use, whatever is done to it. -/
theorem Only.threaded {h' : Heap} {a : Addr} (only : Only h h' a) (t : Threaded h) (used : tagAt h.words a ≠ .free) :
    Threaded h' := by
  obtain ⟨l, list, nodup, inside⟩ := t.list
  have ne : ∀ b ∈ l, b ≠ a := by
    rintro b mem rfl
    exact used (list.tagAt mem)
  refine ⟨t.sized.congr only.size, l, ?_, nodup,
    fun b mem => only.nodeIn.2 (inside b mem)⟩
  rw [only.freeHead]
  exact list.congr fun b mem => only.others b (inside b mem) (ne b mem) 0 (by decide)

end Order

theorem size_mark {words words' : Array Word} {stack : List Addr} (run : mark words stack = .ok () words') :
    words'.size = words.size := by
  fun_induction mark words stack with
  | case1 =>
    cases run
    rfl
  | case2 _ _ _ _ ih => exact ih run
  | case3 _ _ _ _ _ _ ih => exact ih run
  | case4 words a rest _ _ _ as _ ih => exact (ih run).trans (Array.size_set _)
  | case5 => cases run
  | case6 => cases run

section Allocating

variable {h h' : Heap} {roots : Roots} {tag : Tag} {a : Addr}

/-- A collection rebuilds the list, whatever it has marked. -/
theorem Threaded.collect (t : Threaded h) {visited : List Addr} {n : Nat} (run : Heap.collect visited h = .ok n h') :
    Threaded h' := by
  unfold Heap.collect at run
  split at run
  · cases run
  · next words marked =>
    cases run
    have size := size_mark marked
    have sized : Sized words := t.sized.congr size
    have swept := (swept_sweep sized).size
    refine ⟨sized.congr swept, deadNodes words,
      (freeList_sweep sized).1, nodup_of_descending (pairwise_deadNodes sized), fun a mem => ?_⟩
    have node := ((mem_deadNodes sized).1 mem).1
    exact ⟨node.1, swept ▸ node.2⟩

theorem Threaded.take (t : Threaded h) (head : h.freeHead = some a) (tag : Tag) (size : Nat) :
    ∃ h', Heap.take tag size a h = .ok a h' ∧ Threaded h' ∧ Edited h' h' a (blank tag size) := by
  obtain ⟨l, list, nodup, inside⟩ := t.list
  rw [head] at list
  obtain ⟨rest, rfl⟩ : ∃ rest, l = a :: rest := by
    cases list with
    | cons link tail => exact ⟨_, rfl⟩
  have ha := inside a List.mem_cons_self
  obtain ⟨h', run, size', head', -, others, cells⟩ := take_ok ha tag size
  have nodeIn : ∀ b, NodeIn h'.words b ↔ NodeIn h.words b := fun _ => nodeIn_congr size'
  refine ⟨h', run, ⟨t.sized.congr size', rest, ?_,
    (List.nodup_cons.1 nodup).2, fun b mem => (nodeIn b).2 (inside b (List.mem_cons_of_mem a mem))⟩,
    .refl h' a, (nodeIn a).2 ha, cells⟩
  exact list.pop nodup inside t.sized.small head' others

/-- Where memory is short or the call has no meaning, nothing is said of the heap that is left. -/
abbrev Secures (Q : Addr → Heap → Prop) : EStateM.Result Failure Heap Addr → Prop := Yields Q fun _ => True

theorem Threaded.allocate (t : Threaded h) (roots : Roots) (tag : Tag) (size : Int) :
    Secures (fun a h' => Threaded h' ∧ 1 ≤ size ∧ size ≤ nodeSize ∧ Edited h' h' a (blank tag size.toNat))
      (Heap.allocate roots tag size h) := by
  have goes := allocate_goes roots tag size h
  generalize Heap.allocate roots tag size h = r at goes ⊢
  cases goes with
  | refused => trivial
  | @crashed e => cases e <;> trivial
  | exhausted => trivial
  | @taken a h₁ fits source head =>
    have t₁ : Threaded h₁ := by
      obtain rfl | ⟨-, _, collected⟩ := source
      · exact t
      · exact t.collect collected
    obtain ⟨h₂, run, t₂, cells⟩ := t₁.take head tag size.toNat
    rw [run]
    exact ⟨t₂, fits.1, fits.2, cells⟩

theorem Threaded.newWaitQueue (t : Threaded h) (roots : Roots) :
    Secures (fun q h' => Threaded h' ∧ Shows h'.words q (.queue [])) (Heap.newWaitQueue roots h) :=
  (t.allocate roots .waitQueue nodeSize).imp (fun _ _ _ ⟨t', _, _, cells⟩ => ⟨t', shows_queue cells⟩) fun _ => id

/-- The queues of a new channel are pinned while it is made. -/
theorem Threaded.newChannel (t : Threaded h) (roots : Roots) (capacity : Int) :
    Secures (fun ch h' => Threaded h' ∧ ∃ senders receivers,
      Shows h'.words ch (.channel capacity.toNat Bool.false senders receivers []))
      (Heap.newChannel roots capacity h) := by
  unfold Heap.newChannel
  split
  · trivial
  next within =>
  have fits : 0 ≤ capacity ∧ capacity ≤ 13 := by unfold maxChannelCapacity at within; omega
  have size : (3 + capacity).toNat = 3 + capacity.toNat := by omega
  refine Yields.bind (t.newWaitQueue roots) (fun s h₁ _ ⟨t₁, _⟩ => Yields.withPins ?_) fun _ => id
  refine Yields.bind ((t₁.pin _).newWaitQueue roots) (fun r h₂ _ ⟨t₂, _⟩ => Yields.withPins ?_) fun _ => id
  refine Yields.bind ((t₂.pin _).allocate roots .intChannel _) (fun ch h₃ _ ⟨t₃, _, _, cells⟩ => ?_) fun _ => id
  obtain ⟨h₄, run, u⟩ := fill_channel fits (size ▸ cells) s r
  have used : tagAt h₃.words ch ≠ .free := by
    rw [tagAt, cells.cells 0 (by decide), blank, if_pos rfl, byte_freshHeader _ (by omega) (by decide), if_pos rfl]
    decide
  rw [run]
  exact ⟨((u.threaded t₃ used).pin _).pin _, s, r, u.shows⟩

end Allocating

end Heap

end FiberVm
