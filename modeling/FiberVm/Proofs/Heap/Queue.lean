import FiberVm.Proofs.Heap.Access

/-!
# Channels, wait queues and wait groups as lists

A channel is a list of items with a capacity, a wait queue a list of parked fibers, a wait group a
counter with a list of ids. Putting in goes to the end and taking out comes from the front.
-/

set_option autoImplicit false

namespace FiberVm

namespace Heap

section

variable {h : Heap} {a : Addr}

theorem toNat_toUInt8 {n : Nat} (lt : n < 256) : n.toUInt8.toNat = n :=
  UInt8.toNat_ofNat_of_lt lt

section Channel

variable {cap : Nat} {closed : Bool} {senders receivers : Addr} {items : List Addr}

theorem chanCap_shows (s : Shows h.words a (.channel cap closed senders receivers items)) :
    chanCap a h = .ok cap h := by
  rw [chanCap, bind_of_ok (field_ok s.node 7), s.body.2.1]
  rfl

theorem chanLen_shows (s : Shows h.words a (.channel cap closed senders receivers items)) :
    chanLen a h = .ok items.length h := by
  obtain ⟨-, -, -, -, -, ring⟩ := s.body
  rw [chanLen, bind_of_ok (field_ok s.node 6), ring.count]
  rfl

theorem chanClosed_shows (s : Shows h.words a (.channel cap closed senders receivers items)) :
    chanClosed a h = .ok closed h := by
  rw [chanClosed, bind_of_ok (field_ok s.node 5)]
  exact congrArg (fun b => EStateM.Result.ok b h) s.body.2.2.1

theorem sendQueue_shows (s : Shows h.words a (.channel cap closed senders receivers items)) :
    sendQueue a h = .ok senders h := by
  rw [sendQueue, child_ok s.node (k := 0) (i := 0) rfl (by decide), s.body.2.2.2.1]

theorem recvQueue_shows (s : Shows h.words a (.channel cap closed senders receivers items)) :
    recvQueue a h = .ok receivers h := by
  rw [recvQueue, child_ok s.node (k := 1) (i := 1) rfl (by decide), s.body.2.2.2.2.1]

theorem closeChan_shows (s : Shows h.words a (.channel cap closed senders receivers items)) :
    ∃ h', closeChan a h = .ok () h' ∧
      Updates h h' a (.channel cap Bool.true senders receivers items) := by
  obtain ⟨le, capacity, -, sendq, recvq, ring⟩ := s.body
  obtain ⟨h', run, e⟩ := (Edited.refl s.node).setField 5 1
  refine ⟨h', run, e.updates s (by rfl) (by rfl) ?_ s.size_le ?_⟩
  · exact fun k lt => Word.byte_setByte_of_ne _ _ (by decide) (by omega) (by omega)
  · simp only [Body, write_self, write_of_ne _ _ (show 1 ≠ 0 by decide),
      write_of_ne _ _ (show 2 ≠ 0 by decide), Word.byte_setByte, Nat.reduceLT, Nat.reduceEqDiff,
      if_true, if_false]
    exact ⟨le, capacity, by decide, sendq, recvq, ring.congr fun i _ => write_of_ne _ _ (by omega)⟩

theorem ringNext_ok {i : UInt8} {ring : Nat} (pos : ring ≠ 0) :
    ringNext i ring h = .ok ((i.toNat + 1) % ring).toUInt8 h := by
  rw [ringNext, if_neg pos]
  rfl

theorem chanPush_shows (s : Shows h.words a (.channel cap closed senders receivers items))
    (space : items.length < cap) (v : Addr) :
    ∃ h', chanPush a v h = .ok () h' ∧
      Updates h h' a (.channel cap closed senders receivers (items ++ [v])) := by
  obtain ⟨le, capacity, flag, sendq, recvq, ring⟩ := s.body
  have start := Edited.refl s.node
  revert capacity flag sendq recvq ring start
  generalize hN : cell h.words a = N
  intro capacity flag sendq recvq ring start
  have inside : ((N 0).byte 3).toNat < cap := by
    rw [ring.next_eq (by omega)]
    exact Nat.mod_lt _ (by omega)
  obtain ⟨h₁, r₁, e₁⟩ := start.setChild (i := 2 + ((N 0).byte 3).toNat)
    (k := 2 + ((N 0).byte 3).toNat) rfl (by unfold nodeSize; omega) v
  obtain ⟨h₂, r₂, e₂⟩ := e₁.setField 3 ((((N 0).byte 3).toNat + 1) % cap).toUInt8
  obtain ⟨h₃, r₃, e₃⟩ := e₂.setField 6 (items.length + 1).toUInt8
  have len : chanLen a h₂ = .ok items.length h₂ := by
    rw [chanLen, bind_of_ok (e₂.field 6), write_self, write_of_ne _ _ (by omega),
      Word.byte_setByte_of_ne _ _ (by decide) (by decide) (by decide), ring.count]
    rfl
  refine ⟨h₃, ?_, e₃.updates s (by rfl) (by rfl) ?_ s.size_le ?_⟩
  · rw [chanPush, bind_of_ok (chanCap_shows s), bind_of_ok (start.field 3), bind_of_ok r₁,
      bind_of_ok (ringNext_ok (by omega)), bind_of_ok r₂, bind_of_ok len, r₃]
  · rw [hN]
    exact fun k => byte_write (Nat.succ_ne_zero _) (by decide) (by decide)
  · have put : write N (2 + ((N 0).byte 3).toNat + 1) v.toUInt64 (3 + ((N 0).byte 3).toNat) =
        v.toUInt64 := by
      rw [show 3 + ((N 0).byte 3).toNat = 2 + ((N 0).byte 3).toNat + 1 by omega, write_self]
    have pushed := ring.push space put fun i _ ne => write_of_ne _ _ (by omega)
    have next : ((((N 0).byte 3).toNat + 1) % cap).toUInt8.toNat = (((N 0).byte 3).toNat + 1) % cap :=
      toNat_toUInt8 (Nat.lt_of_lt_of_le (Nat.mod_lt _ (by omega)) (by omega))
    have count : (items.length + 1).toUInt8.toNat = items.length + 1 := toNat_toUInt8 (by omega)
    simp only [Body, write_self, write_of_ne N _ (show 0 ≠ 2 + ((N 0).byte 3).toNat + 1 by omega),
      Word.byte_setByte, Nat.reduceLT, Nat.reduceEqDiff, if_true, if_false, next, count,
      write_of_ne _ _ (show 1 ≠ 0 by decide), write_of_ne _ _ (show 2 ≠ 0 by decide)]
    refine ⟨le, capacity, flag, ?_, ?_, ?_⟩
    · rw [write_of_ne _ _ (by omega), sendq]
    · rw [write_of_ne _ _ (by omega), recvq]
    · rw [Word.low_toUInt64, ring.count] at pushed
      exact pushed.congr fun i _ => by rw [write_of_ne _ _ (by omega), write_of_ne _ _ (by omega)]

theorem chanPop_shows {x : Addr}
    (s : Shows h.words a (.channel cap closed senders receivers (x :: items))) :
    ∃ h', chanPop a h = .ok x h' ∧
      Updates h h' a (.channel cap closed senders receivers items) := by
  obtain ⟨le, capacity, flag, sendq, recvq, ring⟩ := s.body
  have start := Edited.refl s.node
  revert capacity flag sendq recvq ring start
  generalize hN : cell h.words a = N
  intro capacity flag sendq recvq ring start
  have room : items.length + 1 ≤ cap := ring.room
  have inside : ((N 0).byte 4).toNat < cap := ring.first_lt (by omega)
  have slot : 2 + ((N 0).byte 4).toNat + 1 < nodeSize := by unfold nodeSize; omega
  have read := start.child (i := 2 + ((N 0).byte 4).toNat) (k := 2 + ((N 0).byte 4).toNat) rfl slot
  obtain ⟨h₁, r₁, e₁⟩ := start.setChild (i := 2 + ((N 0).byte 4).toNat)
    (k := 2 + ((N 0).byte 4).toNat) rfl slot noAddr
  obtain ⟨h₂, r₂, e₂⟩ := e₁.setField 4 ((((N 0).byte 4).toNat + 1) % cap).toUInt8
  obtain ⟨h₃, r₃, e₃⟩ := e₂.setField 6 ((N 0).byte 6 - 1)
  have len : field a 6 h₂ = .ok ((N 0).byte 6) h₂ := by
    rw [e₂.field 6, write_self, write_of_ne _ _ (by omega),
      Word.byte_setByte_of_ne _ _ (by decide) (by decide) (by decide)]
  obtain ⟨oldest, popped⟩ := ring.pop fun i _ ne => write_of_ne N noAddr.toUInt64
    (show 3 + i ≠ 2 + ((N 0).byte 4).toNat + 1 by omega)
  rw [show 3 + ((N 0).byte 4).toNat = 2 + ((N 0).byte 4).toNat + 1 by omega] at oldest
  refine ⟨h₃, ?_, e₃.updates s (by rfl) (by rfl) ?_ s.size_le ?_⟩
  · rw [chanPop, bind_of_ok (chanCap_shows s), bind_of_ok (start.field 4), bind_of_ok read,
      bind_of_ok r₁, bind_of_ok (ringNext_ok (by omega)), bind_of_ok r₂, bind_of_ok len,
      bind_of_ok r₃, oldest]
    rfl
  · rw [hN]
    exact fun k => byte_write (Nat.succ_ne_zero _) (by decide) (by decide)
  · have first : ((((N 0).byte 4).toNat + 1) % cap).toUInt8.toNat = (((N 0).byte 4).toNat + 1) % cap :=
      toNat_toUInt8 (Nat.lt_of_lt_of_le (Nat.mod_lt _ (by omega)) (by omega))
    have count : ((N 0).byte 6 - 1).toNat = ((N 0).byte 6).toNat - 1 := by
      have one : (1 : UInt8) ≤ (N 0).byte 6 := by
        rw [UInt8.le_iff_toNat_le, ring.count]
        exact Nat.le_add_left 1 items.length
      rw [UInt8.toNat_sub_of_le _ _ one]
      rfl
    simp only [Body, write_self, write_of_ne N _ (show 0 ≠ 2 + ((N 0).byte 4).toNat + 1 by omega),
      Word.byte_setByte, Nat.reduceLT, Nat.reduceEqDiff, if_true, if_false, first, count,
      write_of_ne _ _ (show 1 ≠ 0 by decide), write_of_ne _ _ (show 2 ≠ 0 by decide)]
    refine ⟨le, capacity, flag, ?_, ?_, ?_⟩
    · rw [write_of_ne _ _ (by omega), sendq]
    · rw [write_of_ne _ _ (by omega), recvq]
    · exact popped.congr fun i _ => by rw [write_of_ne _ _ (by omega), write_of_ne _ _ (by omega)]

end Channel

theorem mapM_heap {α β : Type} {f : α → HeapM β} {g : α → β} {l : List α}
    (ok : ∀ x ∈ l, f x h = .ok (g x) h) : l.mapM f h = .ok (l.map g) h := by
  induction l with
  | nil => rfl
  | cons x l ih =>
    rw [List.mapM_cons, bind_of_ok (ok x List.mem_cons_self),
      bind_of_ok (ih fun y hy => ok y (List.mem_cons_of_mem x hy))]
    rfl

section Queue

variable {ws : List Waiter}

theorem queueLen_shows (s : Shows h.words a (.queue ws)) : queueLen a h = .ok ws.length h := by
  have ring : Ring _ _ _ _ _ _ _ ws := s.body
  rw [queueLen, bind_of_ok (field_ok s.node 5), ring.count]
  rfl

theorem enqueue_full (s : Shows h.words a (.queue ws)) (full : ws.length = 15) (w : Waiter) :
    enqueue a w h = .error (.fault .queueCapacity) h := by
  rw [enqueue, bind_of_ok (queueLen_shows s), if_pos (show ws.length = maxChildren from full)]
  rfl

/-- Parking keeps the low half of the id. -/
theorem enqueue_shows (s : Shows h.words a (.queue ws)) (space : ws.length ≠ 15) (w : Waiter) :
    ∃ h', enqueue a w h = .ok () h' ∧
      Updates h h' a (.queue (ws ++ [⟨w.fiber.toUInt32.toNat, w.value⟩])) := by
  have ring : Ring _ _ _ _ _ _ _ ws := s.body
  have start := Edited.refl s.node
  revert ring start
  generalize hN : cell h.words a = N
  intro ring start
  have room := ring.room
  have inside : ((N 0).byte 4).toNat < 15 := by
    rw [ring.next_eq (by omega)]
    exact Nat.mod_lt _ (by omega)
  obtain ⟨h₁, r₁, e₁⟩ := start.setPayload (i := ((N 0).byte 4).toNat) rfl
    (by unfold nodeSize; omega) w.toWord
  obtain ⟨h₂, r₂, e₂⟩ := e₁.setField 4 ((((N 0).byte 4).toNat + 1) % maxChildren).toUInt8
  obtain ⟨h₃, r₃, e₃⟩ := e₂.setField 5 (ws.length + 1).toUInt8
  have put : write N (((N 0).byte 4).toNat + 1) w.toWord (1 + ((N 0).byte 4).toNat) = w.toWord := by
    rw [Nat.add_comm, write_self]
  have pushed := ring.push (by omega) put fun i _ ne => write_of_ne _ _ (by omega)
  have entry : Waiter.ofWord w.toWord = ⟨w.fiber.toUInt32.toNat, w.value⟩ := by
    simp [Waiter.ofWord, Waiter.toWord]
  refine ⟨h₃, ?_, e₃.updates s (by rfl) (by rfl) ?_ (Nat.le_refl 16) ?_⟩
  · rw [enqueue, bind_of_ok (queueLen_shows s), if_neg (by simpa [maxChildren] using space),
      bind_of_ok (start.field 4), bind_of_ok r₁,
      bind_of_ok (ringNext_ok (by simp [maxChildren])), bind_of_ok r₂, r₃]
  · rw [hN]
    exact fun k => byte_write (Nat.succ_ne_zero _) (by decide) (by decide)
  · have next : ((((N 0).byte 4).toNat + 1) % maxChildren).toUInt8.toNat =
        (((N 0).byte 4).toNat + 1) % 15 := toNat_toUInt8 (by unfold maxChildren; omega)
    have count : (ws.length + 1).toUInt8.toNat = ws.length + 1 := toNat_toUInt8 (by omega)
    simp only [Body, write_self, write_of_ne N _ (show 0 ≠ ((N 0).byte 4).toNat + 1 by omega),
      Word.byte_setByte, Nat.reduceLT, Nat.reduceEqDiff, if_true, if_false, next, count]
    rw [entry, ring.count] at pushed
    exact pushed.congr fun i _ => by rw [write_of_ne _ _ (by omega), write_of_ne _ _ (by omega)]

theorem dequeue_nil (s : Shows h.words a (.queue [])) : dequeue a h = .ok none h := by
  rw [dequeue, bind_of_ok (queueLen_shows s)]
  rfl

theorem dequeue_cons {w : Waiter} (s : Shows h.words a (.queue (w :: ws))) :
    ∃ h', dequeue a h = .ok (some w) h' ∧ Updates h h' a (.queue ws) := by
  have ring : Ring _ _ _ _ _ _ _ (w :: ws) := s.body
  have start := Edited.refl s.node
  revert ring start
  generalize hN : cell h.words a = N
  intro ring start
  have room : ws.length + 1 ≤ 15 := ring.room
  have inside : ((N 0).byte 3).toNat < 15 := ring.first_lt (by omega)
  have read := start.payload (i := ((N 0).byte 3).toNat) rfl (by unfold nodeSize; omega)
  obtain ⟨h₁, r₁, e₁⟩ := start.setPayload (i := ((N 0).byte 3).toNat) rfl
    (by unfold nodeSize; omega) 0
  obtain ⟨h₂, r₂, e₂⟩ := e₁.setField 3 ((((N 0).byte 3).toNat + 1) % maxChildren).toUInt8
  obtain ⟨h₃, r₃, e₃⟩ := e₂.setField 5 (ws.length + 1 - 1).toUInt8
  obtain ⟨oldest, popped⟩ := ring.pop fun i _ ne => write_of_ne N 0
    (show 1 + i ≠ ((N 0).byte 3).toNat + 1 by omega)
  rw [Nat.add_comm] at oldest
  refine ⟨h₃, ?_, e₃.updates s (by rfl) (by rfl) ?_ (Nat.le_refl 16) ?_⟩
  · rw [dequeue, bind_of_ok (queueLen_shows s), if_neg (show ¬ (w :: ws).length = 0 from Nat.succ_ne_zero _),
      bind_of_ok (start.field 3), bind_of_ok read, bind_of_ok r₁,
      bind_of_ok (ringNext_ok (by simp [maxChildren])), bind_of_ok r₂]
    change (setField a 5 (ws.length + 1 - 1).toUInt8 >>= _) h₂ = _
    rw [bind_of_ok r₃, oldest]
    rfl
  · rw [hN]
    exact fun k => byte_write (Nat.succ_ne_zero _) (by decide) (by decide)
  · have first : ((((N 0).byte 3).toNat + 1) % maxChildren).toUInt8.toNat =
        (((N 0).byte 3).toNat + 1) % 15 := toNat_toUInt8 (by unfold maxChildren; omega)
    have count : (ws.length + 1 - 1).toUInt8.toNat = ws.length := toNat_toUInt8 (by omega)
    simp only [Body, write_self, write_of_ne N _ (show 0 ≠ ((N 0).byte 3).toNat + 1 by omega),
      Word.byte_setByte, Nat.reduceLT, Nat.reduceEqDiff, if_true, if_false, first, count]
    rw [ring.count, List.length_cons, Nat.add_sub_cancel] at popped
    exact popped.congr fun i _ => by rw [write_of_ne _ _ (by omega), write_of_ne _ _ (by omega)]

theorem waiters_shows (s : Shows h.words a (.queue ws)) : waiters a h = .ok ws h := by
  have ring : Ring _ _ _ _ _ _ _ ws := s.body
  rw [waiters, bind_of_ok (field_ok s.node 3), bind_of_ok (queueLen_shows s)]
  have read : ∀ k ∈ List.range ws.length,
      (do return Waiter.ofWord (← payload a ((((cell h.words a 0).byte 3).toNat + k) % maxChildren : Nat)) :
        HeapM Waiter) h =
      .ok (Waiter.ofWord (cell h.words a (1 + (((cell h.words a 0).byte 3).toNat + k) % 15))) h := by
    intro k _
    have inside : (((cell h.words a 0).byte 3).toNat + k) % maxChildren < 15 := Nat.mod_lt _ (by decide)
    rw [bind_of_ok (payload_ok s.node rfl (by unfold nodeSize; omega)), Nat.add_comm _ 1]
    rfl
  rw [mapM_heap read, ring.map_range]

end Queue

section Group

variable {counter : Int32} {ids : List Word}

theorem groupCounter_shows (s : Shows h.words a (.group counter ids)) :
    groupCounter a h = .ok counter h := by
  rw [groupCounter, bind_of_ok (wideField_ok s.node), s.body.1]
  rfl

theorem setGroupCounter_shows (s : Shows h.words a (.group counter ids)) (n : Int32) :
    ∃ h', setGroupCounter a n h = .ok () h' ∧ Updates h h' a (.group n ids) := by
  obtain ⟨-, le, count, slots⟩ := s.body
  obtain ⟨h', run, e⟩ := (Edited.refl s.node).setWideField n.toUInt32
  refine ⟨h', run, e.updates s (by rfl) (by rfl) ?_ (Nat.le_refl 16) ?_⟩
  · exact fun k lt => Word.byte_setHigh _ _ (by omega)
  · simp only [Body, write_self, Word.high_setHigh, Word.byte_setHigh, Nat.reduceLT]
    exact ⟨rfl, le, count, slots.congr fun i _ => write_of_ne _ _ (by omega)⟩

theorem addGroupWaiter_full (s : Shows h.words a (.group counter ids)) (full : ids.length = 15)
    (id : Nat) : addGroupWaiter a id h = .error (.fault .waitersCapacity) h := by
  obtain ⟨-, -, count, -⟩ := s.body
  rw [addGroupWaiter, bind_of_ok (field_ok s.node 3),
    if_pos (show ((cell h.words a 0).byte 3).toNat = maxChildren from count.trans full)]
  rfl

theorem Slots.append {N : Nat → Word} (slots : Slots id N 1 ids) (w : Word) :
    Slots id (write N (ids.length + 1) w) 1 (ids ++ [w]) := by
  intro i x get
  rcases Nat.lt_or_ge i ids.length with old | new
  · rw [List.getElem?_append_left old] at get
    rw [write_of_ne _ _ (by omega)]
    exact slots i x get
  · have last := (List.getElem?_eq_some_iff.1 get).1
    rw [List.length_append, List.length_singleton] at last
    obtain rfl : i = ids.length := by omega
    rw [List.getElem?_concat_length] at get
    rw [Nat.add_comm 1, write_self]
    exact Option.some.inj get

theorem addGroupWaiter_shows (s : Shows h.words a (.group counter ids)) (space : ids.length ≠ 15)
    (fiber : Nat) :
    ∃ h', addGroupWaiter a fiber h = .ok () h' ∧
      Updates h h' a (.group counter (ids ++ [fiber.toUInt64])) := by
  obtain ⟨value, le, count, slots⟩ := s.body
  have start := Edited.refl s.node
  revert value count slots start
  generalize hN : cell h.words a = N
  intro value count slots start
  obtain ⟨h₁, r₁, e₁⟩ := start.setPayload (i := ((N 0).byte 3).toNat) rfl
    (by unfold nodeSize; omega) fiber.toUInt64
  obtain ⟨h₂, r₂, e₂⟩ := e₁.setField 3 ((N 0).byte 3 + 1)
  refine ⟨h₂, ?_, e₂.updates s (by rfl) (by rfl) ?_ (Nat.le_refl 16) ?_⟩
  · rw [addGroupWaiter, bind_of_ok (start.field 3), if_neg (by unfold maxChildren; omega),
      bind_of_ok r₁, r₂]
  · intro k lt
    rw [hN, write_self, write_of_ne _ _ (by omega),
      Word.byte_setByte_of_ne _ _ (by decide) (by omega) (by omega)]
  · have next : ((N 0).byte 3 + 1).toNat = ids.length + 1 := by
      rw [UInt8.toNat_add, count]
      exact Nat.mod_eq_of_lt (show ids.length + 1 < 256 by omega)
    simp only [Body, write_self, write_of_ne N _ (show 0 ≠ ((N 0).byte 3).toNat + 1 by omega),
      Word.byte_setByte, Nat.reduceLT, if_true, Word.high_setByte, next, List.length_append,
      List.length_singleton]
    refine ⟨value, by omega, trivial, ?_⟩
    rw [count]
    exact (slots.append fiber.toUInt64).congr fun i _ => write_of_ne _ _ (by omega)

theorem groupWaiters_shows (s : Shows h.words a (.group counter ids)) :
    groupWaiters a h = .ok ids h := by
  obtain ⟨-, le, count, slots⟩ := s.body
  rw [groupWaiters, bind_of_ok (field_ok s.node 3), count]
  have read : ∀ i ∈ List.range ids.length,
      payload a (i : Nat) h = .ok (id (cell h.words a (1 + i))) h := by
    intro i mem
    have lt := List.mem_range.1 mem
    rw [payload_ok s.node rfl (by unfold nodeSize; omega), Nat.add_comm i 1]
    rfl
  rw [mapM_heap read, slots.map_range]

theorem Edited.clear {h' : Heap} {N : Nat → Word} (e : Edited h h' a N) (k : Nat) (le : k ≤ 15) :
    ∃ h'' N', (List.range k).forM (fun i : Nat => Heap.setPayload a i 0) h' = .ok () h'' ∧
      Edited h h'' a N' ∧ N' 0 = N 0 := by
  induction k with
  | zero => exact ⟨h', N, rfl, e, rfl⟩
  | succ k ih =>
    obtain ⟨h₁, N₁, r₁, e₁, zero⟩ := ih (by omega)
    obtain ⟨h₂, r₂, e₂⟩ := e₁.setPayload (i := k) rfl (by unfold nodeSize; omega) 0
    refine ⟨h₂, _, ?_, e₂, by rw [write_of_ne _ _ (by omega), zero]⟩
    rw [forM_range_succ, bind_of_ok r₁, r₂]

theorem drainGroupWaiters_shows (s : Shows h.words a (.group counter ids)) :
    ∃ h', drainGroupWaiters a h = .ok ids h' ∧ Updates h h' a (.group counter []) := by
  obtain ⟨value, le, count, slots⟩ := s.body
  obtain ⟨h₁, N, r₁, e₁, zero⟩ := (Edited.refl s.node).clear ids.length le
  obtain ⟨h₂, r₂, e₂⟩ := e₁.setField 3 0
  refine ⟨h₂, ?_, e₂.updates s (by rfl) (by rfl) ?_ (Nat.le_refl 16) ?_⟩
  · rw [drainGroupWaiters, bind_of_ok (groupWaiters_shows s), bind_of_ok r₁, bind_of_ok r₂]
    rfl
  · intro k lt
    rw [write_self, zero, Word.byte_setByte_of_ne _ _ (by decide) (by omega) (by omega)]
  · simp only [Body, write_self, Word.byte_setByte, Nat.reduceLT, if_true, Word.high_setByte, zero]
    exact ⟨value, Nat.zero_le _, rfl, fun i x get => by simp at get⟩

end Group

end

end Heap

end FiberVm
