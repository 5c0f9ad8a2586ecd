import FiberVm.Proofs.Machine.Outcome

/-!
# Channels in every state of a run

Whatever a program does, nobody is parked at a channel who could go on, and the indices of its ring agree
with what it holds. So putting into a ring that has room and taking from one that is not empty always
succeed.
-/

set_option autoImplicit false

namespace FiberVm

open Heap (Wired Plays NodeIn tagAt)

/-- What can be read off a channel and its two queues. -/
structure ChannelView where
  capacity : Nat
  length : Nat
  /-- Where the next value goes. -/
  sendIndex : Nat
  /-- Where the oldest value stands. -/
  recvIndex : Nat
  senders : List Waiter
  receivers : List Waiter
deriving DecidableEq

/-- Reads a channel and its two queues. -/
def Heap.viewChannel (ch : Addr) : HeapM ChannelView := do
  return {
    capacity := ← chanCap ch
    length := ← chanLen ch
    sendIndex := (← field ch 3).toNat
    recvIndex := (← field ch 4).toNat
    senders := ← waiters (← sendQueue ch)
    receivers := ← waiters (← recvQueue ch) }

/-- The receiver that has been parked at a channel for longest. -/
def Heap.nextReceiver (h : Heap) (ch : Addr) : Option Waiter :=
  match (do waiters (← recvQueue ch) : HeapM (List Waiter)) h with
  | .ok ws _ => ws.head?
  | .error _ _ => none

/-- Nobody is parked who could go on, and the ring is in order. -/
structure ChannelView.InOrder (h : Heap) (v : ChannelView) : Prop where
  room : v.length ≤ v.capacity
  small : v.capacity ≤ Heap.maxChannelCapacity
  empty : v.receivers ≠ [] → v.length = 0 ∧ v.senders = []
  full : v.senders ≠ [] → v.length = v.capacity
  sending : v.senders.length ≤ Heap.maxChildren
  receiving : v.receivers.length ≤ Heap.maxChildren
  idle : ∀ w ∈ v.receivers, w.value = noAddr
  ints : ∀ w ∈ v.senders, Heap.tagOf w.value h = .ok .int h
  index : 0 < v.capacity → v.sendIndex = (v.recvIndex + v.length) % v.capacity

/-- The channel can be read and is in order, and as long as there is room, or something to take, the ring
can be used. -/
def Heap.ChannelInOrder (h : Heap) (ch : Addr) : Prop :=
  ∃ v, viewChannel ch h = .ok v h ∧ v.InOrder h ∧
    (v.length < v.capacity → ∀ x, ∃ h', chanPush ch x h = .ok () h') ∧
    (0 < v.length → ∃ x h', chanPop ch h = .ok x h')

section

variable {h : Heap} {ch : Addr} {c : Chan}

theorem Heap.Plays.view (p : Plays h.words ch c) :
    viewChannel ch h = .ok ⟨c.capacity, c.items.length, ((cell h.words ch 0).byte 3).toNat,
      ((cell h.words ch 0).byte 4).toNat, c.sending, c.receiving⟩ h := by
  unfold viewChannel
  rw [bind_of_ok (chanCap_shows p.channel), bind_of_ok (chanLen_shows p.channel),
    bind_of_ok (field_ok p.channel.node 3), bind_of_ok (field_ok p.channel.node 4),
    bind_of_ok (sendQueue_shows p.channel), bind_of_ok (waiters_shows p.senders),
    bind_of_ok (recvQueue_shows p.channel), bind_of_ok (waiters_shows p.receivers)]
  rfl

theorem Heap.nextReceiver_plays (p : Plays h.words ch c) :
    h.nextReceiver ch = c.receiving.head? := by
  rw [nextReceiver, bind_of_ok (recvQueue_shows p.channel), waiters_shows p.receivers]

theorem Heap.Wired.channelInOrder (wired : Wired h.words) (p : Plays h.words ch c) : h.ChannelInOrder ch := by
  have settled := wired.settled ch c p
  obtain ⟨small, -, -, -, -, ring⟩ := p.channel.body
  have sending : Ring _ _ _ _ _ _ _ c.sending := p.senders.body
  have receiving : Ring _ _ _ _ _ _ _ c.receiving := p.receivers.body
  refine ⟨_, p.view, ⟨settled.room, small, fun some => ?_, settled.full, sending.room, receiving.room,
    settled.idle, fun w mem => ?_, ring.next_eq⟩, fun space x => ?_, fun some => ?_⟩
  · obtain ⟨noItems, noSenders⟩ := settled.empty some
    exact ⟨congrArg List.length noItems, noSenders⟩
  · obtain ⟨k, s⟩ := wired.ints ch c p w.value (List.mem_append_right _ (List.mem_map_of_mem mem))
    exact tagOf_shows s
  · obtain ⟨h', run, -⟩ := chanPush_shows p.channel space x
    exact ⟨h', run⟩
  · obtain ⟨x, rest, items⟩ := List.exists_cons_of_length_pos some
    have shows := p.channel
    rw [items] at shows
    obtain ⟨h', run, -⟩ := chanPop_shows shows
    exact ⟨x, h', run⟩

end

/-- Puts an integer into a new channel and starts a fiber. -/
def Program.relay : Program Datum :=
  { version := 1
    records :=
      [{ opcode := "LD", value := .null, position := [0, 3], sym := "make" },
       { opcode := "LDC", value := .null }, { opcode := "LDC", value := .int 1 },
       { opcode := "CALL", value := .null, arity := 2 },
       { opcode := "LDC", value := .int 7 }, { opcode := "SEND", value := .null },
       { opcode := "START_GOROUTINE", value := .null, stop := 7 }, { opcode := "STOP_GOROUTINE", value := .null },
       { opcode := "DONE", value := .null }] }

def Program.relayInstrs : List Instr :=
  [.load ⟨0, 3⟩ "make", .loadConst .nil, .loadConst (.int .int64 1), .call 2, .loadConst (.int .int64 7), .send,
   .startFiber 7, .stopFiber, .done]

theorem Program.relay_inner : ∀ pos sym, Instr.assign pos sym ∈ Program.relayInstrs → pos.frame ≠ 0 := by
  intro pos sym mem
  simp [Program.relayInstrs] at mem

/-- The steps up to the start of the fiber. -/
def Turn.relay : List Turn := List.replicate 7 (.step false)

/-- The program goes on, it has started a second fiber, and node 304 is a channel. -/
def Machine.AtRelay (m : Machine) : Prop :=
  m.control.failed = none ∧ m.control.result = none ∧ m.control.sched.nextId = 2 ∧
    NodeIn m.heap.words 304 ∧ tagAt m.heap.words 304 = .intChannel

instance (m : Machine) : Decidable m.AtRelay := inferInstanceAs (Decidable (_ ∧ _ ∧ _ ∧ _ ∧ _))

theorem Machine.play_relay : ∃ m, Machine.create 336 (Code.ofInstrs Program.relayInstrs) {} = .ok m ∧
    (m.play Turn.relay).AtRelay := ⟨_, Machine.create_listed rfl, by decide +kernel⟩

/-- In every state that a decoded program reaches by steps and collections, if it assigns nothing to the
outermost frame, every channel is in order, and no turn crashes. -/
theorem Machine.channels_in_order {p : Program Datum} {is : List Instr} (decoded : p.instrs = .ok is)
    (inner : ∀ pos sym, Instr.assign pos sym ∈ is → pos.frame ≠ 0) {size : Int} {options : Options}
    {clock : Clock} {sink : Sink} {m : Machine}
    (made : Machine.create size (Code.ofInstrs is) options clock sink = .ok m) (ts : List Turn) :
    (∀ ch, NodeIn (m.play ts).heap.words ch → tagAt (m.play ts).heap.words ch = .intChannel →
      (m.play ts).heap.ChannelInOrder ch) ∧ ∀ t, ¬ (m.play ts).Crashes t := by
  obtain ⟨wired, w, paired⟩ := Machine.play_wired decoded inner made ts
  refine ⟨fun ch node tag => ?_, fun t => ?_⟩
  · obtain ⟨c, plays⟩ := wired.channels ch node tag
    exact wired.channelInOrder plays
  · have safe := paired.not_stores (Code.inner_ofInstrs inner)
    exact (paired.alone t (fun _ => safe) fun _ => False.elim).1

theorem Machine.channels_in_order_relay : ∃ m, Program.relay.instrs = .ok Program.relayInstrs ∧
    Machine.create 336 (Code.ofInstrs Program.relayInstrs) {} = .ok m ∧ (m.play Turn.relay).AtRelay ∧
    (m.play Turn.relay).heap.ChannelInOrder 304 := by
  obtain ⟨m, made, reached⟩ := Machine.play_relay
  have orders := Machine.channels_in_order (p := Program.relay) rfl Program.relay_inner made Turn.relay
  exact ⟨m, rfl, made, reached, orders.1 304 reached.2.2.2.1 reached.2.2.2.2⟩

end FiberVm
