import FiberVm.Proofs.Machine.Fibers

/-!
# What goes through a channel

Along a run a ledger is kept for the channel at an address: the integers that are sent on it, those that it
delivers, the receivers that are parked there and those that are given a value. When a channel is made there,
the ledger starts afresh. At any time the integers sent are those delivered, then those in the ring, then
those of the parked senders, each in order; and the receivers parked are those served and then those who
still wait.
-/

set_option autoImplicit false

namespace FiberVm

open Heap (Shows Drift Updates Wired Plays Acts NodeIn tagAt)

def Heap.intOf (h : Heap) (a : Addr) : Int64 :=
  match intValue a h with
  | .ok k _ => k
  | .error _ _ => 0

def Machine.topOperand (m : Machine) (id : Nat) : Option Addr :=
  (m.fibers.find? fun f => f.id == id).bind fun f => f.operands.head?

/-- What has gone through a channel, oldest first. -/
structure Ledger where
  sent : List Int64 := []
  delivered : List Int64 := []
  /-- What has come to lie on top of the stacks of those who receive. -/
  received : List Int64 := []
  /-- The receivers that have been parked. -/
  parked : List Nat := []
  /-- The parked receivers that have been given a value. -/
  served : List Nat := []

namespace Ledger

/-- Enters that `v` is sent. It is handed to the first parked receiver if there is one. -/
def send (ch : Addr) (m : Machine) (v : Addr) (m' : Machine) (l : Ledger) : Ledger :=
  match m.heap.nextReceiver ch with
  | some w =>
    { l with
      sent := l.sent ++ [m.heap.intOf v]
      delivered := l.delivered ++ [m.heap.intOf v]
      received := l.received ++ (m'.topOperand w.fiber).toList.map m.heap.intOf
      served := l.served ++ [w.fiber] }
  | none => { l with sent := l.sent ++ [m.heap.intOf v] }

/-- Enters a receive. It pushes a value in the place of the channel, or it parks. -/
def recv (m m' : Machine) (l : Ledger) : Ledger :=
  if m'.current.operands.length = m.current.operands.length then
    { l with
      delivered := l.delivered ++ m'.current.operands.head?.toList.map m'.heap.intOf
      received := l.received ++ m'.current.operands.head?.toList.map m'.heap.intOf }
  else { l with parked := l.parked ++ [m.current.id] }

/-- Enters what `i` does to the channel at `ch`, where `m'` is the machine when `i` has been executed. -/
def enter (ch : Addr) (m : Machine) (i : Instr) (m' : Machine) (l : Ledger) : Ledger :=
  match i, m.current.operands with
  | .send, v :: c :: _ => if c = ch then l.send ch m v m' else l
  | .recv, c :: _ => if c = ch then l.recv m m' else l
  | _, _ => if m.callee i = some .make ∧ m'.current.operands.head? = some ch then {} else l

/-- Enters what a turn does to the channel at `ch`. -/
def account (ch : Addr) (m : Machine) (t : Turn) (l : Ledger) : Ledger :=
  match m.executed t with
  | some (i, m') => l.enter ch m i m'
  | none => l

/-- The ledger with an act entered. -/
def add (l : Ledger) (h : Heap) (act : Act) : Ledger where
  sent := l.sent ++ act.sent.map h.intOf
  delivered := l.delivered ++ act.given.map h.intOf
  parked := l.parked ++ act.parked
  served := l.served ++ act.served

/-- The ledger agrees with the channel. Entries of a queue keep the low half of an id. -/
def Balanced (l : Ledger) (h : Heap) (c : Chan) : Prop :=
  l.sent = l.delivered ++ c.values.map h.intOf ∧
    l.parked.map (fun id => id.toUInt32.toNat) = l.served ++ c.receiving.map Waiter.fiber

end Ledger

section Integers

variable {h h' : Heap} {a : Addr}

theorem Heap.intOf_shows {k : Int64} (s : Shows h.words a (.int k)) : h.intOf a = k := by
  rw [intOf, intValue_shows s]

/-- Integers never change. -/
theorem Heap.Acts.intOf {ch : Addr} {act : Act} {c c' : Chan} (acts : Acts h h' ch act c c')
    (int : ∃ k, Shows h.words a (.int k)) : h'.intOf a = h.intOf a := by
  obtain ⟨k, s⟩ := int
  rw [intOf_shows s, intOf_shows (acts.shows s nofun nofun)]

end Integers

namespace Ledger

section Balance

variable {l : Ledger} {h h' : Heap} {ch : Addr} {c c' : Chan} {act : Act}

theorem Balanced.of_ints (balanced : l.Balanced h c) (same : ∀ x ∈ c.values, h'.intOf x = h.intOf x) :
    l.Balanced h' c := by
  refine ⟨?_, balanced.2⟩
  rw [balanced.1, List.map_congr_left same]

theorem Balanced.add (balanced : l.Balanced h c) (settled : c.Settled) (step : c.Step act c') :
    (l.add h act).Balanced h c' := by
  refine ⟨?_, ?_⟩
  · calc l.sent ++ act.sent.map h.intOf
        = l.delivered ++ (c.values ++ act.sent).map h.intOf := by
          rw [balanced.1, List.map_append, List.append_assoc]
      _ = l.delivered ++ act.given.map h.intOf ++ c'.values.map h.intOf := by
          rw [settled.values_step step, List.map_append, List.append_assoc]
  · calc (l.parked ++ act.parked).map (fun id => id.toUInt32.toNat)
        = l.served ++ (c.receiving.map Waiter.fiber ++ act.parked.map fun id => id.toUInt32.toNat) := by
          rw [List.map_append, balanced.2, List.append_assoc]
      _ = l.served ++ act.served ++ c'.receiving.map Waiter.fiber := by
          rw [step.receiving, List.append_assoc]

/-- What happens elsewhere does not show in the ledger. -/
theorem Balanced.drift {new : List Addr} (wired : Wired h.words) (d : Drift new h h') (old : ch ∉ new)
    (balanced : ∀ c, Plays h.words ch c → l.Balanced h c) (p : Plays h'.words ch c) : l.Balanced h' c := by
  have before := wired.plays_before d old p
  refine (balanced c before).of_ints fun x mem => ?_
  obtain ⟨k, s⟩ := wired.ints ch c before x mem
  have same := (wired.linked d before old p.tagAt).2 x mem
  rw [Heap.intOf_shows s, Heap.intOf_shows (s.of_same same d.size)]

theorem Balanced.group {g : Addr} {n n' : Int32} {ids ids' : List Word} (wired : Wired h.words)
    (s : Shows h.words g (.group n ids)) (u : Updates h h' g (.group n' ids'))
    (balanced : ∀ c, Plays h.words ch c → l.Balanced h c) (p : Plays h'.words ch c) : l.Balanced h' c := by
  have before := (wired.plays_group s u).1 p
  refine (balanced c before).of_ints fun x mem => ?_
  obtain ⟨k, t⟩ := wired.ints ch c before x mem
  rw [Heap.intOf_shows t, Heap.intOf_shows (u.shows_group s t nofun)]

/-- An act on the channel itself is entered. -/
theorem Balanced.here (balanced : l.Balanced h c) (wired : Wired h.words) (acts : Acts h h' ch act c c') :
    (l.add h act).Balanced h' c' := by
  refine (balanced.add (wired.settled ch c acts.before) acts.step).of_ints fun x mem => ?_
  exact acts.intOf ((acts.ints x mem).elim (wired.ints ch c acts.before x) id)

theorem Balanced.elsewhere {x : Addr} {d d' : Chan} (balanced : l.Balanced h c) (wired : Wired h.words)
    (acts : Acts h h' x act d d') (p : Plays h.words ch c) : l.Balanced h' c :=
  balanced.of_ints fun y mem => acts.intOf (wired.ints ch c p y mem)

end Balance

section Enter

variable {l : Ledger} {m m' : Machine} {ch : Addr} {i : Instr} {c c' : Chan} {act : Act}

theorem enter_of_other (noSend : i ≠ .send) (noRecv : i ≠ .recv) :
    l.enter ch m i m' = if m.callee i = some .make ∧ m'.current.operands.head? = some ch then {} else l := by
  cases i with
  | send => exact absurd rfl noSend
  | recv => exact absurd rfl noRecv
  | _ => rfl

theorem enter_of_unmade (noSend : i ≠ .send) (noRecv : i ≠ .recv) (other : m.callee i ≠ some .make) :
    l.enter ch m i m' = l := by
  rw [enter_of_other noSend noRecv, if_neg fun made => other made.1]

theorem enter_of_plain (plain : i.IsPlain) (other : m.callee i ≠ some .make) : l.enter ch m i m' = l :=
  enter_of_unmade plain.1 plain.2.1 other

theorem enter_of_send {v x : Addr} {rest : List Addr} (operands : m.current.operands = v :: x :: rest) :
    l.enter ch m .send m' = if x = ch then l.send ch m v m' else l := by
  simp only [enter, operands]

theorem enter_of_recv {x : Addr} {rest : List Addr} (operands : m.current.operands = x :: rest) :
    l.enter ch m .recv m' = if x = ch then l.recv m m' else l := by
  simp only [enter, operands]

/-- What is entered for an act on the channel at `ch`. -/
theorem enter_of_act (wired : Wired m.heap.words) (acts : Acts m.heap m'.heap ch act c c')
    (label : (StepLabel.act ch act).Of m i m') :
    l.enter ch m i m' = { l.add m.heap act with received := (l.enter ch m i m').received } := by
  have int : ∀ x ∈ c.values, m'.heap.intOf x = m.heap.intOf x := fun x mem =>
    acts.intOf (wired.ints ch c acts.before x mem)
  have next := Heap.nextReceiver_plays acts.before
  rcases label with ⟨rfl, v, rest, sends, operands⟩ | ⟨rfl, v, rest, gives, operands, got⟩ |
    ⟨rfl, rfl, rest, operands, left⟩ | ⟨rfl, plain, other⟩
  · -- A send hands its value over, stores it, or parks with it.
    rw [enter_of_send operands, if_pos rfl, send, next]
    cases acts.step with
    | hand x waiting =>
      obtain rfl : x = v := sends
      simp [add, Act.sent, Act.given, Act.parked, Act.served, waiting]
    | store x none =>
      obtain rfl : x = v := sends
      simp [add, Act.sent, Act.given, Act.parked, Act.served, none]
    | parkSender id x none =>
      obtain rfl : x = v := sends
      simp [add, Act.sent, Act.given, Act.parked, Act.served, none]
    | _ => exact sends.elim
  · -- A receive that gets a value has as many operands afterwards, and one that parks has one fewer.
    rw [enter_of_recv operands, if_pos rfl, recv, got, operands,
      if_pos (List.length_cons.trans List.length_cons.symm)]
    cases acts.step with
    | @take x rest items =>
      obtain rfl : x = v := gives
      have same := int x (by simp [Chan.values, items])
      simp [add, Act.sent, Act.given, Act.parked, Act.served, same]
    | @refill x rest w ws items =>
      obtain rfl : x = v := gives
      have same := int x (by simp [Chan.values, items])
      simp [add, Act.sent, Act.given, Act.parked, Act.served, same]
    | @pass w ws noItems senders =>
      obtain rfl : w.value = v := gives
      have same := int w.value (by simp [Chan.values, senders])
      simp [add, Act.sent, Act.given, Act.parked, Act.served, same]
    | _ => exact gives.elim
  · rw [enter_of_recv operands, if_pos rfl, recv, left, operands, if_neg (by simp)]
    simp [add, Act.sent, Act.given, Act.parked, Act.served]
  · rw [enter_of_plain plain other]
    simp [add, Act.sent, Act.given, Act.parked, Act.served]

/-- Nothing is entered for an act on another channel. -/
theorem enter_of_other_act {x : Addr} (ne : x ≠ ch) (label : (StepLabel.act x act).Of m i m') :
    l.enter ch m i m' = l := by
  rcases label with ⟨rfl, v, rest, -, operands⟩ | ⟨rfl, v, rest, -, operands, -⟩ |
    ⟨rfl, -, rest, operands, -⟩ | ⟨-, plain, other⟩
  · rw [enter_of_send operands, if_neg ne]
  · rw [enter_of_recv operands, if_neg ne]
  · rw [enter_of_recv operands, if_neg ne]
  · exact enter_of_plain plain other

end Enter

section Turns

variable {l : Ledger} {m m' : Machine} {ch : Addr} {t : Turn}

/-- What one instruction preserves. -/
theorem balanced_of_deed {i : Instr} {label : StepLabel} (wired : Wired m.heap.words) (deed : m.Deed label m')
    (fits : label.Of m i m') (balanced : ∀ c, Plays m.heap.words ch c → l.Balanced m.heap c) :
    ∀ c, Plays m'.heap.words ch c → (l.enter ch m i m').Balanced m'.heap c := by
  intro c p
  have heap := deed.heap
  -- A new node that is no channel is not the one the ledger is kept for.
  have foreign : ∀ {a n}, Shows m'.heap.words a n → n.tag ≠ .intChannel → ch ≠ a := by
    rintro a n s tag rfl
    exact tag (s.tagAt.symm.trans p.tagAt)
  cases label with
  | quiet | sleep =>
    rw [enter_of_plain fits.1 fits.2]
    exact .drift wired heap List.not_mem_nil balanced p
  | spawn =>
    obtain ⟨stop, rfl⟩ := fits
    rw [show l.enter ch m (.startFiber stop) m' = l from enter_of_unmade nofun nofun nofun]
    exact .drift wired heap List.not_mem_nil balanced p
  | stop =>
    obtain rfl := fits
    rw [show l.enter ch m .stopFiber m' = l from enter_of_unmade nofun nofun nofun]
    exact .drift wired heap List.not_mem_nil balanced p
  | newGroup g =>
    rw [enter_of_plain fits.1 fits.2]
    exact .drift wired heap.1 (by simpa using foreign heap.2.1 nofun) balanced p
  | count g =>
    obtain ⟨n, n', ids, s, u, -⟩ := heap
    rw [enter_of_plain fits.1 fits.2]
    exact .group wired s u balanced p
  | drain g ids =>
    obtain ⟨n, s, u⟩ := heap
    rw [enter_of_plain fits.1 fits.2]
    exact .group wired s u balanced p
  | wait g id =>
    obtain ⟨n, ids, s, u, -⟩ := heap
    rw [enter_of_plain fits.1 fits.2]
    exact .group wired s u balanced p
  | make capacity x s r =>
    obtain ⟨callee, top⟩ := fits
    have calls : i ≠ .send ∧ i ≠ .recv := by
      constructor
      · rintro rfl
        cases callee
      · rintro rfl
        cases callee
    rw [enter_of_other calls.1 calls.2]
    by_cases here : x = ch
    · subst here
      rw [if_pos ⟨callee, top⟩]
      have fresh : Plays m'.heap.words x ⟨capacity, false, s, r, [], [], []⟩ :=
        ⟨heap.channel, heap.senders, heap.receivers⟩
      rw [p.unique fresh]
      exact ⟨rfl, rfl⟩
    · rw [if_neg fun made => here (Option.some.inj (top.symm.trans made.2))]
      refine .drift wired heap.drift ?_ balanced p
      simp only [List.mem_cons, List.not_mem_nil, or_false, not_or]
      exact ⟨foreign heap.senders nofun, foreign heap.receivers nofun, Ne.symm here⟩
  | act x a =>
    obtain ⟨d, d', acts⟩ := heap
    rcases wired.plays_acts acts p with ⟨rfl, rfl⟩ | ⟨ne, before⟩
    · rw [enter_of_act wired acts fits]
      exact (balanced d acts.before).here wired acts
    · rw [enter_of_other_act ne.symm fits]
      exact (balanced c before).elsewhere wired acts before

theorem balanced_of_outcome (wired : Wired m.heap.words) (outcome : m.Outcome t m')
    (balanced : ∀ c, Plays m.heap.words ch c → l.Balanced m.heap c) (fine : m'.control.failed = none) :
    ∀ c, Plays m'.heap.words ch c → (l.account ch m t).Balanced m'.heap c := by
  cases outcome with
  | rests drift control none =>
    intro c p
    rw [account, m.executed_of_rests none]
    exact .drift wired drift List.not_mem_nil balanced p
  | goes next run deed fits goes =>
    rw [account, m.executed_of_executes _ next run, goes.heap]
    exact balanced_of_deed wired deed fits balanced
  | fails _ _ failed => exact absurd (fine.symm.trans failed) nofun

/-- What is handed over lies on top of the receiver's stack. -/
theorem topOperand_of_hands {label : StepLabel} {i : Instr} {v : Addr} {id : Nat} (wired : Wired m.heap.words)
    (order : m.InOrder) (running : m.control.sched.current.state = .running) (few : m.control.sched.nextId ≤ UInt32.size)
    (deed : m.Deed label m') (run : m.executed t = some (i, m')) (fits : label.Of m i m') (hands : m.Hands t v id) :
    m'.topOperand id = some v := by
  have blocked := (order.handed few deed ((deed.hands run fits v id).1 hands)).2
  rcases blocked with ⟨own, is⟩ | ⟨f, mem, rfl, -⟩
  · exact absurd (.inl ⟨rfl, is⟩) (order.not_blocked running)
  · obtain ⟨g, there, id, pushed, -⟩ := deed.retains run fits (.refl _) mem (order.cons.apart f mem)
    have found := (order.deed wired running few deed).cons.find_live there
    have operands : g.operands = v :: f.operands :=
      show g.resting.operands = (f.push v).resting.operands from congrArg Fiber.operands (pushed v hands)
    rw [Machine.topOperand, Machine.fibers, ← id, found, Option.bind_some, operands]
    rfl

/-- What one instruction preserves. -/
theorem received_of_deed {label : StepLabel} {i : Instr} (wired : Wired m.heap.words)
    (order : m.InOrder) (running : m.control.sched.current.state = .running) (few : m.control.sched.nextId ≤ UInt32.size)
    (deed : m.Deed label m') (run : m.executed t = some (i, m')) (fits : label.Of m i m')
    (same : l.received = l.delivered) : (l.enter ch m i m').received = (l.enter ch m i m').delivered := by
  unfold enter
  split
  · next v x rest operands =>
    split
    · next here =>
      subst here
      unfold send
      cases next : m.heap.nextReceiver x with
      | none => exact same
      | some waiter =>
        have hands : m.Hands t v waiter.fiber := ⟨by rw [run]; rfl, x, rest, waiter, operands, next, rfl⟩
        have top := topOperand_of_hands wired order running few deed run fits hands
        simp [top, same]
    · exact same
  · split
    · unfold recv
      split
      · simp [same]
      · exact same
    · exact same
  · split
    · rfl
    · exact same

theorem received_of_outcome {q : Terms} {w : World} {c : Census} (p : m.Paired q w m) (wired : Wired m.heap.words)
    (outcome : m.Outcome t m')
    (before : c.started.length ≤ UInt32.size → m.control.failed = none →
      (m.InOrder ∧ c.Counts m.control.sched) ∧ l.received = l.delivered)
    (few : (c.enter m t).started.length ≤ UInt32.size) (fine : m'.control.failed = none) :
    (m'.InOrder ∧ (c.enter m t).Counts m'.control.sched) ∧
      (l.account ch m t).received = (l.account ch m t).delivered := by
  refine ⟨p.fibers wired outcome (fun few fine => (before few fine).1) few fine, ?_⟩
  obtain ⟨⟨order, counts⟩, same⟩ := before (Nat.le_trans (c.length_enter m t) few) (outcome.fine fine)
  have small : m.control.sched.nextId ≤ UInt32.size := counts.length ▸ Nat.le_trans (c.length_enter m t) few
  cases outcome with
  | rests _ _ none => rwa [account, m.executed_of_rests none]
  | @goes canceled i label m₁ _ next run deed fits =>
    have run := m.executed_of_executes canceled next run
    rw [account, run]
    exact received_of_deed wired order (p.running next.1 next.2.1) small deed run fits same
  | fails _ _ failed => cases fine.symm.trans failed

end Turns

end Ledger

def Heap.ringItems (ch : Addr) : HeapM (List Addr) := do
  let capacity ← chanCap ch
  let first ← field ch 4
  (List.range (← chanLen ch)).mapM fun k => child ch (2 + (first.toNat + k) % capacity : Nat)

theorem Heap.Plays.ringItems {h : Heap} {ch : Addr} {c : Chan} (p : Plays h.words ch c) :
    Heap.ringItems ch h = .ok c.items h := by
  obtain ⟨small, -, -, -, -, ring⟩ := p.channel.body
  unfold Heap.ringItems
  rw [bind_of_ok (chanCap_shows p.channel), bind_of_ok (field_ok p.channel.node 4),
    bind_of_ok (chanLen_shows p.channel)]
  have read : ∀ k ∈ List.range c.items.length,
      child ch (2 + (((cell h.words ch 0).byte 4).toNat + k) % c.capacity : Nat) h =
        .ok (cell h.words ch (3 + (((cell h.words ch 0).byte 4).toNat + k) % c.capacity)).low h := by
    intro k mem
    have room := ring.room
    have inside := Nat.mod_lt (((cell h.words ch 0).byte 4).toNat + k)
      (show 0 < c.capacity by have := List.mem_range.1 mem; omega)
    rw [child_ok p.channel.node rfl (by unfold nodeSize; omega)]
    congr 3
    omega
  rw [mapM_heap read, ring.map_range]

/-- In every state that a decoded program reaches by steps and collections without a fault, if it assigns
nothing to the outermost frame, the integers that have been sent on a channel since it was made are those
delivered, then those in its ring, then those of the parked senders; and the receivers that have been parked
there are those that have been given a value, then those that still wait. What is delivered comes to lie on
the stack of the one who receives, as long as ids fit into an entry of a queue. -/
theorem Machine.channel_balanced {p : Program Datum} {is : List Instr} (decoded : p.instrs = .ok is)
    (inner : ∀ pos sym, Instr.assign pos sym ∈ is → pos.frame ≠ 0) {size : Int} {options : Options}
    {clock : Clock} {sink : Sink} {m : Machine}
    (made : Machine.create size (Code.ofInstrs is) options clock sink = .ok m) (ts : List Turn)
    (fine : (m.play ts).control.failed = none) (ch : Addr) (node : NodeIn (m.play ts).heap.words ch)
    (tag : tagAt (m.play ts).heap.words ch = .intChannel) :
    let h := (m.play ts).heap
    let ledger := m.recount (Ledger.account ch) {} ts
    (∃ ring senders receivers, Heap.ringItems ch h = .ok ring h ∧
      (do Heap.waiters (← Heap.sendQueue ch) : HeapM _) h = .ok senders h ∧
      (do Heap.waiters (← Heap.recvQueue ch) : HeapM _) h = .ok receivers h ∧
      ledger.sent = ledger.delivered ++ ring.map h.intOf ++ (senders.map Waiter.value).map h.intOf ∧
      ledger.parked.map (fun id => id.toUInt32.toNat) = ledger.served ++ receivers.map Waiter.fiber) ∧
    ((m.recount Census.enter {} ts).started.length ≤ UInt32.size → ledger.received = ledger.delivered) := by
  intro h ledger
  have start : m.control.failed = none → ∀ c, Plays m.heap.words ch c → Ledger.Balanced {} m.heap c := by
    intro _ c plays
    obtain ⟨h, heap, rfl⟩ := Machine.create_eq made
    obtain ⟨init, -⟩ := Heap.create_initial heap
    exact absurd (.inl plays.tagAt) (init.not_sync plays.channel.node)
  obtain ⟨wired, -, balanced⟩ := Machine.play_invariant (Ledger.account ch)
    (fun m l => m.control.failed = none → ∀ c, Plays m.heap.words ch c → l.Balanced m.heap c) decoded inner made
    (fun _ wired outcome balanced fine => Ledger.balanced_of_outcome wired outcome (balanced (outcome.fine fine)) fine)
    start ts
  refine ⟨?_, fun few => ?_⟩
  · obtain ⟨c, plays⟩ := wired.channels ch node tag
    obtain ⟨values, receivers⟩ := balanced fine c plays
    refine ⟨c.items, c.sending, c.receiving, plays.ringItems, ?_, ?_, ?_, receivers⟩
    · rw [bind_of_ok (Heap.sendQueue_shows plays.channel), Heap.waiters_shows plays.senders]
    · rw [bind_of_ok (Heap.recvQueue_shows plays.channel), Heap.waiters_shows plays.receivers]
    · rw [values, Chan.values, List.map_append, List.append_assoc]
  · obtain ⟨-, -, received⟩ := Machine.play_invariant
      (fun m t x => (Ledger.account ch m t x.1, Census.enter m t x.2))
      (fun m (x : Ledger × Census) => x.2.started.length ≤ UInt32.size → m.control.failed = none →
        (m.InOrder ∧ x.2.Counts m.control.sched) ∧ x.1.received = x.1.delivered) decoded inner made
      (fun paired wired outcome before => Ledger.received_of_outcome paired wired outcome before)
      (fun _ _ => ⟨Machine.create_inOrder made, rfl⟩) ts (a := ({}, {}))
    rw [Machine.recount_prod] at received
    exact (received few fine).2

theorem Machine.channel_balanced_relay : ∃ m, Program.relay.instrs = .ok Program.relayInstrs ∧
    Machine.create 336 (Code.ofInstrs Program.relayInstrs) {} = .ok m ∧ (m.play Turn.relay).AtRelay ∧
    let h := (m.play Turn.relay).heap
    let ledger := m.recount (Ledger.account 304) {} Turn.relay
    (∃ ring senders receivers, Heap.ringItems 304 h = .ok ring h ∧
      (do Heap.waiters (← Heap.sendQueue 304) : HeapM _) h = .ok senders h ∧
      (do Heap.waiters (← Heap.recvQueue 304) : HeapM _) h = .ok receivers h ∧
      ledger.sent = ledger.delivered ++ ring.map h.intOf ++ (senders.map Waiter.value).map h.intOf ∧
      ledger.parked.map (fun id => id.toUInt32.toNat) = ledger.served ++ receivers.map Waiter.fiber) ∧
    ((m.recount Census.enter {} Turn.relay).started.length ≤ UInt32.size → ledger.received = ledger.delivered) := by
  obtain ⟨m, made, reached⟩ := Machine.play_relay
  have balanced := Machine.channel_balanced (p := Program.relay) rfl Program.relay_inner made Turn.relay
    reached.1 304 reached.2.2.2.1 reached.2.2.2.2
  exact ⟨m, rfl, made, reached, balanced⟩

end FiberVm
