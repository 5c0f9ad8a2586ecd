import FiberVm.Proofs.Machine.Deadlock

/-!
# Wait groups in every state of a run

The counter of a wait group is not negative, and only a positive one is waited for. Those who wait are blocked, each
has one entry, and nothing wakes them but the instruction that brings the counter to zero. It queues all of them, in
the order in which they came.

A wait group to which nothing refers any more may be collected. Whoever waits there then waits for good.
-/

set_option autoImplicit false

namespace FiberVm

open Heap (Shows Drift NewQueues Updates Wired Plays Acts NodeIn IsSync Tallied tagAt)

/-- What can be read off a wait group. -/
structure GroupView where
  counter : Int32
  /-- The fibers that wait, in the order in which they came. -/
  waiters : List Nat
deriving DecidableEq

namespace Heap

def viewGroup (g : Addr) : HeapM GroupView := do
  return { counter := ← groupCounter g, waiters := (← groupWaiters g).map Word.fiber }

/-- The node at `g` is a wait group. -/
structure Group (h : Heap) (g : Addr) (v : GroupView) : Prop where
  node : NodeIn h.words g
  tag : tagAt h.words g = .waitGroup
  view : viewGroup g h = .ok v h

section Reading

variable {h h' : Heap} {g a : Addr} {n : Int32} {ids : List Word} {v : GroupView} {id : Nat}

theorem Shows.group (s : Shows h.words g (.group n ids)) : h.Group g ⟨n, ids.map Word.fiber⟩ := by
  refine ⟨s.node, s.tagAt, ?_⟩
  rw [viewGroup, bind_of_ok (groupCounter_shows s), bind_of_ok (groupWaiters_shows s)]
  rfl

theorem Wired.group_shows (wired : Wired h.words) (group : h.Group g v) :
    ∃ ids, Shows h.words g (.group v.counter ids) ∧ v.waiters = ids.map Word.fiber := by
  obtain ⟨n, ids, s⟩ := wired.groups g group.node group.tag
  cases group.view.symm.trans s.group.view
  exact ⟨ids, s, rfl⟩

end Reading

end Heap

/-- The counter is in range, and nobody waits for what has come about. -/
structure GroupView.InOrder (v : GroupView) : Prop where
  low : 0 ≤ v.counter.toInt
  high : v.counter.toInt ≤ 2147483647
  few : v.waiters.length ≤ 15
  waits : v.waiters ≠ [] → 0 < v.counter.toInt

theorem Heap.Wired.groupInOrder {h : Heap} {g : Addr} {v : GroupView} (wired : Wired h.words) (group : h.Group g v) :
    v.InOrder := by
  obtain ⟨ids, s, same⟩ := wired.group_shows group
  obtain ⟨low, waits⟩ := wired.tallied g v.counter ids s
  obtain ⟨-, few, -⟩ := s.body
  have low : 0 ≤ v.counter.toInt := Int32.le_iff_toInt_le.1 low
  refine ⟨low, Int32.toInt_le v.counter, by rwa [same, List.length_map], fun some => ?_⟩
  have nonzero := waits fun none => some (by rw [same, none, List.map_nil])
  exact Int.lt_iff_le_and_ne.2 ⟨low, fun zero => nonzero (Int32.toInt_inj.1 zero.symm)⟩

namespace StepLabel

/-- What a label says of a wait group that has this counter and these entries afterwards. -/
inductive Tends (h : Heap) (g : Addr) (n : Int32) (ids : List Word) : StepLabel → Prop
  | same {l : StepLabel} : Shows h.words g (.group n ids) → Tends h g n ids l
  | count {n₀ : Int32} : Shows h.words g (.group n₀ ids) → Tends h g n ids (.count g)
  | drain {n₀ : Int32} {ids₀ : List Word} : Shows h.words g (.group n₀ ids₀) → n = 0 → ids = [] →
    Tends h g n ids (.drain g ids₀)
  | wait {ids₀ : List Word} {id : Nat} : Shows h.words g (.group n ids₀) → n ≠ 0 → ids = ids₀ ++ [id.toUInt64] →
    Tends h g n ids (.wait g id)
  | new : n = 0 → ids = [] → Tends h g n ids (.newGroup g)

/-- The fiber is parked by the instruction. -/
def Parks (k : Nat) : StepLabel → Prop
  | act _ (.parkSender id _) | act _ (.parkReceiver id) | wait _ id => k = id
  | _ => False

theorem parks_current {s s' : Scheduler} {l : StepLabel} (does : l.OnSched s s') {k : Nat} (parks : l.Parks k) :
    k = s.current.id := by
  cases l with
  | wait => exact parks.trans does.1
  | act ch a =>
    cases a with
    | parkSender | parkReceiver => exact parks.trans does.1
    | _ => exact parks.elim
  | _ => exact parks.elim

section OnHeap

variable {h h' : Heap} {l : StepLabel} {g a : Addr} {n : Int32} {ids : List Word}

theorem OnHeap.tends (wired : Wired h.words) (does : l.OnHeap h h') (s : Shows h'.words g (.group n ids)) :
    Tends h g n ids l := by
  cases l with
  | quiet | spawn | stop | sleep => exact .same (wired.group_before does (List.not_mem_nil) s)
  | make capacity ch q r =>
    refine .same (wired.group_before does.drift (fun mem => ?_) s)
    simp only [List.mem_cons, List.not_mem_nil, or_false] at mem
    rcases mem with rfl | rfl | rfl
    · cases does.senders.tagAt.symm.trans s.tagAt
    · cases does.receivers.tagAt.symm.trans s.tagAt
    · cases does.channel.tagAt.symm.trans s.tagAt
  | newGroup b =>
    by_cases here : g = b
    · subst here
      obtain ⟨rfl, rfl⟩ := s.group_unique does.2.1
      exact .new rfl rfl
    · exact .same (wired.group_before does.1 (by simpa using here) s)
  | act ch a =>
    obtain ⟨c, c', acts⟩ := does
    exact .same (wired.group_acts acts s)
  | count b =>
    obtain ⟨n₀, n₁, ids₀, t, u, -⟩ := does
    by_cases here : g = b
    · subst here
      obtain ⟨rfl, rfl⟩ := s.group_unique u.shows
      exact .count t
    · exact .same (wired.group_other t u here s)
  | drain b ids₀ =>
    obtain ⟨n₀, t, u⟩ := does
    by_cases here : g = b
    · subst here
      obtain ⟨rfl, rfl⟩ := s.group_unique u.shows
      exact .drain t rfl rfl
    · exact .same (wired.group_other t u here s)
  | wait b id =>
    obtain ⟨n₀, ids₀, t, u, waits⟩ := does
    by_cases here : g = b
    · subst here
      obtain ⟨rfl, rfl⟩ := s.group_unique u.shows
      exact .wait t waits rfl
    · exact .same (wired.group_other t u here s)

end OnHeap

end StepLabel

/-- An act parks one fiber at most, and leaves the entries of the others where they are. -/
theorem Chan.Step.entries {c c' : Chan} {act : Act} (step : c.Step act c') (ch : Addr) (w : Waiter) :
    (w ∈ c'.sending → w ∈ c.sending ∨ ∃ k, (StepLabel.act ch act).Parks k ∧ w.fiber = k.toUInt32.toNat) ∧
      (w ∈ c'.receiving → w ∈ c.receiving ∨ ∃ k, (StepLabel.act ch act).Parks k ∧ w.fiber = k.toUInt32.toNat) := by
  cases step with
  | hand v waiting => exact ⟨.inl, fun mem => .inl (waiting ▸ List.mem_cons_of_mem _ mem)⟩
  | refill items waiting => exact ⟨fun mem => .inl (waiting ▸ List.mem_cons_of_mem _ mem), .inl⟩
  | pass none waiting => exact ⟨fun mem => .inl (waiting ▸ List.mem_cons_of_mem _ mem), .inl⟩
  | store | take | close => exact ⟨.inl, .inl⟩
  | parkSender id v =>
    refine ⟨fun mem => (List.mem_append.1 mem).imp_right fun new => ⟨id, rfl, ?_⟩, .inl⟩
    rw [List.mem_singleton.1 new]
  | parkReceiver id =>
    refine ⟨.inl, fun mem => (List.mem_append.1 mem).imp_right fun new => ⟨id, rfl, ?_⟩⟩
    rw [List.mem_singleton.1 new]

namespace Heap

variable {h h' : Heap} {a : Addr} {id : Nat}

/-- Somebody is parked at wait queues and wait groups only. -/
theorem sync_of_mem_place (mem : id ∈ h.place a) : NodeIn h.words a ∧ IsSync (tagAt h.words a) := by
  constructor
  · by_contra none
    rw [place_of_not_node none] at mem
    cases mem
  · by_contra none
    rw [place_eq_nil (fun queue => none (.inr (.inl queue))) fun group => none (.inr (.inr group))] at mem
    cases mem

theorem Wired.mem_place_drift {new : List Addr} (wired : Wired h.words) (d : Drift new h h')
    (empty : ∀ a ∈ new, h'.place a = []) (mem : id ∈ h'.place a) :
    id ∈ h.place a ∧ tagAt h'.words a = tagAt h.words a := by
  refine ⟨(wired.place_drift d empty a).subset mem, ?_⟩
  obtain ⟨node, sync⟩ := sync_of_mem_place mem
  have old : a ∉ new := fun new => by
    rw [empty a new] at mem
    cases mem
  exact (d.sync a (d.nodeIn.1 node) old sync).tagAt

theorem Wired.mem_place_acts {ch : Addr} {act : Act} {c c' : Chan} (wired : Wired h.words)
    (acts : Acts h h' ch act c c') (mem : id ∈ h'.place a) :
    id ∈ h.place a ∨ ∃ k, (StepLabel.act ch act).Parks k ∧ id = k.toUInt32.toNat := by
  have entries := acts.step.entries ch
  by_cases here : a ∈ c.queues
  · have queues := acts.queues
    simp only [Chan.queues, List.cons.injEq, and_true] at queues
    simp only [Chan.queues, List.mem_cons, List.not_mem_nil, or_false] at here
    rcases here with rfl | rfl
    · rw [← queues.1, place_queue acts.after.senders] at mem
      rw [place_queue acts.before.senders]
      obtain ⟨w, inside, rfl⟩ := List.mem_map.1 mem
      exact ((entries w).1 inside).imp_left List.mem_map_of_mem
    · rw [← queues.2, place_queue acts.after.receivers] at mem
      rw [place_queue acts.before.receivers]
      obtain ⟨w, inside, rfl⟩ := List.mem_map.1 mem
      exact ((entries w).2 inside).imp_left List.mem_map_of_mem
  · exact .inl (wired.place_acts acts here ▸ mem)

end Heap

namespace StepLabel

variable {h h' : Heap} {l : StepLabel} {a : Addr} {id : Nat}

/-- Whoever is parked somewhere was parked there before, or has just been parked. -/
theorem OnHeap.mem_place (wired : Wired h.words) (does : l.OnHeap h h') (mem : id ∈ h'.place a) :
    (id ∈ h.place a ∧ tagAt h'.words a = tagAt h.words a) ∨
      ∃ k, l.Parks k ∧ (id = k.toUInt32.toNat ∨ id = k.toUInt64.toNat) := by
  cases l with
  | quiet | spawn | stop | sleep => exact .inl (wired.mem_place_drift does nofun mem)
  | make capacity ch q r =>
    refine .inl (wired.mem_place_drift does.drift (fun b new => ?_) mem)
    have plays : Plays h'.words ch ⟨capacity, false, q, r, [], [], []⟩ := ⟨does.channel, does.senders, does.receivers⟩
    simp only [List.mem_cons, List.not_mem_nil, or_false] at new
    rcases new with rfl | rfl | rfl
    · exact Heap.place_queue does.senders
    · exact Heap.place_queue does.receivers
    · exact plays.place
  | newGroup g =>
    refine .inl (wired.mem_place_drift does.1 (fun b new => ?_) mem)
    rw [List.mem_singleton.1 new]
    exact Heap.place_group does.2.1
  | act ch x =>
    obtain ⟨c, c', acts⟩ := does
    have node := acts.nodeIn.1 (Heap.sync_of_mem_place mem).1
    refine (wired.mem_place_acts acts mem).imp (fun before => ⟨before, acts.tagAt node⟩) ?_
    exact fun ⟨k, parks, same⟩ => ⟨k, parks, .inl same⟩
  | count g =>
    obtain ⟨n₀, n₁, ids, s, u, -⟩ := does
    refine .inl ⟨?_, u.tagAt_group s (Heap.sync_of_mem_place mem).1⟩
    by_cases here : a = g
    · subst here
      rwa [Heap.place_group s, ← Heap.place_group u.shows]
    · rwa [← wired.place_updates u here]
  | drain g ids =>
    obtain ⟨n₀, s, u⟩ := does
    refine .inl ⟨?_, u.tagAt_group s (Heap.sync_of_mem_place mem).1⟩
    by_cases here : a = g
    · subst here
      rw [Heap.place_group u.shows] at mem
      cases mem
    · rwa [← wired.place_updates u here]
  | wait g k =>
    obtain ⟨n₀, ids, s, u, -⟩ := does
    have tag := u.tagAt_group s (Heap.sync_of_mem_place mem).1
    by_cases here : a = g
    · subst here
      rw [Heap.place_group u.shows, List.map_append, List.mem_append, ← Heap.place_group s] at mem
      refine mem.imp (fun before => ⟨before, tag⟩) fun new => ⟨k, rfl, .inr ?_⟩
      exact List.mem_singleton.1 new
    · exact .inl ⟨wired.place_updates u here ▸ mem, tag⟩

end StepLabel

namespace Machine

/-- The turn brings the counter of a wait group to zero: all who wait are queued, and nobody waits any more. -/
structure Drains (m : Machine) (t : Turn) (g : Addr) (v : GroupView) : Prop where
  group : m.heap.Group g v
  drained : ∃ i m₁, m.executed t = some (i, m₁) ∧ m₁.heap.Group g ⟨0, []⟩ ∧
    m₁.control.sched.ready = m.control.sched.ready ++ v.waiters ∧
    ∀ id ∈ v.waiters, ∃ f ∈ m₁.fibers, f.id = id ∧ f.state = .ready

/-- What becomes of a wait group in a turn. -/
inductive Tends (m : Machine) (t : Turn) (g : Addr) : GroupView → Prop
  /-- The same fibers wait. -/
  | keeps {v : GroupView} (n : Int32) : m.heap.Group g v → Tends m t g ⟨n, v.waiters⟩
  /-- The current fiber waits, too. -/
  | joins {v : GroupView} {i : Instr} {m₁ : Machine} : m.heap.Group g v → v.counter ≠ 0 →
    m.executed t = some (i, m₁) → m₁.current.id = m.current.id → m₁.current.state = .blocked →
    Tends m t g ⟨v.counter, v.waiters ++ [m.current.id]⟩
  | drains {v : GroupView} : m.Drains t g v → Tends m t g ⟨0, []⟩
  /-- The wait group is new, and whoever waited at one that was there before goes on waiting. -/
  | new : (∀ v, m.heap.Group g v → ∀ id ∈ v.waiters, ∃ f ∈ (m.turn t).fibers, f.id = id ∧ f.state = .blocked) →
    Tends m t g ⟨0, []⟩

/-- The fiber is blocked, and if anything can wake it, it is the wait group. -/
structure Awaiting (m : Machine) (g : Addr) (id : Nat) : Prop where
  blocked : m.control.sched.HasState id .blocked
  unarmed : id ∉ m.control.sched.timers.map Timer.fiber
  here : ∀ a, id ∈ m.heap.place a → a = g ∧ tagAt m.heap.words a = .waitGroup

section Groups

variable {m m₁ : Machine} {l : StepLabel} {g : Addr} {v : GroupView} {id : Nat} {t : Turn}

/-- The entries of a wait group are those who are parked there. -/
theorem InOrder.group_shows (order : m.InOrder) (wired : Wired m.heap.words)
    (few : m.control.sched.nextId ≤ UInt32.size) (group : m.heap.Group g v) :
    ∃ ids, Shows m.heap.words g (.group v.counter ids) ∧ v.waiters = ids.map Word.fiber ∧
      m.heap.place g = v.waiters := by
  obtain ⟨ids, s, same⟩ := wired.group_shows group
  exact ⟨ids, s, same, by rw [Heap.place_group s, same, order.fiber_eq few s]⟩

theorem InOrder.awaiting (order : m.InOrder) (wired : Wired m.heap.words)
    (few : m.control.sched.nextId ≤ UInt32.size) (group : m.heap.Group g v) (mem : id ∈ v.waiters) :
    m.Awaiting g id := by
  obtain ⟨ids, s, -, place⟩ := order.group_shows wired few group
  have inside : id ∈ m.heap.place g := place ▸ mem
  refine ⟨order.blocked_at inside, fun armed => ?_, fun a mem => ?_⟩
  · cases order.parked.apart none (some g) id armed inside
  · obtain rfl : a = g := Option.some.inj (order.parked.apart (some a) (some g) id mem inside)
    exact ⟨rfl, group.tag⟩

section Instructions

variable (order : m.InOrder) (wired : Wired m.heap.words) (running : m.control.sched.current.state = .running)
  (few : m.control.sched.nextId ≤ UInt32.size) (deed : m.Deed l m₁)

include order few deed

/-- Only those who are parked where they meet are woken. -/
theorem Awaiting.drain (awaiting : m.Awaiting g id) (woken : id ∈ l.woken) :
    ∃ ids, l = .drain g ids ∧ id ∈ ids.map Word.fiber := by
  have heap := deed.heap
  have queued : ∀ {q : Addr} {ws : List Waiter}, Shows m.heap.words q (.queue ws) → id ∉ ws.map Waiter.fiber := by
    intro q ws s mem
    have tag := (awaiting.here q (Heap.place_queue s ▸ mem)).2
    cases s.tagAt.symm.trans tag
  cases l with
  | quiet | spawn | stop | sleep | make | newGroup | count | wait => cases woken
  | drain b ids =>
    obtain ⟨n, s, -⟩ := heap
    have mem : id ∈ m.heap.place b := by
      rw [Heap.place_group s, ← order.fiber_eq few s]
      exact woken
    obtain ⟨rfl, -⟩ := awaiting.here b mem
    exact ⟨ids, rfl, woken⟩
  | act ch a =>
    obtain ⟨c, c', acts⟩ := heap
    have senders := queued acts.before.senders
    have receivers := queued acts.before.receivers
    have step := acts.step
    cases step with
    | store | take | close | parkSender | parkReceiver => cases woken
    | hand v waiting =>
      rw [List.mem_singleton.1 woken, waiting] at receivers
      exact absurd List.mem_cons_self receivers
    | refill items waiting =>
      rw [List.mem_singleton.1 woken, waiting] at senders
      exact absurd List.mem_cons_self senders
    | pass items waiting =>
      rw [List.mem_singleton.1 woken, waiting] at senders
      exact absurd List.mem_cons_self senders

include wired running

theorem Awaiting.stays (awaiting : m.Awaiting g id) (asleep : id ∉ l.woken) : m₁.Awaiting g id := by
  have same := deed.sched.apply
  have other : id ≠ m.control.sched.current.id := by
    rintro rfl
    exact order.not_blocked running awaiting.blocked
  refine ⟨same.hasState.2 (StepLabel.stays_apply order running awaiting.blocked asleep), fun armed => ?_, fun a mem => ?_⟩
  · rw [same.timers] at armed
    exact (StepLabel.timers_apply armed).elim other awaiting.unarmed
  · rcases StepLabel.OnHeap.mem_place wired deed.heap mem with ⟨before, tag⟩ | ⟨k, parks, entry⟩
    · obtain ⟨rfl, group⟩ := awaiting.here a before
      exact ⟨rfl, tag.trans group⟩
    · have small : m.control.sched.current.id < UInt32.size := Nat.lt_of_lt_of_le order.cons.current_lt few
      obtain rfl : k = m.control.sched.current.id := StepLabel.parks_current deed.sched parks
      rw [Nat.toNat_toUInt32_of_lt small, Nat.toNat_toUInt64_of_lt small] at entry
      exact (entry.elim other other).elim

end Instructions

/-- Whoever waits for somebody to go on wakes sleepers only. -/
theorem Awaiting.continues {m' : Machine} (awaiting : m.Awaiting g id) (heap : m'.heap = m.heap)
    (continues : m.control.sched.Continues m'.control.sched) : m'.Awaiting g id := by
  refine ⟨(continues.blocked id awaiting.blocked).resolve_right awaiting.unarmed, fun armed => ?_, heap ▸ awaiting.here⟩
  exact awaiting.unarmed ((continues.timers.map Timer.fiber).subset armed)

theorem InOrder.drains (order : m.InOrder) (few : m.control.sched.nextId ≤ UInt32.size) {ids : List Word} {i : Instr}
    (has : m.executed t = some (i, m₁)) (deed : m.Deed (.drain g ids) m₁) :
    ∃ n, m.Drains t g ⟨n, ids.map Word.fiber⟩ := by
  obtain ⟨n, s, u⟩ := deed.heap
  have sched : (ids.foldl (fun s id => s.wake id.fiber) m.control.sched).Undisturbed m₁.control.sched := deed.sched
  have place : m.heap.place g = ids.map Word.fiber := by rw [Heap.place_group s, order.fiber_eq few s]
  have once : (ids.map Word.fiber).Nodup := place ▸ order.parked.once (some g)
  have blocked : ∀ id ∈ ids.map Word.fiber, m.control.sched.HasState id .blocked := fun id mem =>
    order.blocked_at (place ▸ mem)
  refine ⟨n, s.group, i, m₁, has, u.shows.group, ?_, fun id mem => ?_⟩
  · exact sched.ready.trans (order.cons.foldl_wake_queue once blocked)
  · have ready := order.cons.foldl_wake_ready (blocked id mem) mem
    exact (Scheduler.hasState_iff (by decide)).1 (sched.hasState.2 ready)

variable {code : Code}

/-- Whoever waits goes on waiting, or is released together with the others. -/
theorem Awaiting.turn (awaiting : m.Awaiting g id) (steady : m.Steady code) (t : Turn)
    (few : (m.turn t).control.sched.nextId ≤ UInt32.size) :
    (m.turn t).Awaiting g id ∨ ∃ v, id ∈ v.waiters ∧ m.Drains t g v := by
  have few : m.control.sched.nextId ≤ UInt32.size := Nat.le_trans (steady.nextId_le t) few
  have order := steady.ordered.inOrder few
  rcases steady.turn_cases t with ⟨heap, same⟩ | ⟨i, l, m₁, has, running, deed, heap, continues⟩ | ⟨⟨k, lost⟩, -⟩
  · refine .inl ⟨same.hasState.2 awaiting.blocked, same.timers ▸ awaiting.unarmed, fun a mem => ?_⟩
    have before : id ∈ m.heap.place a ∧ tagAt (m.turn t).heap.words a = tagAt m.heap.words a := by
      rcases heap with drift | ⟨new, drift, queues⟩
      · exact steady.wired.mem_place_drift drift nofun mem
      · exact steady.wired.mem_place_drift drift (fun b inside => Heap.place_queue (queues b inside).1) mem
    exact ⟨(awaiting.here a before.1).1, before.2.trans (awaiting.here a before.1).2⟩
  · by_cases woken : id ∈ l.woken
    · obtain ⟨ids, rfl, mem⟩ := awaiting.drain order few deed woken
      obtain ⟨n, drains⟩ := order.drains few has deed
      exact .inr ⟨_, mem, drains⟩
    · exact .inl ((awaiting.stays order steady.wired running few deed woken).continues heap continues)
  · exact absurd lost (order.not_lost few k)

/-- Along any turns, too. -/
theorem Awaiting.play (awaiting : m.Awaiting g id) (steady : m.Steady code) (later : List Turn)
    (few : (m.play later).control.sched.nextId ≤ UInt32.size) :
    (m.play later).Awaiting g id ∨ ∃ before t after v, later = before ++ t :: after ∧ id ∈ v.waiters ∧
      (m.play before).Drains t g v := by
  induction later generalizing m with
  | nil => exact .inl awaiting
  | cons t later ih =>
    have steady' := steady.turn t
    rcases awaiting.turn steady t (Nat.le_trans (steady'.nextId_le_play later) few) with still | ⟨v, mem, drains⟩
    · refine (ih still steady' few).imp_right ?_
      rintro ⟨before, u, after, v, rfl, mem, drains⟩
      exact ⟨t :: before, u, after, v, rfl, mem, drains⟩
    · exact .inr ⟨[], t, later, v, rfl, mem, drains⟩

theorem Awaiting.fiber (awaiting : m.Awaiting g id) : ∃ f ∈ m.fibers, f.id = id ∧ f.state = .blocked :=
  (Scheduler.hasState_iff (by decide)).1 awaiting.blocked

theorem Steady.tends (steady : m.Steady code) (few : (m.turn t).control.sched.nextId ≤ UInt32.size)
    (group : (m.turn t).heap.Group g v) : m.Tends t g v := by
  have few₀ : m.control.sched.nextId ≤ UInt32.size := Nat.le_trans (steady.nextId_le t) few
  have order := steady.ordered.inOrder few₀
  have wired := steady.wired
  obtain ⟨ids, s, same⟩ := (steady.turn t).wired.group_shows group
  obtain ⟨n, waiters⟩ := v
  obtain rfl : waiters = ids.map Word.fiber := same
  rcases steady.turn_cases t with ⟨heap, -⟩ | ⟨i, l, m₁, has, running, deed, heap, -⟩ | ⟨⟨k, lost⟩, -⟩
  · refine .keeps n (v := ⟨n, ids.map Word.fiber⟩) (Shows.group ?_)
    rcases heap with drift | ⟨new, drift, queues⟩
    · exact wired.group_before drift List.not_mem_nil s
    · refine wired.group_before drift (fun mem => ?_) s
      cases (queues g mem).1.tagAt.symm.trans s.tagAt
  · rw [heap] at s
    cases StepLabel.OnHeap.tends wired deed.heap s with
    | same s₀ => exact .keeps n s₀.group
    | count s₀ => exact .keeps n s₀.group
    | drain s₀ zero none =>
      obtain rfl : n = 0 := zero
      obtain rfl := none
      obtain ⟨_, drains⟩ := order.drains few₀ has deed
      exact .drains drains
    | @wait ids₀ id s₀ waits added =>
      obtain ⟨rfl, parked⟩ : id = m.control.sched.current.id ∧ _ := deed.sched
      have small : m.control.sched.current.id < UInt32.size := Nat.lt_of_lt_of_le order.cons.current_lt few₀
      have entry : Word.fiber m.control.sched.current.id.toUInt64 = m.control.sched.current.id := by
        have value := Nat.toNat_toUInt64_of_lt small
        rw [Word.fiber_of_lt (value.symm ▸ small), value]
      obtain rfl := added
      rw [List.map_append, List.map_singleton, entry]
      exact .joins s₀.group waits has parked.id parked.state
    | new zero none =>
      obtain rfl : n = 0 := zero
      obtain rfl := none
      by_cases drained : ∃ v, m.Drains t g v
      · exact .drains drained.choose_spec
      · refine .new fun v group id mem => ?_
        have awaiting := order.awaiting wired few₀ group mem
        exact ((awaiting.turn steady t few).resolve_right fun ⟨v, _, drains⟩ => drained ⟨v, drains⟩).fiber
  · exact absurd lost (order.not_lost few₀ k)

end Groups

/-- In every state that a decoded program reaches by steps and collections, if it assigns nothing to the outermost
frame, every wait group is in order. As long as ids fit into an entry of a queue, those who wait are different and
blocked, the list changes in three ways only, and whoever waits is released by the turn that brings the counter to
zero, and by no other. -/
theorem wait_groups_in_order {p : Program Datum} {is : List Instr} (decoded : p.instrs = .ok is)
    (inner : ∀ pos sym, Instr.assign pos sym ∈ is → pos.frame ≠ 0) {size : Int} {options : Options}
    {clock : Clock} {sink : Sink} {m : Machine}
    (made : Machine.create size (Code.ofInstrs is) options clock sink = .ok m) (ts : List Turn) :
    (∀ g v, (m.play ts).heap.Group g v → v.InOrder) ∧
    (∀ g, NodeIn (m.play ts).heap.words g → tagAt (m.play ts).heap.words g = .waitGroup →
      ∃ v, (m.play ts).heap.Group g v) ∧
    ((m.play ts).control.sched.nextId ≤ UInt32.size → ∀ g v, (m.play ts).heap.Group g v → v.waiters.Nodup ∧
      ∀ id ∈ v.waiters, ∃ f ∈ (m.play ts).fibers, f.id = id ∧ f.state = .blocked) ∧
    (∀ t, ((m.play ts).turn t).control.sched.nextId ≤ UInt32.size → ∀ g v, ((m.play ts).turn t).heap.Group g v →
      (m.play ts).Tends t g v) ∧
    (∀ later, ((m.play ts).play later).control.sched.nextId ≤ UInt32.size → ∀ g v, (m.play ts).heap.Group g v →
      ∀ id ∈ v.waiters, (∃ f ∈ ((m.play ts).play later).fibers, f.id = id ∧ f.state = .blocked) ∨
        ∃ before t after w, later = before ++ t :: after ∧ id ∈ w.waiters ∧
          ((m.play ts).play before).Drains t g w) := by
  have steady := (create_steady decoded inner made).play ts
  have wired := steady.wired
  refine ⟨fun g v => wired.groupInOrder, fun g node tag => ?_, fun few g v group => ?_,
    fun t few g v group => steady.tends few group, fun later few g v group id mem => ?_⟩
  · obtain ⟨n, ids, s⟩ := wired.groups g node tag
    exact ⟨_, s.group⟩
  · have order := steady.ordered.inOrder few
    obtain ⟨-, -, -, place⟩ := order.group_shows wired few group
    exact ⟨place ▸ order.parked.once (some g), fun id mem => (order.awaiting wired few group mem).fiber⟩
  · have few₀ := Nat.le_trans (steady.nextId_le_play later) few
    have awaiting := (steady.ordered.inOrder few₀).awaiting wired few₀ group mem
    exact (awaiting.play steady later few).imp_left Awaiting.fiber

/-- Waits for the fiber that it starts. -/
def gatherProgram : Program Datum :=
  { version := 1
    records := [{ opcode := "ENTER_SCOPE", value := .null, slots := 1 },
      { opcode := "MAKE_WAITGROUP", value := .null },
      { opcode := "ASSIGN", value := .null, position := [1, 0], sym := "g" },
      { opcode := "LD", value := .null, position := [0, 7], sym := "wgAdd" },
      { opcode := "LD", value := .null, position := [1, 0], sym := "g" }, { opcode := "LDC", value := .int 1 },
      { opcode := "CALL", value := .null, arity := 2 },
      { opcode := "START_GOROUTINE", value := .null, stop := 11 },
      { opcode := "LD", value := .null, position := [0, 8], sym := "wgDone" },
      { opcode := "LD", value := .null, position := [1, 0], sym := "g" },
      { opcode := "CALL", value := .null, arity := 1 }, { opcode := "STOP_GOROUTINE", value := .null },
      { opcode := "LD", value := .null, position := [0, 9], sym := "wgWait" },
      { opcode := "LD", value := .null, position := [1, 0], sym := "g" },
      { opcode := "CALL", value := .null, arity := 1 }, { opcode := "DONE", value := .null }] }

def gatherInstrs : List Instr :=
  [.enterScope 1, .makeWaitGroup, .assign ⟨1, 0⟩ "g", .load ⟨0, 7⟩ "wgAdd", .load ⟨1, 0⟩ "g",
    .loadConst (.int .int64 1), .call 2, .startFiber 11, .load ⟨0, 8⟩ "wgDone", .load ⟨1, 0⟩ "g", .call 1, .stopFiber,
    .load ⟨0, 9⟩ "wgWait", .load ⟨1, 0⟩ "g", .call 1, .done]

/-- What is at an address, if ids fit into an entry of a queue. -/
def gathered (m : Machine) (g : Addr) : Option GroupView :=
  if m.control.sched.nextId ≤ UInt32.size ∧ NodeIn m.heap.words g ∧ tagAt m.heap.words g = .waitGroup then
    match Heap.viewGroup g m.heap with
    | .ok v _ => some v
    | .error _ _ => none
  else none

theorem group_of_gathered {m : Machine} {g : Addr} {v : GroupView} (has : m.gathered g = some v) :
    m.control.sched.nextId ≤ UInt32.size ∧ NodeIn m.heap.words g ∧ tagAt m.heap.words g = .waitGroup ∧
      ∀ w, m.heap.Group g w → w = v := by
  unfold gathered at has
  split at has
  · next there =>
    refine ⟨there.1, there.2.1, there.2.2, fun w group => ?_⟩
    rw [group.view] at has
    exact Option.some.inj has
  · cases has

/-- The machine after a step that parks the current fiber, if another one is ready and nobody sleeps. -/
def handedOver (m : Machine) : Option Machine :=
  match m.executed (.step false) with
  | some (_, m₁) =>
    if m₁.control.result = none ∧ m₁.current.state ≠ .running ∧ m₁.control.sched.timers = [] ∧
        m₁.control.sched.ready ≠ [] then some (m₁.withSched m₁.control.sched.resume)
    else none
  | none => none

theorem turn_of_handedOver {m m' : Machine} (parks : m.handedOver = some m') : m.turn (.step false) = m' := by
  unfold handedOver at parks
  split at parks
  · next i m₁ has =>
    split at parks
    · next gives =>
      obtain ⟨more, idle, quiet, some⟩ := gives
      cases parks
      have leaves : m.Leaves m₁ := ⟨⟨i, has⟩, more⟩
      have decided : m₁.control.sched.reschedule false = .ok () m₁.control.sched.resume := by
        rw [Scheduler.reschedule_of_blocked idle, Scheduler.next, Scheduler.poll, quiet, List.isEmpty_nil, if_pos rfl,
          Scheduler.awaitReady, if_neg (by simpa using some)]
      exact turn_of_run (t := .step false) (leaves.step_ok decided)
    · cases parks
  · cases parks

/-- The first fiber waits, and goes on when the other one is done. -/
theorem wait_groups_in_order_gather : ∃ m, gatherProgram.instrs = .ok gatherInstrs ∧
    (∀ pos sym, Instr.assign pos sym ∈ gatherInstrs → pos.frame ≠ 0) ∧
    Machine.create 480 (Code.ofInstrs gatherInstrs) {} = .ok m ∧
    (m.play (List.replicate 10 (.step false) ++ [.step false])).heap.Group 304 ⟨1, [0]⟩ ∧
    ∃ before t after w, List.replicate 3 (.step false) = before ++ t :: after ∧ 0 ∈ w.waiters ∧
      ((m.play (List.replicate 10 (.step false) ++ [.step false])).play before).Drains t 304 w := by
  have inner : ∀ pos sym, Instr.assign pos sym ∈ gatherInstrs → pos.frame ≠ 0 := by
    intro pos sym mem
    have frame : pos.frame = 1 := by
      simp [gatherInstrs] at mem
      rw [mem.1]
    rw [frame]
    decide
  have decoded : gatherProgram.instrs = .ok gatherInstrs := rfl
  obtain ⟨m, made, parks⟩ : ∃ m, Machine.create 480 (Code.ofInstrs gatherInstrs) {} = .ok m ∧
      (m.play (List.replicate 10 (.step false))).handedOver.any (fun m' => m'.gathered 304 = some ⟨1, [0]⟩ ∧
        (∀ f ∈ (m'.play (List.replicate 3 (.step false))).fibers, f.state ≠ .blocked) ∧
        (m'.play (List.replicate 3 (.step false))).control.sched.nextId ≤ UInt32.size) = true :=
    ⟨_, Machine.create_listed rfl, by decide +kernel⟩
  obtain ⟨m', handed, state⟩ := (Option.any_eq_true _ _).1 parks
  obtain ⟨waits, goes, few⟩ := of_decide_eq_true state
  obtain ⟨-, views, -, -, waiting⟩ :=
    wait_groups_in_order decoded inner made (List.replicate 10 (.step false) ++ [.step false])
  have parked : m.play (List.replicate 10 (.step false) ++ [.step false]) = m' := by
    rw [play, List.foldl_append]
    exact turn_of_handedOver handed
  rw [parked] at views waiting
  obtain ⟨-, node, tag, same⟩ := group_of_gathered waits
  obtain ⟨v, group⟩ := views 304 node tag
  obtain rfl := same v group
  refine ⟨m, decoded, inner, made, parked ▸ group, ?_⟩
  rw [parked]
  refine (waiting _ few 304 _ group 0 List.mem_cons_self).resolve_left ?_
  rintro ⟨f, mem, -, blocked⟩
  exact goes f mem blocked

end Machine

end FiberVm
