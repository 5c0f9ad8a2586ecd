import FiberVm.Proofs.Machine.Channels
import FiberVm.Proofs.Machine.Orderly

/-!
# Where fibers are parked

An entry of a wait queue or of a wait group is the id of a fiber that is blocked, as long as ids fit into an
entry, and no fiber has two entries or an entry and a timer. So the fiber that an instruction wakes is always
found and is always blocked, and nobody is given a value who does not wait for one.
-/

set_option autoImplicit false

namespace FiberVm

open Heap (Shows Drift Updates Wired Plays Acts NodeIn SameNode IsSync tagAt)

namespace Heap

/-- Reads the ids of those who are parked at a node. -/
def parkedAt (a : Addr) : HeapM (List Nat) := do
  let tag ← tagOf a
  if tag = .waitQueue then return (← waiters a).map Waiter.fiber
  else if tag = .waitGroup then return (← groupWaiters a).map UInt64.toNat
  else return []

/-- Those who are parked at the node at `a`. -/
def place (h : Heap) (a : Addr) : List Nat :=
  if NodeIn h.words a then
    match parkedAt a h with
    | .ok ids _ => ids
    | .error _ _ => []
  else []

section Place

variable {h h' : Heap} {a : Addr}

theorem place_queue {ws : List Waiter} (s : Shows h.words a (.queue ws)) :
    h.place a = ws.map Waiter.fiber := by
  have tag : (Node.queue ws).tag = .waitQueue := rfl
  rw [place, if_pos s.node, parkedAt, bind_of_ok (tagOf_shows s), if_pos tag, bind_of_ok (waiters_shows s)]
  rfl

theorem place_group {n : Int32} {ids : List Word} (s : Shows h.words a (.group n ids)) :
    h.place a = ids.map UInt64.toNat := by
  have tag : (Node.group n ids).tag = .waitGroup := rfl
  have other : (Node.group n ids).tag ≠ .waitQueue := nofun
  rw [place, if_pos s.node, parkedAt, bind_of_ok (tagOf_shows s), if_neg other, if_pos tag,
    bind_of_ok (groupWaiters_shows s)]
  rfl

theorem place_eq_nil (queue : tagAt h.words a ≠ .waitQueue) (group : tagAt h.words a ≠ .waitGroup) :
    h.place a = [] := by
  unfold place
  split
  · next node =>
    rw [parkedAt, bind_of_ok (tagOf_ok node), if_neg queue, if_neg group]
    rfl
  · rfl

theorem place_of_not_node (none : ¬ NodeIn h.words a) : h.place a = [] := if_neg none

theorem Wired.place_same (wired : Wired h.words) (size : h'.words.size = h.words.size)
    (same : NodeIn h.words a → SameNode h.words h'.words a) : h'.place a = h.place a := by
  by_cases node : NodeIn h.words a
  · have same := same node
    by_cases queue : tagAt h.words a = .waitQueue
    · obtain ⟨ws, s⟩ := wired.queues a node queue
      rw [place_queue s, place_queue (s.of_same same size)]
    · by_cases group : tagAt h.words a = .waitGroup
      · obtain ⟨n, ids, s⟩ := wired.groups a node group
        rw [place_group s, place_group (s.of_same same size)]
      · rw [place_eq_nil queue group, place_eq_nil (same.tagAt ▸ queue) (same.tagAt ▸ group)]
  · rw [place_of_not_node node, place_of_not_node (by rwa [NodeIn, size])]

theorem Wired.place_drift {new : List Addr} (wired : Wired h.words) (d : Drift new h h')
    (empty : ∀ a ∈ new, h'.place a = []) (a : Addr) : (h'.place a).Subperm (h.place a) := by
  by_cases mem : a ∈ new
  · rw [empty a mem]
    exact List.nil_subperm
  · by_cases sync : IsSync (tagAt h'.words a)
    · rw [wired.place_same d.size fun node => d.sync a node mem sync]
    · rw [place_eq_nil (fun queue => sync (.inr (.inl queue))) fun group => sync (.inr (.inr group))]
      exact List.nil_subperm

theorem Plays.place {c : Chan} (p : Plays h.words a c) : h.place a = [] :=
  place_eq_nil (by rw [p.tagAt]; decide) (by rw [p.tagAt]; decide)

section Acts

variable {ch : Addr} {act : Act} {c c' : Chan} (wired : Wired h.words) (acts : Acts h h' ch act c c')

include wired acts

/-- An act changes the queues of one channel only. -/
theorem Wired.place_acts (other : a ∉ c.queues) : h'.place a = h.place a := by
  by_cases here : a = ch
  · subst here
    rw [acts.before.place, acts.after.place]
  · exact wired.place_same acts.size fun node => acts.others a node here other

theorem Wired.place_senders (receiving : c'.receiving = c.receiving) (other : a ≠ c.senders) :
    h'.place a = h.place a := by
  by_cases here : a = c.receivers
  · have after := place_queue acts.after.receivers
    rw [(List.cons.inj (List.cons.inj acts.queues).2).1, receiving] at after
    rw [here, after, place_queue acts.before.receivers]
  · exact wired.place_acts acts (by simp [Chan.queues, here, other])

theorem Wired.place_receivers (sending : c'.sending = c.sending) (other : a ≠ c.receivers) :
    h'.place a = h.place a := by
  by_cases here : a = c.senders
  · have after := place_queue acts.after.senders
    rw [(List.cons.inj acts.queues).1, sending] at after
    rw [here, after, place_queue acts.before.senders]
  · exact wired.place_acts acts (by simp [Chan.queues, here, other])

theorem Wired.place_both (sending : c'.sending = c.sending) (receiving : c'.receiving = c.receiving) (a : Addr) :
    (h'.place a).Subperm (h.place a) := by
  by_cases here : a = c.senders
  · rw [wired.place_receivers acts sending (here ▸ wired.distinct ch c acts.before)]
  · rw [wired.place_senders acts receiving here]

end Acts

theorem Wired.place_updates {g : Addr} {n : Node} (wired : Wired h.words) (u : Updates h h' g n) (other : a ≠ g) :
    h'.place a = h.place a := wired.place_same u.size fun node => u.others a node other

end Place

end Heap

theorem Nat.toNat_toUInt32_of_lt {id : Nat} (small : id < UInt32.size) : id.toUInt32.toNat = id :=
  Nat.mod_eq_of_lt small

theorem Nat.toNat_toUInt64_of_lt {id : Nat} (small : id < UInt32.size) : id.toUInt64.toNat = id :=
  Nat.mod_eq_of_lt (Nat.lt_trans small (by decide))

/-- Entries of a wait group are read as signed numbers. -/
theorem Word.toInt_of_lt {w : Word} (small : w.toNat < UInt32.size) : w.toInt64.toInt = w.toNat := by
  unfold UInt32.size at small
  exact BitVec.toInt_eq_toNat_of_lt (show 2 * w.toNat < 2 ^ 64 by omega)

theorem Word.fiber_of_lt {w : Word} (small : w.toNat < UInt32.size) : Word.fiber w = w.toNat := by
  rw [Word.fiber, Word.toInt_of_lt small]
  rfl

namespace Machine

/-- The fibers and the places where they are parked agree. -/
def InOrder (m : Machine) : Prop := m.control.sched.InOrder m.heap.place

namespace InOrder

variable {m m' : Machine}

theorem blocked_at (order : m.InOrder) {a : Addr} {id : Nat} (mem : id ∈ m.heap.place a) :
    m.control.sched.HasState id .blocked := order.parked.blocked (some a) id mem

/-- Entries of a wait group are ids. -/
theorem fiber_eq (order : m.InOrder) (few : m.control.sched.nextId ≤ UInt32.size) {g : Addr} {n : Int32} {ids : List Word}
    (s : Shows m.heap.words g (.group n ids)) : ids.map Word.fiber = ids.map UInt64.toNat := by
  refine List.map_congr_left fun id mem => Word.fiber_of_lt ?_
  have blocked := order.blocked_at (Heap.place_group s ▸ List.mem_map_of_mem mem : id.toNat ∈ m.heap.place g)
  exact Nat.lt_of_lt_of_le (order.cons.hasState_lt blocked) few

section Instructions

variable (order : m.InOrder) (wired : Wired m.heap.words) (running : m.control.sched.current.state = .running)
  (few : m.control.sched.nextId ≤ UInt32.size)

include order wired running few

theorem act {ch : Addr} {a : Act} {c c' : Chan} (acts : Acts m.heap m'.heap ch a c c')
    (sched : (StepLabel.act ch a).OnSched m.control.sched m'.control.sched) : m'.InOrder := by
  have small : m.control.sched.current.id < UInt32.size := Nat.lt_of_lt_of_le order.cons.current_lt few
  have senders := Heap.place_queue acts.before.senders
  have receivers := Heap.place_queue acts.before.receivers
  have senders' := Heap.place_queue acts.after.senders
  have receivers' := Heap.place_queue acts.after.receivers
  have step := acts.step
  cases step with
  | store | take | close => exact (order.fewer (wired.place_both acts rfl rfl)).undisturbed sched
  | hand v waiting =>
    rw [waiting, List.map_cons, ← receivers'] at receivers
    exact ((order.deliver _ v).wake receivers fun b => wired.place_receivers acts rfl).undisturbed sched
  | refill items waiting =>
    rw [waiting, List.map_cons, ← senders'] at senders
    exact (order.wake senders fun b => wired.place_senders acts rfl).undisturbed sched
  | pass none waiting =>
    rw [waiting, List.map_cons, ← senders'] at senders
    exact (order.wake senders fun b => wired.place_senders acts rfl).undisturbed sched
  | parkSender id v none full =>
    obtain ⟨rfl, sched⟩ := sched
    have after : m'.heap.place c.senders = _ := senders'
    rw [List.map_append, ← senders, List.map_singleton, Nat.toNat_toUInt32_of_lt small] at after
    exact (order.park running after fun b => wired.place_senders acts rfl).undisturbed sched
  | parkReceiver id none none' =>
    obtain ⟨rfl, sched⟩ := sched
    have after : m'.heap.place c.receivers = _ := receivers'
    rw [List.map_append, ← receivers, List.map_singleton, Nat.toNat_toUInt32_of_lt small] at after
    exact (order.park running after fun b => wired.place_receivers acts rfl).undisturbed sched

theorem deed {l : StepLabel} (deed : m.Deed l m') : m'.InOrder := by
  have heap := deed.heap
  have sched := deed.sched
  have small : m.control.sched.current.id < UInt32.size := Nat.lt_of_lt_of_le order.cons.current_lt few
  cases l with
  | quiet => exact (order.fewer (wired.place_drift heap nofun)).undisturbed sched
  | spawn pc env => exact ((order.fewer (wired.place_drift heap nofun)).spawn pc env).undisturbed sched
  | stop => exact (Scheduler.InOrder.terminate (order.fewer (wired.place_drift heap nofun)) running).undisturbed sched
  | sleep deadline =>
    exact (Scheduler.InOrder.doze (order.fewer (wired.place_drift heap nofun)) running deadline).undisturbed sched
  | make capacity ch s r =>
    refine (order.fewer (wired.place_drift heap.drift ?_)).undisturbed sched
    have made : Plays m'.heap.words ch ⟨capacity, false, s, r, [], [], []⟩ :=
      ⟨heap.channel, heap.senders, heap.receivers⟩
    intro a mem
    simp only [List.mem_cons, List.not_mem_nil, or_false] at mem
    rcases mem with rfl | rfl | rfl
    · exact Heap.place_queue heap.senders
    · exact Heap.place_queue heap.receivers
    · exact made.place
  | newGroup g =>
    refine (order.fewer (wired.place_drift heap.1 ?_)).undisturbed sched
    intro a mem
    rw [List.mem_singleton.1 mem]
    exact Heap.place_group heap.2.1
  | act ch a =>
    obtain ⟨c, c', acts⟩ := heap
    exact order.act wired running few acts sched
  | count g =>
    obtain ⟨n, n', ids, s, u, -⟩ := heap
    refine (order.fewer fun a => ?_).undisturbed sched
    by_cases here : a = g
    · rw [here, Heap.place_group s, Heap.place_group u.shows]
    · rw [wired.place_updates u here]
  | drain g ids =>
    obtain ⟨n, s, u⟩ := heap
    refine (order.release ids Word.fiber _ (some g) ?_ fun q ne => ?_).undisturbed sched
    · show m.heap.place g = ids.map Word.fiber ++ m'.heap.place g
      rw [Heap.place_group s, Heap.place_group u.shows, order.fiber_eq few s, List.map_nil, List.append_nil]
    · cases q with
      | none => rfl
      | some b => exact wired.place_updates u fun eq => ne (congrArg some eq)
  | wait g id =>
    obtain ⟨n, ids, s, u, -⟩ := heap
    obtain ⟨rfl, sched⟩ := sched
    have after := Heap.place_group u.shows
    rw [List.map_append, ← Heap.place_group s, List.map_singleton, Nat.toNat_toUInt64_of_lt small] at after
    exact (order.park running after fun b => wired.place_updates u).undisturbed sched

end Instructions

end InOrder

end Machine

end FiberVm
