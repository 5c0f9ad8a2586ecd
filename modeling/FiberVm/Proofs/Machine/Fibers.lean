import FiberVm.Proofs.Machine.Census
import FiberVm.Proofs.Machine.Parking

/-!
# Fibers in every state of a run

As long as ids fit into an entry of a queue, one fiber runs, the queue holds those who are ready, and those
who are parked are blocked, each in one place. The table holds those who have been started and have not
ended. So nobody is lost, and a turn changes the fibers that are not current in two ways only: it wakes some
of those who are parked, and a send pushes its value for the one that has waited longest.
-/

set_option autoImplicit false

namespace FiberVm

open Heap (Shows Drift Wired Plays Acts NodeIn tagAt)

namespace Scheduler

section Others

variable {s : Scheduler}

theorem isLive_of_hasState {id : Nat} {state : FiberState} (is : s.HasState id state) (alive : state ≠ .terminated) :
    s.isLive id = true := by
  rcases is with ⟨own, rfl⟩ | ⟨f, mem, own, -⟩
  · exact isLive_iff.2 (.inl ⟨own, alive⟩)
  · exact isLive_iff.2 (.inr ⟨f, mem, own⟩)

theorem mem_others_of_ne {f : Fiber} (mem : f ∈ s.live) (foreign : f.id ≠ s.current.id) : f ∈ s.others :=
  (mem_live.1 mem).resolve_left fun own => foreign (congrArg Fiber.id own.1)

theorem resting_mem_wake {f : Fiber} (mem : f ∈ s.others) (id : Nat) :
    ∃ g ∈ (s.wake id).others, g.resting = f.resting := by
  rcases s.wake_cases id with same | ⟨-, -, same⟩ | ⟨-, same⟩ <;> rw [same]
  · exact ⟨f, mem, rfl⟩
  · exact ⟨f, mem, rfl⟩
  · refine ⟨_, List.mem_map_of_mem mem, ?_⟩
    split <;> rfl

theorem resting_mem_foldl_wake {α : Type} {f : Fiber} (mem : f ∈ s.others) (ids : List α) (k : α → Nat) :
    ∃ g ∈ (ids.foldl (fun s id => s.wake (k id)) s).others, g.resting = f.resting := by
  induction ids generalizing s f with
  | nil => exact ⟨f, mem, rfl⟩
  | cons x ids ih =>
    obtain ⟨g, inside, same⟩ := resting_mem_wake mem (k x)
    obtain ⟨g', inside', same'⟩ := ih inside
    exact ⟨g', inside', same'.trans same⟩

end Others

end Scheduler

namespace StepLabel

/-- Those who are woken by an instruction. -/
def woken : StepLabel → List Nat
  | act _ (.hand _ w) | act _ (.refill _ w) | act _ (.pass w) => [w.fiber]
  | drain _ ids => ids.map Word.fiber
  | _ => []

variable {s : Scheduler} {l : StepLabel}

/-- Whoever is not woken stays blocked. -/
theorem stays_apply {W : Addr → List Nat} (order : s.InOrder W) (running : s.current.state = .running) {id : Nat}
    (blocked : s.HasState id .blocked) (other : id ∉ l.woken) : (l.apply s).HasState id .blocked := by
  have ne : ∀ {k}, k ∈ l.woken → id ≠ k := by
    rintro k mem rfl
    exact other mem
  cases l with
  | quiet | make | newGroup | count => exact blocked
  | spawn pc env =>
    rcases blocked with own | ⟨f, mem, is⟩
    · exact .inl own
    · exact .inr ⟨f, Scheduler.mem_insertFiber.2 (.inr mem), is⟩
  | stop | sleep | wait => exact order.stays_stop running blocked _ _
  | drain g ids => exact (Scheduler.hasState_foldl_wake ids _ s other).2 blocked
  | act ch a =>
    cases a with
    | store | take | close => exact blocked
    | parkSender | parkReceiver => exact order.stays_stop running blocked _ _
    | refill v w => exact (Scheduler.hasState_wake_of_ne (ne List.mem_cons_self)).2 blocked
    | pass w => exact (Scheduler.hasState_wake_of_ne (ne List.mem_cons_self)).2 blocked
    | hand v w =>
      refine (Scheduler.hasState_wake_of_ne (ne List.mem_cons_self)).2 ?_
      exact (Scheduler.hasState_deliver s v).2 blocked

theorem timers_apply {id : Nat} (mem : id ∈ (l.apply s).timers.map Timer.fiber) :
    id = s.current.id ∨ id ∈ s.timers.map Timer.fiber := by
  cases l with
  | quiet | make | newGroup | count | spawn | stop | wait => exact .inr mem
  | sleep deadline => exact List.mem_cons.1 (((Scheduler.perm_arm _ _).map Timer.fiber).mem_iff.1 mem)
  | drain g ids => exact .inr (Scheduler.timers_foldl_wake ids Word.fiber s ▸ mem)
  | act ch a =>
    refine .inr ?_
    cases a with
    | store | take | close | parkSender | parkReceiver => exact mem
    | refill v w => exact s.wake_timers w.fiber ▸ mem
    | pass w => exact s.wake_timers w.fiber ▸ mem
    | hand v w =>
      have same := ((s.deliver w.fiber v).wake_timers w.fiber).trans (s.timers_deliver w.fiber v)
      exact same ▸ mem

/-- The fiber that a value is handed to. -/
def HandsTo (l : StepLabel) (v : Addr) (id : Nat) : Prop := ∃ ch w, l = .act ch (.hand v w) ∧ w.fiber = id

theorem HandsTo.unique {v v' : Addr} {id : Nat} (hands : l.HandsTo v id) (hands' : l.HandsTo v' id) : v = v' := by
  obtain ⟨ch, w, rfl, -⟩ := hands
  obtain ⟨ch', w', same, -⟩ := hands'
  cases same
  rfl

/-- Registers of the other fibers stay as they are, except that a value is pushed for the one that it is
handed to. -/
theorem others_apply {f : Fiber} (mem : f ∈ s.others) (foreign : f.id ≠ s.current.id) :
    ∃ g ∈ (l.apply s).others, (g.resting = f.resting ∧ ∀ v, ¬ l.HandsTo v f.id) ∨
      ∃ v, l.HandsTo v f.id ∧ g.resting = (f.push v).resting := by
  have kept : ∀ {s₁ : Scheduler}, (∀ ch v w, l ≠ .act ch (.hand v w)) → (∃ g ∈ s₁.others, g.resting = f.resting) →
      ∃ g ∈ s₁.others, (g.resting = f.resting ∧ ∀ v, ¬ l.HandsTo v f.id) ∨
        ∃ v, l.HandsTo v f.id ∧ g.resting = (f.push v).resting :=
    fun other ⟨g, mem, same⟩ => ⟨g, mem, .inl ⟨same, fun v ⟨ch, w, hand, _⟩ => other ch v w hand⟩⟩
  cases l with
  | quiet | make | newGroup | count | stop | sleep | wait => exact kept nofun ⟨f, mem, rfl⟩
  | spawn pc env => exact kept nofun ⟨f, Scheduler.mem_insertFiber.2 (.inr mem), rfl⟩
  | drain g ids => exact kept nofun (Scheduler.resting_mem_foldl_wake mem ids Word.fiber)
  | act ch a =>
    cases a with
    | store | take | close | parkSender | parkReceiver => exact kept nofun ⟨f, mem, rfl⟩
    | refill v w => exact kept nofun (Scheduler.resting_mem_wake mem w.fiber)
    | pass w => exact kept nofun (Scheduler.resting_mem_wake mem w.fiber)
    | hand v w =>
      have pushed : (if f.id = w.fiber then f.push v else f) ∈ (s.deliver w.fiber v).others := by
        by_cases own : s.current.id = w.fiber
        · rw [Scheduler.deliver, if_pos own, (Scheduler.Undisturbed.deliverSaved s v).others, if_neg (own ▸ foreign)]
          exact mem
        · rw [Scheduler.deliver, if_neg own]
          exact List.mem_map_of_mem mem
      obtain ⟨g, inside, same⟩ := Scheduler.resting_mem_wake pushed w.fiber
      refine ⟨g, inside, ?_⟩
      split at same
      · next waits => exact .inr ⟨v, ⟨ch, w, rfl, waits.symm⟩, same⟩
      · next other =>
        refine .inl ⟨same, ?_⟩
        rintro x ⟨ch', w', hand, waits⟩
        cases hand
        exact other waits.symm

end StepLabel

namespace Machine

section Turns

variable {q : Terms} {w : World} {m m' : Machine} {t : Turn} {l : StepLabel} {i : Instr}

theorem Goes.keeps_fibers {canceled : Bool} (goes : m.Goes canceled m') (cons : m.control.sched.Consistent) :
    m.control.sched.Continues m'.control.sched := by
  cases goes with
  | halts => exact .refl _
  | resumes _ run => exact cons.continues_of_ok run

theorem Goes.continues {canceled : Bool} (goes : m.Goes canceled m') (order : m.InOrder) :
    m'.InOrder ∧ m.control.sched.Continues m'.control.sched := by
  refine ⟨?_, goes.keeps_fibers order.cons⟩
  cases goes with
  | halts => exact order
  | resumes _ run => exact ((Scheduler.InOrder.kept _).reschedule order run).1

/-- What one turn preserves. -/
theorem Paired.fibers {c : Census} (p : m.Paired q w m) (wired : Wired m.heap.words) (outcome : m.Outcome t m')
    (before : c.started.length ≤ UInt32.size → m.control.failed = none → m.InOrder ∧ c.Counts m.control.sched)
    (few : (c.enter m t).started.length ≤ UInt32.size) (fine : m'.control.failed = none) :
    m'.InOrder ∧ (c.enter m t).Counts m'.control.sched := by
  have before := before (Nat.le_trans (c.length_enter m t) few)
  cases outcome with
  | rests drift control none =>
    rw [control] at fine
    obtain ⟨order, counts⟩ := before fine
    rw [Census.enter, m.executed_of_rests none, InOrder, control]
    exact ⟨order.fewer (wired.place_drift drift nofun), counts⟩
  | goes next run deed fits goes =>
    obtain ⟨order, counts⟩ := before next.1
    have running := p.running next.1 next.2.1
    have small : m.control.sched.nextId ≤ UInt32.size := counts.length ▸ Nat.le_trans (c.length_enter m _) few
    rw [Census.enter, m.executed_of_executes _ next run]
    have counts₁ := counts.deed order.cons running deed fits
    obtain ⟨order', continues⟩ := goes.continues (order.deed wired running small deed)
    exact ⟨order', counts₁.of_same continues.nextId fun _ => continues.isLive⟩
  | fails _ _ failed => cases fine.symm.trans failed

end Turns

end Machine

def Heap.nodes (h : Heap) : List Addr := (List.range (h.words.size / nodeSize)).map fun k => (nodeSize * k).toUInt32

namespace Machine

/-- Those who sleep or are parked at a node, by id. -/
def parked (m : Machine) : List Nat :=
  m.control.sched.timers.map Timer.fiber ++ m.heap.nodes.flatMap m.heap.place

/-- One fiber runs, those who are ready are queued, and those who are parked are blocked, in one place each. -/
structure FibersInOrder (m : Machine) : Prop where
  running : m.fibers.filter (fun f => f.state = .running) = [m.current]
  queue_once : m.control.sched.ready.Nodup
  queue : ∀ id, id ∈ m.control.sched.ready ↔ ∃ f ∈ m.fibers, f.id = id ∧ f.state = .ready
  distinct : (m.fibers.map Fiber.id).Nodup
  below : ∀ f ∈ m.fibers, f.id < m.control.sched.nextId
  sleeping : ∀ t ∈ m.control.sched.timers, ∃ f ∈ m.fibers, f.id = t.fiber ∧ f.state = .blocked
  parked_once : m.parked.Nodup
  parked : ∀ id ∈ m.parked, ∃ f ∈ m.fibers, f.id = id ∧ f.state = .blocked

/-- The turn sends `v`, and of those who wait for a value there the fiber `id` has waited longest. -/
def Hands (m : Machine) (t : Turn) (v : Addr) (id : Nat) : Prop :=
  (m.executed t).map Prod.fst = some .send ∧ ∃ ch rest w, m.current.operands = v :: ch :: rest ∧
    m.heap.nextReceiver ch = some w ∧ w.fiber = id

/-- What a turn does to a fiber that is not current. -/
structure Spares (m : Machine) (t : Turn) (f g : Fiber) : Prop where
  id : g.id = f.id
  /-- A value is pushed for the fiber that waits for it. -/
  pushed : ∀ v, m.Hands t v f.id → f.state = .blocked ∧ g.resting = (f.push v).resting
  kept : (∀ v, ¬ m.Hands t v f.id) → g.resting = f.resting
  /-- Only those who are parked are woken. -/
  woken : f.state = .blocked → g.state ≠ .blocked → f.id ∈ m.parked

/-- What a turn does to those who are not current. -/
structure TurnInOrder (m : Machine) (t : Turn) : Prop where
  /-- Whoever is to be woken is found. -/
  found : ∀ f m' k, perform t m = .error (.fault f) m' → f.cause ≠ .unknownFiber k
  /-- Those who are woken by an instruction are blocked, and they are woken once. -/
  woken : ∀ i m', m.executed t = some (i, m') → ∃ l : StepLabel, m.Deed l m' ∧ l.Of m i m' ∧ l.woken.Nodup ∧
    ∀ id ∈ l.woken, ∃ f ∈ m.fibers, f.id = id ∧ f.state = .blocked
  spares : (m.turn t).control.failed = none → ∀ f ∈ m.fibers, f.id ≠ m.current.id →
    ∃ g ∈ (m.turn t).fibers, m.Spares t f g

end Machine

theorem Heap.nodup_nodes {h : Heap} (small : h.words.size ≤ maxWords) : h.nodes.Nodup := by
  refine List.Nodup.map_on (fun j hj k hk same => ?_) List.nodup_range
  have lt := List.mem_range.1 hj
  have lt' := List.mem_range.1 hk
  have same : nodeSize * j % 2 ^ 32 = nodeSize * k % 2 ^ 32 := congrArg UInt32.toNat same
  unfold nodeSize at *
  unfold maxWords at small
  omega

theorem Heap.mem_nodes {h : Heap} {a : Addr} (node : NodeIn h.words a) : a ∈ h.nodes := by
  obtain ⟨aligned, inside⟩ := node
  unfold nodeSize at aligned inside
  refine List.mem_map.2 ⟨a.toNat / nodeSize, List.mem_range.2 ?_, ?_⟩
  · unfold nodeSize
    omega
  · have lt := a.toNat_lt
    refine UInt32.toNat.inj (show nodeSize * (a.toNat / nodeSize) % 2 ^ 32 = a.toNat from ?_)
    unfold nodeSize
    omega

theorem Scheduler.hasState_iff {s : Scheduler} {id : Nat} {state : FiberState} (alive : state ≠ .terminated) :
    s.HasState id state ↔ ∃ f ∈ s.live, f.id = id ∧ f.state = state := by
  simp only [mem_live]
  constructor
  · rintro (⟨own, rfl⟩ | ⟨f, mem, is⟩)
    · exact ⟨_, .inl ⟨rfl, alive⟩, own, rfl⟩
    · exact ⟨f, .inr mem, is⟩
  · rintro ⟨f, ⟨rfl, -⟩ | mem, is⟩
    · exact .inl is
    · exact .inr ⟨f, mem, is⟩

namespace Machine.InOrder

variable {m m' : Machine} {l : StepLabel}

theorem parked_cases (order : m.InOrder) {id : Nat} (mem : id ∈ m.parked) : m.control.sched.HasState id .blocked := by
  rcases List.mem_append.1 mem with sleeps | waits
  · exact order.parked.blocked none id sleeps
  · obtain ⟨a, -, inside⟩ := List.mem_flatMap.1 waits
    exact order.blocked_at inside

theorem fibersInOrder (order : m.InOrder) (running : m.control.sched.current.state = .running)
    (small : m.heap.words.size ≤ Heap.maxWords) : m.FibersInOrder := by
  have blocked : ∀ {id}, m.control.sched.HasState id .blocked → ∃ f ∈ m.fibers, f.id = id ∧ f.state = .blocked :=
    (Scheduler.hasState_iff (by decide)).1
  have table := m.control.sched.perm_live
  rw [if_neg (by rw [running]; decide)] at table
  refine ⟨?_, order.cons.once, fun id => ?_, order.cons.nodup_live, fun f mem => ?_, fun t mem => ?_, ?_,
    fun id mem => blocked (order.parked_cases mem)⟩
  · have alone : m.control.sched.others.filter (fun f => f.state = .running) = [] := by
      refine List.filter_eq_nil_iff.2 fun f mem => ?_
      rcases order.waiting f mem with is | is <;> simp [is]
    refine List.perm_singleton.1 ((table.filter _).trans (.of_eq ?_))
    rw [List.singleton_append, List.filter_cons_of_pos (by simpa using running), alone]
    rfl
  · exact ⟨fun mem => (Scheduler.hasState_iff (by decide)).1 (order.cons.queued id mem), fun is =>
      order.queue id ((Scheduler.hasState_iff (by decide)).2 is)⟩
  · rcases Scheduler.mem_live.1 mem with ⟨rfl, -⟩ | mem
    · exact order.cons.current_lt
    · exact order.cons.others_lt f mem
  · exact blocked (order.parked.blocked none _ (List.mem_map_of_mem mem))
  · refine List.nodup_append.2 ⟨order.parked.once none, List.nodup_flatMap.2 ⟨fun a _ => order.parked.once (some a), ?_⟩,
      ?_⟩
    · refine (Heap.nodup_nodes small).imp fun ne id mem mem' => ne ?_
      exact Option.some.inj (order.parked.apart (some _) (some _) id mem mem')
    · rintro id sleeps k waits rfl
      obtain ⟨a, -, inside⟩ := List.mem_flatMap.1 waits
      cases order.parked.apart none (some a) id sleeps inside

theorem mem_parked {a : Addr} {id : Nat} (mem : id ∈ m.heap.place a) : id ∈ m.parked := by
  refine List.mem_append_right _ (List.mem_flatMap.2 ⟨a, Heap.mem_nodes ?_, mem⟩)
  by_contra none
  rw [Heap.place_of_not_node none] at mem
  cases mem

/-- The fiber that an entry names is there. -/
theorem not_lost (order : m.InOrder) (few : m.control.sched.nextId ≤ UInt32.size) (k : Int) : ¬ m.Lost k := by
  rintro ⟨none, ⟨a, ws, w, s, mem, rfl⟩ | ⟨a, n, ids, id, s, mem, rfl⟩⟩
  · have blocked := order.blocked_at (Heap.place_queue s ▸ List.mem_map_of_mem mem : w.fiber ∈ m.heap.place a)
    exact none ⟨Int.natCast_nonneg _, Scheduler.isLive_of_hasState blocked nofun⟩
  · have blocked := order.blocked_at (Heap.place_group s ▸ List.mem_map_of_mem mem : id.toNat ∈ m.heap.place a)
    have small := Nat.lt_of_lt_of_le (order.cons.hasState_lt blocked) few
    rw [Word.toInt_of_lt small] at none
    exact none ⟨Int.natCast_nonneg _, Scheduler.isLive_of_hasState blocked nofun⟩

/-- Those who are woken are parked at one node. -/
theorem woken_at (order : m.InOrder) (few : m.control.sched.nextId ≤ UInt32.size) (deed : m.Deed l m') :
    ∃ a, l.woken.Sublist (m.heap.place a) := by
  have none : ∃ a, List.Sublist [] (m.heap.place a) := ⟨0, List.nil_sublist _⟩
  have heap := deed.heap
  cases l with
  | quiet | spawn | stop | sleep | make | newGroup | count | wait => exact none
  | drain g ids =>
    obtain ⟨n, s, -⟩ := heap
    refine ⟨g, ?_⟩
    rw [StepLabel.woken, order.fiber_eq few s, Heap.place_group s]
  | act ch a =>
    obtain ⟨c, c', acts⟩ := heap
    have senders := Heap.place_queue acts.before.senders
    have receivers := Heap.place_queue acts.before.receivers
    have step := acts.step
    cases step with
    | store | take | close | parkSender | parkReceiver => exact none
    | hand v waiting =>
      rw [waiting] at receivers
      exact ⟨c.receivers, receivers ▸ List.singleton_sublist.2 List.mem_cons_self⟩
    | refill items waiting =>
      rw [waiting] at senders
      exact ⟨c.senders, senders ▸ List.singleton_sublist.2 List.mem_cons_self⟩
    | pass items waiting =>
      rw [waiting] at senders
      exact ⟨c.senders, senders ▸ List.singleton_sublist.2 List.mem_cons_self⟩

end Machine.InOrder

namespace Machine

section Turns

variable {q : Terms} {w : World} {m m' : Machine} {t : Turn} {l : StepLabel} {i : Instr}

theorem Deed.hands (deed : m.Deed l m') (run : m.executed t = some (i, m')) (fits : l.Of m i m') (v : Addr)
    (id : Nat) : m.Hands t v id ↔ l.HandsTo v id := by
  constructor
  · rintro ⟨sends, ch, rest, waiter, operands, first, rfl⟩
    rw [run] at sends
    obtain rfl : i = .send := Option.some.inj sends
    cases l with
    | quiet | sleep | newGroup | count | drain | wait => exact absurd rfl fits.1.1
    | spawn =>
      obtain ⟨stop, other⟩ := fits
      cases other
    | stop => cases fits
    | make => cases fits.1
    | act x a =>
      rcases fits with ⟨-, v', rest', sends, operands'⟩ | ⟨other, -⟩ | ⟨other, -⟩ | ⟨-, plain, -⟩
      · rw [operands] at operands'
        obtain ⟨rfl, rfl, -⟩ : v = v' ∧ ch = x ∧ rest = rest' := by simpa using operands'
        obtain ⟨c, c', acts⟩ := deed.heap
        rw [Heap.nextReceiver_plays acts.before] at first
        have step := acts.step
        cases step with
        | hand y waiting =>
          obtain rfl : y = v := sends
          rw [waiting, List.head?_cons, Option.some.injEq] at first
          exact ⟨ch, _, rfl, congrArg Waiter.fiber first⟩
        | store _ none => cases none ▸ first
        | parkSender _ _ none => cases none ▸ first
        | _ => exact sends.elim
      · cases other
      · cases other
      · exact absurd rfl plain.1
  · rintro ⟨ch, waiter, rfl, same⟩
    obtain ⟨c, c', acts⟩ := deed.heap
    have first : m.heap.nextReceiver ch = some waiter := by
      rw [Heap.nextReceiver_plays acts.before]
      cases acts.step with
      | hand v waiting => rw [waiting, List.head?_cons]
    rcases fits with ⟨rfl, x, rest, rfl, operands⟩ | ⟨-, x, rest, gives, -⟩ | ⟨-, parks, -⟩ | ⟨closes, -⟩
    · exact ⟨by rw [run]; rfl, ch, rest, waiter, operands, first, same⟩
    · exact gives.elim
    · cases parks
    · cases closes

/-- The registers of a fiber that is not current, after a turn. -/
structure Retains (m : Machine) (t : Turn) (f g : Fiber) : Prop where
  id : g.id = f.id
  /-- A value that is handed over is on top of the stack. -/
  pushed : ∀ v, m.Hands t v f.id → g.resting = (f.push v).resting
  kept : (∀ v, ¬ m.Hands t v f.id) → g.resting = f.resting

/-- An instruction and the scheduling decision after it leave the registers of the other fibers as they are, except
that a value is pushed for the one that it is handed to. -/
theorem Deed.retains {m'' : Machine} (deed : m.Deed l m') (run : m.executed t = some (i, m')) (fits : l.Of m i m')
    (continues : m'.control.sched.Continues m''.control.sched) {f : Fiber} (mem : f ∈ m.control.sched.others)
    (foreign : f.id ≠ m.current.id) : ∃ g ∈ m''.fibers, m.Retains t f g := by
  have hands := deed.hands run fits
  obtain ⟨g, inside, registers⟩ := StepLabel.others_apply (l := l) mem foreign
  rw [← deed.sched.apply.others] at inside
  obtain ⟨k, there, same⟩ := List.mem_map.1
    (continues.fibers.mem_iff.2 (List.mem_map_of_mem (Scheduler.mem_live.2 (.inr inside))))
  rcases registers with ⟨kept, none⟩ | ⟨v, handed, pushed⟩
  · refine ⟨k, there, show k.resting.id = f.resting.id from congrArg Fiber.id (same.trans kept), fun v handed => ?_,
      fun _ => same.trans kept⟩
    exact absurd ((hands v f.id).1 handed) (none v)
  · refine ⟨k, there, show k.resting.id = (f.push v).resting.id from congrArg Fiber.id (same.trans pushed),
      fun v' handed' => ?_, fun none => absurd ((hands v f.id).2 handed) (none v)⟩
    obtain rfl := handed.unique ((hands v' f.id).1 handed')
    exact same.trans pushed

section Instructions

variable (order : m.InOrder) (running : m.control.sched.current.state = .running)
  (few : m.control.sched.nextId ≤ UInt32.size) (deed : m.Deed l m')

include order few deed

/-- Whoever is handed a value is woken, and was blocked. -/
theorem InOrder.handed {v : Addr} {id : Nat} (hands : l.HandsTo v id) :
    id ∈ l.woken ∧ m.control.sched.HasState id .blocked := by
  obtain ⟨ch, waiter, rfl, rfl⟩ := hands
  obtain ⟨a, parked⟩ := order.woken_at few deed
  exact ⟨List.mem_cons_self, order.blocked_at (parked.subset List.mem_cons_self)⟩

include running

theorem InOrder.spares {canceled : Bool} {m'' : Machine} (wired : Wired m.heap.words)
    (run : m.executed t = some (i, m')) (fits : l.Of m i m') (goes : m'.Goes canceled m'') {f : Fiber}
    (mem : f ∈ m.control.sched.others) : ∃ g ∈ m''.fibers, m.Spares t f g := by
  obtain ⟨a, parked⟩ := order.woken_at few deed
  obtain ⟨order', continues⟩ := goes.continues (order.deed wired running few deed)
  obtain ⟨k, there, id, pushed, kept⟩ := deed.retains run fits continues mem (order.cons.apart f mem)
  refine ⟨k, there, id, fun v handed => ⟨?_, pushed v handed⟩, kept, fun blocked awake => ?_⟩
  · have waits := (order.handed few deed ((deed.hands run fits v f.id).1 handed)).2
    exact order.cons.hasState_unique (.inr ⟨f, mem, rfl, rfl⟩) waits
  · by_cases waked : f.id ∈ l.woken
    · exact mem_parked (parked.subset waked)
    · have still := StepLabel.stays_apply order running (.inr ⟨f, mem, rfl, blocked⟩) waked
      rcases continues.blocked f.id (deed.sched.apply.hasState.2 still) with asleep | due
      · have is : m''.control.sched.HasState f.id k.state :=
          (Scheduler.mem_live.1 there).elim (fun own => .inl ⟨own.1 ▸ id, own.1 ▸ rfl⟩) fun other =>
            .inr ⟨k, other, id, rfl⟩
        exact absurd (order'.cons.hasState_unique is asleep) awake
      · rw [deed.sched.apply.timers] at due
        refine List.mem_append_left _ ((StepLabel.timers_apply due).resolve_left ?_)
        exact order.cons.apart f mem

end Instructions

/-- No turn loses anyone, or disturbs those who are not current. -/
theorem Paired.turnInOrder (p : m.Paired q w m) (wired : Wired m.heap.words) (order : m.InOrder)
    (few : m.control.sched.nextId ≤ UInt32.size) (fine : m.control.failed = none) (more : m.control.result = none)
    (sound : ¬ m.Crashes t) : m.TurnInOrder t := by
  have running := p.running fine more
  have outcome := p.outcome wired sound
  refine ⟨fun f m' k raised cause => ?_, fun i m' has => ?_, fun fine' f mem ne => ?_⟩
  · rw [turn_of_run raised] at outcome
    exact order.not_lost few k (outcome.lost fine raised cause)
  · obtain ⟨next, run⟩ := executes_of_executed has
    have does := p.does wired next
    rw [run] at does
    obtain ⟨l, deed, fits⟩ := does
    obtain ⟨a, parked⟩ := order.woken_at few deed
    refine ⟨l, deed, fits, (order.parked.once (some a)).sublist parked, fun id mem => ?_⟩
    exact (Scheduler.hasState_iff (by decide)).1 (order.blocked_at (parked.subset mem))
  · have mem := Scheduler.mem_others_of_ne mem ne
    cases outcome with
    | rests drift control none =>
      have idle : ∀ v, ¬ m.Hands t v f.id := by
        rintro v ⟨sends, -⟩
        rw [m.executed_of_rests none] at sends
        cases sends
      rw [Machine.fibers, control]
      exact ⟨f, Scheduler.mem_live.2 (.inr mem), rfl, fun v hands => absurd hands (idle v), fun _ => rfl,
        fun blocked awake => absurd blocked awake⟩
    | goes next run deed fits goes =>
      exact order.spares running few deed wired (m.executed_of_executes _ next run) fits goes mem
    | fails _ _ failed => cases fine'.symm.trans failed

end Turns

/-- A new machine has one fiber, which runs. -/
theorem create_inOrder {size : Int} {code : Code} {options : Options} {clock : Clock} {sink : Sink}
    {order : Enumeration} {m : Machine} (made : Machine.create size code options clock sink order = .ok m) : m.InOrder ∧ Census.Counts {} m.control.sched := by
  obtain ⟨h, heap, rfl⟩ := Machine.create_eq made
  obtain ⟨init, -⟩ := Heap.create_initial heap
  have nowhere : ∀ a, h.place a = [] := by
    intro a
    by_cases node : NodeIn h.words a
    · have plain := init.not_sync node
      exact Heap.place_eq_nil (fun queue => plain (.inr (.inl queue))) fun group => plain (.inr (.inr group))
    · exact Heap.place_of_not_node node
  have empty : ∀ p id, id ∉ Scheduler.places (Scheduler.create options.withDefaults.quantum
      options.withDefaults.firstQuantum Heap.globalEnv clock) h.place p := by
    intro p id mem
    cases p with
    | none => cases mem
    | some a =>
      have mem : id ∈ h.place a := mem
      rw [nowhere a] at mem
      cases mem
  refine ⟨⟨⟨(Scheduler.create_fit _ _ _).cons, ?_, nofun⟩, ⟨fun p => ?_, fun p _ id mem => absurd mem (empty p id),
    fun p id mem => absurd mem (empty p id)⟩⟩, rfl, nofun, fun id => ?_⟩
  · rintro id (⟨-, is⟩ | ⟨f, mem, -⟩)
    · cases is
    · cases mem
  · rw [List.eq_nil_iff_forall_not_mem.2 (empty p)]
    exact List.nodup_nil
  · rw [Scheduler.isLive_iff]
    constructor
    · rintro (⟨rfl, -⟩ | ⟨f, mem, -⟩)
      · exact ⟨Nat.zero_lt_one, nofun⟩
      · cases mem
    · rintro ⟨lt, -⟩
      exact .inl ⟨(Nat.lt_one_iff.1 lt).symm, nofun⟩

/-- In every state that a decoded program reaches by steps and collections, if it assigns nothing to the
outermost frame, has started no more fibers than an entry of a queue can tell apart, and has neither failed
nor come to its end, the fibers are in order, the table holds those who have been started and have not ended,
and no turn loses anyone or disturbs those who are not current. -/
theorem fibers_in_order {p : Program Datum} {is : List Instr} (decoded : p.instrs = .ok is)
    (inner : ∀ pos sym, Instr.assign pos sym ∈ is → pos.frame ≠ 0) {size : Int} {options : Options}
    {clock : Clock} {sink : Sink} {m : Machine}
    (made : Machine.create size (Code.ofInstrs is) options clock sink = .ok m) (ts : List Turn)
    (few : (m.recount Census.enter {} ts).started.length ≤ UInt32.size) (fine : (m.play ts).control.failed = none)
    (more : (m.play ts).control.result = none) :
    (m.play ts).FibersInOrder ∧
      (∀ id, id ∈ (m.play ts).fibers.map Fiber.id ↔ id ∈ (m.recount Census.enter {} ts).started ∧
        id ∉ (m.recount Census.enter {} ts).ended) ∧
      ∀ t, (m.play ts).TurnInOrder t := by
  obtain ⟨wired, ⟨w, paired⟩, invariant⟩ := Machine.play_invariant Census.enter
    (fun m c => c.started.length ≤ UInt32.size → m.control.failed = none → m.InOrder ∧ c.Counts m.control.sched)
    decoded inner made (fun paired wired outcome before => paired.fibers wired outcome before)
    (fun _ _ => create_inOrder made) ts
  obtain ⟨order, counts⟩ := invariant few fine
  have safe := paired.not_stores (Code.inner_ofInstrs inner)
  refine ⟨order.fibersInOrder (paired.running fine more) wired.small, fun id => ?_, fun t => ?_⟩
  · rw [counts.started, List.mem_range]
    exact Scheduler.isLive_iff_mem.symm.trans (counts.live id)
  · exact paired.turnInOrder wired order (counts.length ▸ few) fine more
      (paired.alone t (fun _ => safe) fun _ => False.elim).1

theorem fibers_in_order_relay : ∃ m, Program.relay.instrs = .ok Program.relayInstrs ∧
    Machine.create 336 (Code.ofInstrs Program.relayInstrs) {} = .ok m ∧ (m.play Turn.relay).AtRelay ∧
    (m.recount Census.enter {} Turn.relay).started.length ≤ UInt32.size ∧ (m.play Turn.relay).FibersInOrder ∧
      (∀ id, id ∈ (m.play Turn.relay).fibers.map Fiber.id ↔ id ∈ (m.recount Census.enter {} Turn.relay).started ∧
        id ∉ (m.recount Census.enter {} Turn.relay).ended) ∧
      ∀ t, (m.play Turn.relay).TurnInOrder t := by
  obtain ⟨m, made, reached⟩ := Machine.play_relay
  have few : (m.recount Census.enter {} Turn.relay).started.length ≤ UInt32.size :=
    Nat.le_trans (Census.recount_length Turn.relay m {}) (by decide)
  have order := Machine.fibers_in_order (p := Program.relay) rfl Program.relay_inner made Turn.relay few
    reached.1 reached.2.1
  exact ⟨m, rfl, made, reached, few, order⟩

end Machine

end FiberVm
