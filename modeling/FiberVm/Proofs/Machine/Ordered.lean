import FiberVm.Proofs.Machine.Fibers

/-!
# Order in every state, after a fault too

As long as nothing has failed, the table and the queue agree. As long as ids fit into an entry of a queue, the
places where fibers are parked agree with them as well, and that does not end with a fault: an instruction that
fails has not come to the fibers yet, and a scheduler that finds nobody to go on has only waited.
-/

set_option autoImplicit false

namespace FiberVm

open Heap (Drift NewQueues Wired)

namespace Scheduler.Kept

variable {P : Scheduler → Prop} {s s' : Scheduler} {canceled : Bool} {c : Cause} (kept : Kept P)

include kept

theorem awaitReady_error (holds : P s) (run : Scheduler.awaitReady canceled s = .error c s') : P s' := by
  fun_induction Scheduler.awaitReady canceled s with
  | case1 =>
    cases run
    exact holds
  | case2 =>
    cases run
    exact holds
  | case3 s empty t rest some go ih =>
    have slept : s.Undisturbed (s.sleepUntil t.deadline) := .clock s _
    exact ih (kept.poll (kept.undisturbed holds slept)) run
  | case4 => cases run

theorem reschedule_error (holds : P s) (run : Scheduler.reschedule canceled s = .error c s') : P s' := by
  by_cases running : s.current.state = .running
  · have charged : s.Undisturbed s.charge := .charge s
    have holds₁ := kept.poll (kept.undisturbed holds charged)
    rw [reschedule_of_running running] at run
    split at run
    · cases run
    split at run
    · cases run
    · have waited := next_error run
      exact kept.awaitReady_error (kept.poll (kept.preempt holds₁ (poll_running running))) waited
  · rw [reschedule_of_blocked running] at run
    exact kept.awaitReady_error (kept.poll holds) (next_error run)

end Scheduler.Kept

namespace StepLabel

variable {s : Scheduler} {l : StepLabel}

theorem orderly_apply (orderly : s.Orderly) (running : s.current.state = .running) : (l.apply s).Orderly := by
  cases l with
  | quiet | make | newGroup | count => exact orderly
  | spawn pc env => exact orderly.spawn pc env
  | stop => exact orderly.stop running .terminated nofun s.timers
  | sleep | wait => exact orderly.stop running .blocked nofun _
  | drain g ids => exact orderly.foldl_wake ids Word.fiber
  | act ch a =>
    cases a with
    | store | take | close => exact orderly
    | parkSender | parkReceiver => exact orderly.stop running .blocked nofun s.timers
    | refill v w => exact orderly.wake w.fiber
    | pass w => exact orderly.wake w.fiber
    | hand v w => exact (orderly.deliver w.fiber v).wake w.fiber

theorem nextId_le_apply (running : s.current.state = .running) : s.nextId ≤ (l.apply s).nextId := by
  by_cases loc : l.IsLocal
  · exact Nat.le_of_eq (live_apply loc running 0).1.symm
  · cases l with
    | spawn => exact Nat.le_succ _
    | stop => exact Nat.le_refl _
    | _ => exact absurd trivial loc

end StepLabel

namespace Machine

/-- The table and the queue agree unless something has failed, and the places where fibers are parked agree with
them as long as ids fit into an entry of a queue. -/
structure Ordered (m : Machine) : Prop where
  orderly : m.control.failed = none → m.control.sched.Orderly
  inOrder : m.control.sched.nextId ≤ UInt32.size → m.InOrder

section Turns

variable {q : Terms} {w : World} {m m' : Machine} {l : StepLabel} {t : Turn}

theorem nextId_le_deed (running : m.control.sched.current.state = .running) (deed : m.Deed l m') :
    m.control.sched.nextId ≤ m'.control.sched.nextId :=
  deed.sched.apply.nextId ▸ StepLabel.nextId_le_apply running

theorem Ordered.deed_orderly (ordered : m.Ordered) (fine : m.control.failed = none)
    (running : m.control.sched.current.state = .running) (deed : m.Deed l m') : m'.control.sched.Orderly :=
  (StepLabel.orderly_apply (ordered.orderly fine) running).undisturbed deed.sched.apply

theorem Ordered.deed_inOrder (ordered : m.Ordered) (running : m.control.sched.current.state = .running)
    (wired : Wired m.heap.words) (deed : m.Deed l m') (few : m'.control.sched.nextId ≤ UInt32.size) : m'.InOrder := by
  have few : m.control.sched.nextId ≤ UInt32.size := Nat.le_trans (nextId_le_deed running deed) few
  exact (ordered.inOrder few).deed wired running few deed

theorem Goes.ordered {canceled : Bool} (goes : m.Goes canceled m') (orderly : m.control.sched.Orderly)
    (inOrder : m.control.sched.nextId ≤ UInt32.size → m.InOrder) : m'.Ordered := by
  cases goes with
  | halts => exact ⟨fun _ => orderly, inOrder⟩
  | resumes _ run =>
    have continues := orderly.cons.continues_of_ok run
    refine ⟨fun _ => (Scheduler.Orderly.kept.reschedule orderly run).1, fun few => ?_⟩
    exact ((Scheduler.InOrder.kept _).reschedule (inOrder (continues.nextId ▸ few)) run).1

theorem Paired.ordered (p : m.Paired q w m) (wired : Wired m.heap.words) (outcome : m.Outcome t m')
    (ordered : m.Ordered) : m'.Ordered := by
  cases outcome with
  | rests drift control =>
    refine ⟨fun fine => control ▸ ordered.orderly (control ▸ fine), fun few => ?_⟩
    rw [InOrder, control]
    exact Scheduler.InOrder.fewer (ordered.inOrder (control ▸ few)) (wired.place_drift drift fun _ mem => absurd mem List.not_mem_nil)
  | goes next run deed fits goes =>
    have running := p.running next.1 next.2.1
    exact goes.ordered (ordered.deed_orderly next.1 running deed) (ordered.deed_inOrder running wired deed)
  | fails fine more failed _ _ _ interrupted =>
    refine ⟨fun fine' => absurd (fine'.symm.trans failed) (Option.some_ne_none _).symm, fun few => ?_⟩
    have running := p.running fine more
    cases interrupted with
    | early heap undisturbed =>
      have order := ordered.inOrder (undisturbed.nextId ▸ few)
      refine Scheduler.InOrder.undisturbed (Scheduler.InOrder.fewer order ?_) undisturbed
      rcases heap with drift | ⟨new, drift, queues⟩
      · exact wired.place_drift drift fun _ mem => absurd mem List.not_mem_nil
      · exact wired.place_drift drift fun a mem => Heap.place_queue (queues a mem).1
    | @late i l m₁ canceled c _ deed heap decided =>
      have orderly := ordered.deed_orderly fine running deed
      have continues := orderly.cons.continues_of_error decided
      have order := ordered.deed_inOrder running wired deed (continues.nextId ▸ few)
      rw [InOrder, heap]
      exact (Scheduler.InOrder.kept _).reschedule_error order decided
    | lost lost _ nextId =>
      have few := nextId ▸ few
      exact absurd lost ((ordered.inOrder few).not_lost few _)

end Turns

/-- What holds in every state that a decoded program reaches by turns. -/
structure Steady (code : Code) (m : Machine) : Prop where
  inner : code.Inner
  paired : ∃ w, m.Paired ⟨code, False⟩ w m
  wired : Wired m.heap.words
  ordered : m.Ordered

section Steady

variable {code : Code} {m : Machine}

theorem Steady.not_crashes (steady : m.Steady code) (t : Turn) : ¬ m.Crashes t := by
  obtain ⟨inner, ⟨w, p⟩, -⟩ := steady
  exact (p.alone t (fun _ => p.not_stores inner) fun _ => False.elim).1

theorem Steady.outcome (steady : m.Steady code) (t : Turn) : m.Outcome t (m.turn t) := by
  obtain ⟨w, p⟩ := steady.paired
  exact p.outcome steady.wired (steady.not_crashes t)

theorem Steady.turn (steady : m.Steady code) (t : Turn) : (m.turn t).Steady code := by
  have outcome := steady.outcome t
  obtain ⟨inner, ⟨w, p⟩, wired, ordered⟩ := steady
  obtain ⟨-, w', alike, running, -⟩ := p.alone t (fun _ => p.not_stores inner) fun _ => False.elim
  exact ⟨inner, ⟨_, alike.settle running⟩, wired.effect outcome.effect, p.ordered wired outcome ordered⟩

theorem Steady.play (steady : m.Steady code) (ts : List Turn) : (m.play ts).Steady code := by
  induction ts generalizing m with
  | nil => exact steady
  | cons t ts ih => exact ih (steady.turn t)

/-- A turn happens in at most two parts: an instruction, and a decision who goes on. -/
theorem Steady.turn_cases (steady : m.Steady code) (t : Turn) :
    ((Drift [] m.heap (m.turn t).heap ∨ NewQueues m.heap (m.turn t).heap) ∧
        m.control.sched.Undisturbed (m.turn t).control.sched) ∨
      (∃ i l m₁, m.executed t = some (i, m₁) ∧ m.control.sched.current.state = .running ∧ m.Deed l m₁ ∧
        (m.turn t).heap = m₁.heap ∧ m₁.control.sched.Continues (m.turn t).control.sched) ∨
      (∃ k, m.Lost k) ∧ (m.turn t).control.sched.nextId = m.control.sched.nextId := by
  have outcome := steady.outcome t
  obtain ⟨-, ⟨w, p⟩, -, ordered⟩ := steady
  generalize m.turn t = m' at outcome
  cases outcome with
  | rests drift control => exact .inl ⟨.inl drift, control ▸ .refl _⟩
  | goes next run deed fits goes =>
    have running := p.running next.1 next.2.1
    refine .inr (.inl ⟨_, _, _, executed_of_executes _ next run, running, deed, goes.heap, ?_⟩)
    exact goes.keeps_fibers (ordered.deed_orderly next.1 running deed).cons
  | fails fine more failed _ _ _ interrupted =>
    have running := p.running fine more
    cases interrupted with
    | early heap undisturbed => exact .inl ⟨heap, undisturbed⟩
    | late has deed heap decided =>
      have orderly := ordered.deed_orderly fine running deed
      exact .inr (.inl ⟨_, _, _, has, running, deed, heap, orderly.cons.continues_of_error decided⟩)
    | lost lost _ nextId => exact .inr (.inr ⟨⟨_, lost⟩, nextId⟩)

/-- Ids are given out in ascending order. -/
theorem Steady.nextId_le (steady : m.Steady code) (t : Turn) :
    m.control.sched.nextId ≤ (m.turn t).control.sched.nextId := by
  rcases steady.turn_cases t with ⟨-, undisturbed⟩ | ⟨i, l, m₁, -, running, deed, -, continues⟩ | ⟨-, nextId⟩
  · exact Nat.le_of_eq undisturbed.nextId.symm
  · exact Nat.le_trans (nextId_le_deed running deed) (Nat.le_of_eq continues.nextId.symm)
  · exact Nat.le_of_eq nextId.symm

theorem Steady.nextId_le_play (steady : m.Steady code) (ts : List Turn) :
    m.control.sched.nextId ≤ (m.play ts).control.sched.nextId := by
  induction ts generalizing m with
  | nil => exact Nat.le_refl _
  | cons t ts ih => exact Nat.le_trans (steady.nextId_le t) (ih (steady.turn t))

theorem create_steady {p : Program Datum} {is : List Instr} (decoded : p.instrs = .ok is)
    (inner : ∀ pos sym, Instr.assign pos sym ∈ is → pos.frame ≠ 0) {size : Int} {options : Options}
    {clock : Clock} {sink : Sink} {order : Enumeration}
    (made : Machine.create size (Code.ofInstrs is) options clock sink order = .ok m) : m.Steady (Code.ofInstrs is) := by
  have order := (create_inOrder made).1
  have paired := Machine.create_paired (p.plain_of_instrs decoded) made made False
  obtain ⟨h, heap, rfl⟩ := Machine.create_eq made
  exact ⟨Code.inner_ofInstrs inner, ⟨_, paired⟩, Heap.create_wired heap, fun _ => order.toOrderly, fun _ => order⟩

end Steady

end Machine

end FiberVm
