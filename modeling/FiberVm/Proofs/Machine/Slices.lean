import FiberVm.Proofs.Machine.Counters
import FiberVm.Proofs.Machine.Ordered

/-!
# Slices

What is left of a slice is never less than one instruction and never more than the longest slice there is. It
is more than a quantum only while fiber 1 is in its first slice. While others wait to be resumed nobody's slice
is renewed, so a fiber that is current cannot stay it for longer than its slice.
-/

set_option autoImplicit false

namespace FiberVm

namespace Scheduler

section Invariants

variable {P : Scheduler → Prop} {s s' : Scheduler} {canceled : Bool}

/-- What holds before and survives waking holds when the wait is over. -/
theorem awaitReady_invariant (wake : ∀ s id, P s → P (s.wake id))
    (timers : ∀ s ts c, P s → P { s with timers := ts, clock := c }) (holds : P s)
    (run : awaitReady canceled s = .ok () s') : P s' ∧ s'.ready ≠ [] := by
  fun_induction Scheduler.awaitReady canceled s with
  | case1 => cases run
  | case2 => cases run
  | case3 s empty t rest some go ih =>
    exact ih (poll_invariant wake timers (timers s s.timers _ holds)) run
  | case4 s ready =>
    cases run
    exact ⟨holds, by simpa using ready⟩

theorem next_ok (run : next canceled s = .ok () s') : ∃ s₁, awaitReady canceled s.poll = .ok () s₁ ∧ s' = s₁.resume := by
  unfold next at run
  split at run
  · next s₁ waited =>
    cases run
    exact ⟨s₁, waited, rfl⟩
  · cases run

end Invariants

/-- Who is current, and for how long. -/
structure Tenure where
  fiber : Nat
  /-- Has the fiber been resumed before? -/
  started : Bool
  left : Int
  quantum : Int
  first : Int

def tenure (s : Scheduler) : Tenure := ⟨s.current.id, s.current.started, s.slice, s.quantum, s.firstQuantum⟩

/-- The fiber has been started, and it has been resumed if it has not ended. -/
structure Began (id : Nat) (s : Scheduler) : Prop where
  known : id < s.nextId
  current : s.current.id = id → s.current.started = true
  others : ∀ f ∈ s.others, f.id = id → f.started = true

section Kept

variable {s s' : Scheduler} {id : Nat} {queue : List Nat} {canceled : Bool}

theorem tenure_wake (s : Scheduler) (k : Nat) : (s.wake k).tenure = s.tenure := by
  rcases s.wake_cases k with same | ⟨-, -, same⟩ | ⟨-, same⟩ <;> rw [same] <;> rfl

theorem tenure_deliver (s : Scheduler) (k : Nat) (v : Addr) : (s.deliver k v).tenure = s.tenure := by
  unfold deliver
  split
  · unfold deliverSaved Fiber.overwrite
    repeat' split
    all_goals rfl
  · rfl

theorem tenure_poll (s : Scheduler) : s.poll.tenure = s.tenure :=
  poll_invariant (P := fun s' => s'.tenure = s.tenure) (fun s' k same => (s'.tenure_wake k).trans same)
    (fun _ _ _ same => same) rfl

theorem Began.wake (began : s.Began id) (k : Nat) : (s.wake k).Began id := by
  rcases s.wake_cases k with same | ⟨-, -, same⟩ | ⟨-, same⟩ <;> rw [same]
  · exact began
  · exact ⟨began.known, began.current, began.others⟩
  · refine ⟨began.known, began.current, fun f mem => ?_⟩
    obtain ⟨g, inside, rfl⟩ := List.mem_map.1 mem
    split
    · exact began.others g inside
    · exact began.others g inside

theorem Began.deliver (began : s.Began id) (k : Nat) (v : Addr) : (s.deliver k v).Began id := by
  have same := s.tenure_deliver k v
  have undisturbed := s.nextId_deliver k v
  refine ⟨undisturbed ▸ began.known, fun own => ?_, fun f mem => ?_⟩
  · have own : s.current.id = id := (congrArg Tenure.fiber same).symm.trans own
    exact (congrArg Tenure.started same).trans (began.current own)
  · unfold Scheduler.deliver at mem
    split at mem
    · rw [(Undisturbed.deliverSaved s v).others] at mem
      exact began.others f mem
    · obtain ⟨g, inside, rfl⟩ := List.mem_map.1 mem
      split
      · exact began.others g inside
      · exact began.others g inside

theorem Began.poll (began : s.Began id) : s.poll.Began id :=
  poll_invariant (fun _ k began => began.wake k) (fun _ _ _ began => ⟨began.known, began.current, began.others⟩) began

theorem prefix_wake (before : queue <+: s.ready) (k : Nat) : queue <+: (s.wake k).ready := by
  rcases s.wake_cases k with same | ⟨-, -, same⟩ | ⟨-, same⟩ <;> rw [same]
  · exact before
  · exact before.trans (List.prefix_append _ _)
  · exact before.trans (List.prefix_append _ _)

theorem prefix_poll (before : queue <+: s.ready) : queue <+: s.poll.ready :=
  poll_invariant (P := fun s => queue <+: s.ready) (fun _ k before => prefix_wake before k)
    (fun _ _ _ before => before) before

/-- Whoever is resumed gets a new slice. -/
theorem Consistent.resume_tenure (cons : s.Consistent) {k : Nat} {rest : List Nat} (ready : s.ready = k :: rest) :
    ∃ f ∈ s.live, f.id = k ∧ (s.current.id = k → f = s.current) ∧
      s.resume.tenure = ⟨k, true, s.sliceFor f, s.quantum, s.firstQuantum⟩ := by
  have turn := cons.queued k (ready ▸ List.mem_cons_self)
  unfold Scheduler.resume
  rw [ready]
  dsimp only
  by_cases own : s.current.id = k
  · rw [if_pos own]
    have waiting : s.current.state = .ready := by
      rcases turn with ⟨-, waiting⟩ | ⟨f, inside, same, -⟩
      · exact waiting
      · exact absurd (same.trans own.symm) (cons.apart f inside)
    refine ⟨s.current, mem_live.2 (.inl ⟨rfl, by rw [waiting]; decide⟩), own, fun _ => rfl, ?_⟩
    rw [tenure, own]
  · rw [if_neg own]
    obtain ⟨g, inside, same, -⟩ := turn.resolve_left fun h => own h.1
    obtain ⟨f, found⟩ : ∃ f, s.others.find? (fun f => f.id == k) = some f :=
      Option.isSome_iff_exists.1 (List.find?_isSome.2 ⟨g, inside, by simpa using same⟩)
    have id : f.id = k := by simpa using List.find?_some found
    refine ⟨f, mem_live.2 (.inr (List.mem_of_find?_eq_some found)), id, fun here => absurd here own, ?_⟩
    rw [found, tenure]
    simp only [id]

theorem Began.resume (began : s.Began id) (cons : s.Consistent) (some : s.ready ≠ []) : s.resume.Began id := by
  obtain ⟨k, rest, ready⟩ := List.exists_cons_of_ne_nil some
  obtain ⟨f, -, -, -, granted⟩ := cons.resume_tenure ready
  obtain ⟨-, -, nextId, table⟩ := cons.resume_cases ready
  refine ⟨nextId ▸ began.known, fun _ => congrArg Tenure.started granted, fun f mem own => ?_⟩
  rcases table with ⟨-, -, -, others⟩ | ⟨g, -, -, -, -, -, others⟩
  · exact began.others f (others ▸ mem) own
  · rw [others] at mem
    rcases mem_exchanged.1 mem with ⟨rfl, -⟩ | ⟨mem, -⟩
    · exact began.current own
    · exact began.others f mem own

/-- The current fiber has given up its slice, and the scheduler has waited until somebody is ready. -/
structure Waits (s s₁ : Scheduler) : Prop where
  orderly : s₁.Orderly
  idle : s₁.current.state ≠ .running
  some : s₁.ready ≠ []
  tenure : ∃ left, s₁.tenure = { s.tenure with left }
  began : ∀ id, s.Began id → s₁.Began id
  queue : ∀ queue, queue <+: s.ready → queue <+: s₁.ready

theorem Orderly.waits {s₁ : Scheduler} (orderly : s.Orderly) (idle : s.current.state ≠ .running)
    (run : Scheduler.awaitReady canceled s.poll = .ok () s₁) : s.Waits s₁ := by
  have waited : ∀ {P : Scheduler → Prop}, (∀ s id, P s → P (s.wake id)) →
      (∀ s ts c, P s → P { s with timers := ts, clock := c }) → P s → P s₁ := fun wake timers holds =>
    (awaitReady_invariant wake timers (poll_invariant wake timers holds) run).1
  obtain ⟨orderly₁, idle₁, some⟩ := Orderly.kept.awaitReady orderly.poll (poll_idle idle) run
  refine ⟨orderly₁, idle₁, some, ⟨s.slice, ?_⟩, fun id began => ?_, fun queue before => ?_⟩
  · exact waited (P := fun s₁ => s₁.tenure = s.tenure) (fun s₁ k same => (s₁.tenure_wake k).trans same)
      (fun _ _ _ same => same) rfl
  · exact waited (fun _ k began => began.wake k) (fun _ _ _ began => ⟨began.known, began.current, began.others⟩) began
  · exact waited (P := fun s₁ => queue <+: s₁.ready) (fun _ k before => prefix_wake before k)
      (fun _ _ _ before => before) before

/-- How a scheduling decision ends that goes well. -/
inductive Verdict (s : Scheduler) : Scheduler → Prop
  /-- Something is left of the slice. -/
  | goesOn : s.current.state = .running → 1 < s.slice → Verdict s s.charge
  /-- Nobody else is ready. -/
  | renews : s.current.state = .running → s.charge.poll.ready = [] →
    Verdict s { s.charge.poll with slice := s.charge.poll.quantum }
  | resumes {s₁ : Scheduler} : s.Waits s₁ → Verdict s s₁.resume

theorem Orderly.verdict (orderly : s.Orderly) (run : Scheduler.reschedule canceled s = .ok () s') : s.Verdict s' := by
  by_cases running : s.current.state = .running
  · have charged : s.charge.slice = s.slice - 1 := rfl
    rw [reschedule_of_running running] at run
    split at run
    · next left =>
      cases run
      exact .goesOn running (by omega)
    split at run
    · next alone =>
      cases run
      exact .renews running (List.isEmpty_iff.1 alone)
    · obtain ⟨s₁, waited, rfl⟩ := next_ok run
      have polled : s.charge.poll.current.state = .running := poll_running running
      have waits := ((orderly.undisturbed (.charge s)).poll.preempt polled).waits nofun waited
      obtain ⟨left, same⟩ := waits.tenure
      have tenure : s.charge.poll.preempt.tenure = s.charge.poll.tenure := rfl
      refine .resumes ⟨waits.orderly, waits.idle, waits.some, ⟨left, ?_⟩, fun id began => waits.began id ?_,
        fun queue before => waits.queue queue ?_⟩
      · rw [same, tenure, tenure_poll]
        rfl
      · have began : s.charge.poll.Began id := Began.poll ⟨began.known, began.current, began.others⟩
        exact ⟨began.known, began.current, began.others⟩
      · have polled : queue <+: s.charge.poll.ready := prefix_poll (s := s.charge) before
        exact polled.trans (List.prefix_append _ _)
  · rw [reschedule_of_blocked running] at run
    obtain ⟨s₁, waited, rfl⟩ := next_ok run
    exact .resumes (orderly.waits running waited)

end Kept

end Scheduler

section Careless

open Scheduler (Tenure)

instance (tenure : Tenure) : Control.Careless fun c => c.sched.tenure = tenure where
  registers c f saved id _ _ started same := by
    rw [← same, Scheduler.tenure, Scheduler.tenure, id, started]
  wake c k same := (c.sched.tenure_wake k).trans same
  deliver c k v same := (c.sched.tenure_deliver k v).trans same
  park _ same := same
  sleep _ _ same := same
  print _ _ same := same
  jump _ _ same := same
  spawn _ _ _ same := same
  stop _ same := same
  finish _ _ same := same

instance (id : Nat) : Control.Careless fun c => c.sched.Began id where
  registers c f saved same _ _ started began :=
    ⟨began.known, fun own => started.trans (began.current (same.symm.trans own)), began.others⟩
  wake c k began := began.wake k
  deliver c k v began := began.deliver k v
  park _ began := ⟨began.known, began.current, began.others⟩
  sleep _ _ began := ⟨began.known, began.current, began.others⟩
  print _ _ began := began
  jump _ _ began := ⟨began.known, began.current, began.others⟩
  spawn c _ _ began := by
    refine ⟨Nat.lt_succ_of_lt began.known, began.current, fun f mem own => ?_⟩
    rcases Scheduler.mem_insertFiber.1 mem with rfl | mem
    · exact absurd began.known (Nat.not_lt_of_le (Nat.le_of_eq own))
    · exact began.others f mem own
  stop _ began := ⟨began.known, began.current, began.others⟩
  finish _ _ began := began

instance (failed : Option Fault) : Control.Careless fun c => c.failed = failed where
  registers _ _ _ _ _ _ _ same := same
  wake _ _ same := same
  deliver _ _ _ same := same
  park _ same := same
  sleep _ _ same := same
  print _ _ same := same
  jump _ _ same := same
  spawn _ _ _ same := same
  stop _ same := same
  finish _ _ same := same

instance (queue : List Nat) : Control.Careless fun c => queue <+: c.sched.ready where
  registers _ _ _ _ _ _ _ before := before
  wake c k before := Scheduler.prefix_wake before k
  deliver c k v before := by
    unfold Scheduler.deliver
    split
    · rw [(Scheduler.Undisturbed.deliverSaved c.sched v).ready]
      exact before
    · exact before
  park _ before := before
  sleep _ _ before := before
  print _ _ before := before
  jump _ _ before := before
  spawn _ _ _ before := before.trans (List.prefix_append _ _)
  stop _ before := before
  finish _ _ before := before

variable {I : Control → Prop} [Control.Careless I] {m m₁ : Machine} {i : Instr}

/-- What an instruction keeps that goes well. -/
theorem Exec.Keeps.ok (holds : I m.control) (run : Exec.instr i m = .ok () m₁) : I m₁.control := by
  have settles := (instr (I := I) i).keeps m holds
  rwa [run] at settles

end Careless

/-- What fiber 1 has had of its first slice. -/
inductive Stint
  /-- It has not been current yet. -/
  | waits
  /-- It is in the slice, and has executed so many instructions of it. -/
  | first (spent : Nat)
  | past
deriving DecidableEq

/-- The slice begins when the fiber becomes current for the first time. It is over when the fiber has given up or
another is current, or when as many instructions have been executed as the slice is long. -/
def Stint.next (first : Int) (m : Machine) (t : Turn) : Stint → Stint
  | .waits => if (m.turn t).current.id = 1 then .first 0 else .waits
  | .first spent =>
    match m.executed t with
    | none => .first spent
    | some (_, m₁) =>
      if m₁.current.state = .running ∧ (m.turn t).current.id = 1 ∧ spent + 1 < first then .first (spent + 1) else .past
  | .past => .past

theorem Stint.next_ne_waits {first : Int} {m : Machine} {t : Turn} {stint : Stint} (begun : stint ≠ .waits) :
    stint.next first m t ≠ .waits := by
  cases stint with
  | waits => exact absurd rfl begun
  | first spent =>
    rw [Stint.next]
    split
    · nofun
    · split <;> nofun
  | past => nofun

namespace Machine

/-- What is left of the slice is in bounds, and more than is usual only while fiber 1 is in its first slice. -/
structure Timed (usual first : Int) (stint : Stint) (m : Machine) : Prop where
  quantum : m.control.sched.quantum = usual
  firstQuantum : m.control.sched.firstQuantum = first
  started : m.control.sched.current.started = true
  low : 1 ≤ m.control.sched.slice
  high : m.control.sched.slice ≤ max usual first
  waits : stint = .waits → m.control.sched.current.id ≠ 1
  began : stint ≠ .waits → m.control.sched.Began 1
  long : usual < m.control.sched.slice →
    ∃ spent : Nat, stint = .first spent ∧ m.control.sched.slice = first - spent ∧ m.control.sched.current.id = 1

section Timed

open Scheduler (Tenure)

variable {code : Code} {usual first : Int} {stint : Stint} {m m₁ : Machine} {t : Turn} {canceled : Bool} {i : Instr}
  {s s₁ : Scheduler}

theorem tenure_executed (run : Exec.instr i m.begun = .ok () m₁) : m₁.control.sched.tenure = m.control.sched.tenure :=
  Exec.Keeps.ok (I := fun c => c.sched.tenure = m.control.sched.tenure) (m := m.begun) rfl run

theorem began_executed (run : Exec.instr i m.begun = .ok () m₁) {id : Nat} (began : m.control.sched.Began id) :
    m₁.control.sched.Began id :=
  Exec.Keeps.ok (I := fun c => c.sched.Began id) (m := m.begun) ⟨began.known, began.current, began.others⟩ run

/-- A new slice is longer than usual only if it is the first of fiber 1. -/
theorem sliceFor_cases (s : Scheduler) (f : Fiber) :
    s.sliceFor f = s.quantum ∨ s.sliceFor f = s.firstQuantum ∧ f.id = 1 ∧ f.started = false := by
  unfold Scheduler.sliceFor
  split
  · next long => exact .inr ⟨rfl, long⟩
  · exact .inl rfl

/-- As long as a fiber stays current, nobody else gets a first slice. -/
theorem Timed.next_eq_waits_iff (timed : m.Timed usual first stint)
    (same : (m.turn t).current.id = m.current.id) : stint.next first m t = .waits ↔ stint = .waits := by
  refine ⟨fun waiting => Classical.byContradiction fun begun => stint.next_ne_waits begun waiting, ?_⟩
  rintro rfl
  rw [Stint.next, if_neg]
  rw [same]
  exact timed.waits rfl

/-- Only a fiber that has not been current yet gets the long slice. -/
theorem Timed.due (timed : m.Timed usual first stint) (began : stint ≠ .waits → s.Began 1)
    (tenure : s.tenure = m.control.sched.tenure) (waits : s.Waits s₁) {f : Fiber} (live : f ∈ s₁.live) :
    s₁.sliceFor f = usual ∨ s₁.sliceFor f = first ∧ f.id = 1 ∧ stint = .waits := by
  obtain ⟨left, same⟩ := waits.tenure
  rw [tenure] at same
  rcases sliceFor_cases s₁ f with short | ⟨long, one, fresh⟩
  · exact .inl (short.trans ((congrArg Tenure.quantum same).trans timed.quantum))
  · refine .inr ⟨long.trans ((congrArg Tenure.first same).trans timed.firstQuantum), one, ?_⟩
    refine Classical.byContradiction fun begun => ?_
    have began := waits.began 1 (began begun)
    rcases Scheduler.mem_live.1 live with ⟨rfl, -⟩ | mem
    · rw [began.current one] at fresh
      cases fresh
    · rw [began.others f mem one] at fresh
      cases fresh

/-- Whoever has been resumed has the slice that is due. -/
theorem Timed.resumed (timed : m.Timed usual first stint) (least : 1 ≤ usual ∧ 1 ≤ first)
    (began : stint ≠ .waits → s.Began 1) (tenure : s.tenure = m.control.sched.tenure) (waits : s.Waits s₁)
    (next : m.turn t = m₁.withSched s₁.resume) : (m.turn t).Timed usual first (stint.next first m t) := by
  obtain ⟨k, rest, ready⟩ := List.exists_cons_of_ne_nil waits.some
  obtain ⟨f, live, own, -, granted⟩ := waits.orderly.cons.resume_tenure ready
  obtain ⟨left, same⟩ := waits.tenure
  rw [tenure] at same
  have due := timed.due began tenure waits live
  have cons := (waits.orderly.resume waits.some waits.idle).1.cons
  have sched : (m.turn t).control.sched = s₁.resume := congrArg (·.control.sched) next
  have id : (m.turn t).control.sched.current.id = k := sched ▸ congrArg Tenure.fiber granted
  have slice : (m.turn t).control.sched.slice = s₁.sliceFor f := sched ▸ congrArg Tenure.left granted
  exact {
    quantum := sched ▸ (congrArg Tenure.quantum granted).trans ((congrArg Tenure.quantum same).trans timed.quantum)
    firstQuantum := sched ▸ (congrArg Tenure.first granted).trans ((congrArg Tenure.first same).trans timed.firstQuantum)
    started := sched ▸ congrArg Tenure.started granted
    low := by
      rw [slice]
      rcases due with short | ⟨long, -⟩ <;> omega
    high := by
      rw [slice]
      rcases due with short | ⟨long, -⟩ <;> omega
    waits := by
      intro waiting one
      have waits : stint = .waits := Classical.byContradiction fun begun => stint.next_ne_waits begun waiting
      rw [waits, Stint.next, if_pos (show (m.turn t).current.id = 1 from one)] at waiting
      cases waiting
    began := by
      intro begun
      by_cases before : stint = .waits
      · have one : (m.turn t).control.sched.current.id = 1 := by
          rw [before, Stint.next] at begun
          exact Classical.byContradiction fun other => begun (if_neg other)
        rw [sched] at one ⊢
        refine ⟨one ▸ cons.current_lt, fun _ => congrArg Tenure.started granted, fun g mem same => ?_⟩
        exact absurd (same.trans one.symm) (cons.apart g mem)
      · rw [sched]
        exact (waits.began 1 (began before)).resume waits.orderly.cons waits.some
    long := by
      intro long
      rw [slice] at long
      rcases due with short | ⟨long', one, waiting⟩
      · omega
      · have one : (m.turn t).control.sched.current.id = 1 := id.trans (own.symm.trans one)
        refine ⟨0, ?_, by rw [slice, long']; simp, one⟩
        rw [waiting, Stint.next]
        exact if_pos one }

/-- Something is left of the slice. -/
theorem Timed.goesOn (timed : m.Timed usual first stint) (next : m.Executes i) (run : Exec.instr i m.begun = .ok () m₁)
    (running : m₁.control.sched.current.state = .running) (more : 1 < m₁.control.sched.slice)
    (turn : m.turn (.step canceled) = m₁.withSched m₁.control.sched.charge) :
    (m.turn (.step canceled)).Timed usual first (stint.next first m (.step canceled)) := by
  have tenure := tenure_executed run
  have slice : m₁.control.sched.slice = m.control.sched.slice := congrArg Tenure.left tenure
  have sched : (m.turn (.step canceled)).control.sched = m₁.control.sched.charge := congrArg (·.control.sched) turn
  have charged : (m.turn (.step canceled)).control.sched.slice = m.control.sched.slice - 1 :=
    sched ▸ congrArg (· - 1) slice
  have id : (m.turn (.step canceled)).current.id = m.current.id :=
    (congrArg (·.current.id) sched).trans (congrArg Tenure.fiber tenure)
  have waits := timed.next_eq_waits_iff id
  have high := timed.high
  rw [slice] at more
  exact {
    quantum := sched ▸ (congrArg Tenure.quantum tenure).trans timed.quantum
    firstQuantum := sched ▸ (congrArg Tenure.first tenure).trans timed.firstQuantum
    started := sched ▸ (congrArg Tenure.started tenure).trans timed.started
    low := by omega
    high := by omega
    waits := fun waiting one => timed.waits (waits.1 waiting) (id.symm.trans one)
    began := fun begun => by
      have began := began_executed run (timed.began fun waiting => begun (waits.2 waiting))
      rw [sched]
      exact ⟨began.known, began.current, began.others⟩
    long := fun long => by
      obtain ⟨spent, stint, left, one⟩ := timed.long (by omega)
      refine ⟨spent + 1, ?_, by omega, id.trans one⟩
      have more : (spent : Int) + 1 < first := by omega
      rw [stint, Stint.next, executed_of_executes canceled next run]
      exact if_pos ⟨running, id.trans one, more⟩ }

/-- The slice is used up, and nobody else is ready. -/
theorem Timed.renews (timed : m.Timed usual first stint) (least : 1 ≤ usual) (run : Exec.instr i m.begun = .ok () m₁)
    (turn : m.turn t = m₁.withSched
      { m₁.control.sched.charge.poll with slice := m₁.control.sched.charge.poll.quantum }) :
    (m.turn t).Timed usual first (stint.next first m t) := by
  have tenure := tenure_executed run
  have polled := m₁.control.sched.charge.tenure_poll
  have sched := congrArg (·.control.sched) turn
  dsimp only [Machine.withSched] at sched
  have id : (m.turn t).current.id = m.current.id := by
    rw [Machine.current, sched]
    exact (congrArg Tenure.fiber polled).trans (congrArg Tenure.fiber tenure)
  have renewed : m₁.control.sched.charge.poll.quantum = usual :=
    (congrArg Tenure.quantum polled).trans ((congrArg Tenure.quantum tenure).trans timed.quantum)
  have slice : (m.turn t).control.sched.slice = usual := sched ▸ renewed
  have waits := timed.next_eq_waits_iff id
  exact {
    quantum := sched ▸ renewed
    firstQuantum :=
      sched ▸ (congrArg Tenure.first polled).trans ((congrArg Tenure.first tenure).trans timed.firstQuantum)
    started := sched ▸ (congrArg Tenure.started polled).trans ((congrArg Tenure.started tenure).trans timed.started)
    low := slice ▸ least
    high := slice ▸ Int.le_max_left usual first
    waits := fun waiting one => timed.waits (waits.1 waiting) (id.symm.trans one)
    began := fun begun => by
      have began := began_executed run (timed.began fun waiting => begun (waits.2 waiting))
      have polled : m₁.control.sched.charge.poll.Began 1 :=
        Scheduler.Began.poll ⟨began.known, began.current, began.others⟩
      rw [sched]
      exact ⟨polled.known, polled.current, polled.others⟩
    long := fun long => absurd (slice ▸ long) (Int.lt_irrefl _) }

theorem Timed.executed (timed : m.Timed usual first stint) (least : 1 ≤ usual ∧ 1 ≤ first) (next : m.Executes i)
    (run : Exec.instr i m.begun = .ok () m₁) (orderly : m₁.control.sched.Orderly)
    (decided : m₁.control.sched.reschedule canceled = .ok () s) (turn : m.turn (.step canceled) = m₁.withSched s) :
    (m.turn (.step canceled)).Timed usual first (stint.next first m (.step canceled)) := by
  cases orderly.verdict decided with
  | goesOn running more => exact timed.goesOn next run running more turn
  | renews => exact timed.renews least.1 run turn
  | resumes waited =>
    exact timed.resumed least (fun begun => began_executed run (timed.began begun)) (tenure_executed run) waited turn

theorem Timed.rests (timed : m.Timed usual first stint) (control : (m.turn t).control = m.control)
    (none : m.executed t = none) : (m.turn t).Timed usual first (stint.next first m t) := by
  have same : stint.next first m t = stint := by
    cases stint with
    | waits =>
      rw [Stint.next, if_neg]
      rw [Machine.current, control]
      exact timed.waits rfl
    | first spent => rw [Stint.next, none]
    | past => rfl
  rw [same]
  exact ⟨control ▸ timed.quantum, control ▸ timed.firstQuantum, control ▸ timed.started, control ▸ timed.low,
    control ▸ timed.high, control ▸ timed.waits, control ▸ timed.began, control ▸ timed.long⟩

theorem Timed.turn (steady : m.Steady code) (least : 1 ≤ usual ∧ 1 ≤ first)
    (before : m.control.failed = none → m.control.result = none → m.Timed usual first stint)
    (fine : (m.turn t).control.failed = none) (more : (m.turn t).control.result = none) :
    (m.turn t).Timed usual first (stint.next first m t) := by
  have outcome := steady.outcome t
  have ordered := steady.ordered
  obtain ⟨w, p⟩ := steady.paired
  generalize turn : m.turn t = m' at outcome fine more
  cases outcome with
  | rests _ control none =>
    rw [control] at fine more
    rw [← turn] at control ⊢
    exact (before fine more).rests control (m.executed_of_rests none)
  | goes next run deed _ goes =>
    have orderly := ordered.deed_orderly next.1 (p.running next.1 next.2.1) deed
    cases goes with
    | halts ended => exact absurd more ended
    | resumes _ decided =>
      rw [← turn]
      exact (before next.1 next.2.1).executed least next run orderly decided turn
  | fails _ _ failed => cases fine.symm.trans failed

/-- What any turns preserve as long as the program goes on. -/
theorem Timed.play (steady : m.Steady code) (least : 1 ≤ usual ∧ 1 ≤ first)
    (before : m.control.failed = none → m.control.result = none → m.Timed usual first stint) (ts : List Turn)
    (fine : (m.play ts).control.failed = none) (more : (m.play ts).control.result = none) :
    (m.play ts).Timed usual first (m.recount (Stint.next first) stint ts) := by
  induction ts generalizing m stint with
  | nil => exact before fine more
  | cons t ts ih => exact ih (steady.turn t) (Timed.turn steady least before) fine more

theorem withDefaults_pos (options : Options) :
    1 ≤ options.withDefaults.quantum ∧ 1 ≤ options.withDefaults.firstQuantum := by
  unfold Options.withDefaults Options.defaultQuantum Options.defaultFirstQuantum
  dsimp only
  constructor <;> split <;> omega

/-- Fiber 0 of a new machine runs, and has a slice of the usual length. -/
theorem create_timed {size : Int} {options : Options} {clock : Clock} {sink : Sink} {order : Enumeration}
    (made : Machine.create size code options clock sink order = .ok m) :
    m.Timed options.withDefaults.quantum options.withDefaults.firstQuantum .waits := by
  obtain ⟨h, -, rfl⟩ := Machine.create_eq made
  refine ⟨rfl, rfl, rfl, (withDefaults_pos options).1, Int.le_max_left _ _, fun _ => Nat.zero_ne_one,
    fun begun => absurd rfl begun, fun long => absurd long (Int.lt_irrefl _)⟩

end Timed

/-- The turn is a step that goes well. The fiber `id` is current after it and the program goes on, although somebody
is ready. -/
structure Hogs (id : Nat) (m : Machine) (t : Turn) : Prop where
  step : ∃ canceled, t = .step canceled ∧ Machine.step canceled m = .ok () (m.turn t)
  going : (m.turn t).control.result = none
  current : (m.turn t).current.id = id
  queue : (m.turn t).control.sched.ready ≠ []

section Hogs

open Scheduler (Tenure)

variable {code : Code} {usual first : Int} {stint : Stint} {m m₁ : Machine} {t : Turn} {id : Nat}

/-- The parts of a step that goes well after which the program goes on. -/
theorem Steady.resumes (steady : m.Steady code) {canceled : Bool} (run : Machine.step canceled m = .ok () (m.turn t))
    (step : t = .step canceled) (more : (m.turn t).control.result = none) : ∃ i m₁ s, m.Executes i ∧
      Exec.instr i m.begun = .ok () m₁ ∧ m.control.sched.current.state = .running ∧ m₁.control.sched.Orderly ∧
      m₁.control.sched.reschedule canceled = .ok () s ∧ m.turn t = m₁.withSched s ∧
      (m.turn t).control.failed = none := by
  subst step
  have outcome := steady.outcome (.step canceled)
  have ordered := steady.ordered
  obtain ⟨w, p⟩ := steady.paired
  obtain ⟨i, next⟩ := executes_of_step run
  have running := p.running next.1 next.2.1
  generalize m.turn (.step canceled) = m' at outcome run more
  cases outcome with
  | rests _ _ none => exact absurd next (none canceled i rfl)
  | @goes _ i _ m₁ _ next done deed _ goes =>
    cases goes with
    | halts ended => exact absurd more ended
    | resumes _ decided =>
      have fine : m₁.control.failed = none :=
        Exec.Keeps.ok (I := fun c => c.failed = none) (m := m.begun) next.1 done
      exact ⟨i, m₁, _, next, done, running, ordered.deed_orderly next.1 running deed, decided, rfl, fine⟩
  | fails _ _ _ _ _ failed => cases failed.symm.trans run

/-- Whoever stays current although somebody is ready has used up some of the slice, unless nobody was ready before
and it has been resumed. -/
theorem Hogs.left (hogs : m.Hogs id t) (steady : m.Steady code) (timed : m.Timed usual first stint)
    (own : m.current.id = id) : (m.turn t).control.sched.slice = m.control.sched.slice - 1 ∨
      m.control.sched.ready = [] ∧ (m.turn t).control.sched.slice = usual := by
  obtain ⟨canceled, step, run⟩ := hogs.step
  obtain ⟨i, m₁, s, next, done, running, orderly, decided, turn, -⟩ := steady.resumes run step hogs.going
  have tenure := tenure_executed done
  have id' : m₁.control.sched.current.id = id := (congrArg Tenure.fiber tenure).trans own
  have slice : m₁.control.sched.slice = m.control.sched.slice := congrArg Tenure.left tenure
  have sched : (m.turn t).control.sched = s := congrArg (·.control.sched) turn
  have current : s.current.id = id := sched ▸ hogs.current
  rw [sched]
  cases orderly.verdict decided with
  | goesOn => exact .inl (congrArg (· - 1) slice)
  | renews _ alone =>
    have queue := hogs.queue
    rw [sched] at queue
    exact absurd alone queue
  | @resumes s₁ waits =>
    obtain ⟨k, rest, ready⟩ := List.exists_cons_of_ne_nil waits.some
    obtain ⟨f, -, -, same, granted⟩ := waits.orderly.cons.resume_tenure ready
    obtain ⟨left, tenure₁⟩ := waits.tenure
    rw [tenure] at tenure₁
    have resumed : k = id := (congrArg Tenure.fiber granted).symm.trans current
    have here : s₁.current.id = id := (congrArg Tenure.fiber tenure₁).trans own
    have began : s₁.current.started = true := (congrArg Tenure.started tenure₁).trans timed.started
    obtain rfl := same (here.trans resumed.symm)
    refine .inr ⟨?_, ?_⟩
    · -- The first in the queue would have been resumed, and the current fiber is not queued.
      refine List.eq_nil_iff_forall_not_mem.2 fun j mem => ?_
      obtain ⟨j, others, queue⟩ := List.exists_cons_of_ne_nil (List.ne_nil_of_mem mem)
      have kept : m.control.sched.ready <+: m₁.control.sched.ready :=
        Exec.Keeps.ok (I := fun c => m.control.sched.ready <+: c.sched.ready) (m := m.begun) (List.prefix_refl _) done
      have first := waits.queue _ kept
      rw [queue, ready] at first
      obtain ⟨rfl, -⟩ := List.cons_prefix_cons.1 first
      have cons := (steady.ordered.orderly next.1).cons
      refine cons.not_queued (by rw [running]; decide) ?_
      rw [queue, show m.control.sched.current.id = j from own.trans resumed.symm]
      exact List.mem_cons_self
    · refine (congrArg Tenure.left granted).trans ?_
      rcases sliceFor_cases s₁ s₁.current with short | ⟨-, -, fresh⟩
      · exact short.trans ((congrArg Tenure.quantum tenure₁).trans timed.quantum)
      · rw [began] at fresh
        cases fresh

/-- Nobody stays current for longer than the slice that is left, or a new one. -/
theorem Timed.hogs (steady : m.Steady code) (least : 1 ≤ usual ∧ 1 ≤ first) (timed : m.Timed usual first stint)
    (own : m.current.id = id) {ts : List Turn} (along : m.Along (Hogs id) ts) :
    ts.length < m.control.sched.slice ∨ m.control.sched.ready = [] ∧ ts.length ≤ usual := by
  induction ts generalizing m stint with
  | nil => exact .inl timed.low
  | cons t ts ih =>
    obtain ⟨hogs, along⟩ := along
    obtain ⟨canceled, step, run⟩ := hogs.step
    obtain ⟨i, m₁, s, -, -, -, -, -, -, fine⟩ := steady.resumes run step hogs.going
    have timed' := Timed.turn steady least (fun _ _ => timed) fine hogs.going
    have rest := (ih (steady.turn t) timed' hogs.current along).resolve_right fun alone => hogs.queue alone.1
    rw [List.length_cons]
    rcases hogs.left steady timed own with left | ⟨alone, left⟩
    · exact .inl (by omega)
    · exact .inr ⟨alone, by omega⟩

end Hogs

end Machine

end FiberVm
