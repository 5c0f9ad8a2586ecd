import Mathlib.Logic.Function.Iterate
import FiberVm.Proofs.Machine.Decoded
import FiberVm.Proofs.Machine.Ordered

/-!
# Deadlock

When the current fiber has given up, the scheduler waits in rounds: it sleeps until the earliest timer is due, and
wakes those whose time has come. The rounds come to an end. If anyone is ready or sleeps, one of them goes on.
Otherwise all fibers of the table are blocked, and the step reports how many there are.
-/

set_option autoImplicit false

namespace FiberVm

namespace Scheduler

/-- The fiber waits for its timer. -/
def Sleeps (s : Scheduler) (id : Nat) : Prop := s.HasState id .blocked ∧ id ∈ s.timers.map Timer.fiber

/-- Nobody is ready, and nobody sleeps. -/
def Stuck (s : Scheduler) : Prop := ∀ id, ¬ s.HasState id .ready ∧ ¬ s.Sleeps id

/-- Sleeps until the earliest timer is due, and wakes those whose time has come. -/
def round (s : Scheduler) : Scheduler :=
  match s.timers with
  | [] => s
  | t :: _ => (s.sleepUntil t.deadline).poll

variable {s s' : Scheduler} {id k : Nat}

theorem round_cons {t : Timer} {rest : List Timer} (some : s.timers = t :: rest) :
    s.round = (s.sleepUntil t.deadline).poll := by
  unfold round
  rw [some]

/-- However far the timers are, waiting is a matter of finitely many rounds. -/
theorem awaitReady_rounds (s : Scheduler) : ∃ n,
    (∀ k < n, (round^[k] s).ready = [] ∧ (round^[k] s).timers ≠ []) ∧
    ((round^[n] s).ready ≠ [] ∧ awaitReady false s = .ok () (round^[n] s) ∨
      (round^[n] s).ready = [] ∧ (round^[n] s).timers = [] ∧
        awaitReady false s = .error (.deadlock (round^[n] s).blockedCount) (round^[n] s)) := by
  generalize live : false = canceled
  fun_induction awaitReady canceled s with
  | case1 s empty none => exact ⟨0, fun k lt => absurd lt (Nat.not_lt_zero k), .inr ⟨by simpa using empty, none, rfl⟩⟩
  | case2 s empty t rest some stop => cases live.trans stop
  | case3 s empty t rest some go ih =>
    obtain ⟨n, waiting, ends⟩ := ih
    rw [← round_cons some] at waiting ends ⊢
    refine ⟨n + 1, fun k lt => ?_, ends⟩
    cases k with
    | zero => exact ⟨by simpa using empty, by rw [Function.iterate_zero_apply, some]; exact List.cons_ne_nil _ _⟩
    | succ k => exact waiting k (Nat.lt_of_succ_lt_succ lt)
  | case4 s ready => exact ⟨0, fun k lt => absurd lt (Nat.not_lt_zero k), .inl ⟨by simpa using ready, rfl⟩⟩

section Polling

/-- Sleepers go on sleeping until they are ready. -/
theorem Orderly.poll_sleeper (orderly : s.Orderly) (sleeps : s.Sleeps id) :
    s.poll.HasState id .ready ∨ s.poll.Sleeps id := by
  obtain ⟨blocked, mem⟩ := sleeps
  obtain ⟨t, rest, some⟩ := List.exists_cons_of_ne_nil (List.ne_nil_of_mem (List.mem_map.1 mem).choose_spec.1)
  rw [poll_cons some]
  have looked := (orderly.undisturbed (.clock s s.look.clock) : s.look.Orderly)
  have before := (looked.setTimers (s.timers.dropWhile fun t => t.deadline ≤ s.look.clock.now)).cons
  by_cases due : id ∈ (s.timers.takeWhile fun t => t.deadline ≤ s.look.clock.now).map Timer.fiber
  · exact .inl (before.foldl_wake_ready blocked due)
  · refine .inr ⟨(Scheduler.hasState_foldl_wake _ Timer.fiber _ due).2 blocked, ?_⟩
    rw [wakeDue_timers]
    rw [← List.takeWhile_append_dropWhile (p := fun t : Timer => t.deadline ≤ s.look.clock.now) (l := s.timers),
      List.map_append, List.mem_append] at mem
    exact mem.resolve_left due

theorem Orderly.ready_poll (orderly : s.Orderly) (ready : s.HasState id .ready) : s.poll.HasState id .ready := by
  have kept : s.poll.Orderly ∧ s.poll.HasState id .ready :=
    poll_invariant (P := fun s => s.Orderly ∧ s.HasState id .ready)
      (fun s k ⟨orderly, ready⟩ => ⟨orderly.wake k, orderly.cons.ready_wake ready k⟩)
      (fun s ts c ⟨orderly, ready⟩ => ⟨(orderly.setTimers ts).undisturbed (.clock _ c), ready⟩) ⟨orderly, ready⟩
  exact kept.2

theorem Orderly.stuck_poll (orderly : s.Orderly) : s.poll.Stuck ↔ s.Stuck := by
  constructor
  · intro stuck id
    refine ⟨fun ready => (stuck id).1 (orderly.ready_poll ready), fun sleeps => ?_⟩
    exact (orderly.poll_sleeper sleeps).elim (stuck id).1 (stuck id).2
  · intro stuck
    cases timers : s.timers with
    | nil => rwa [poll_nil timers]
    | cons t rest =>
      -- Nobody is woken, since nobody who has a timer is blocked.
      have same : s.look.wakeDue =
          { s.look with timers := s.timers.dropWhile fun t => t.deadline ≤ s.look.clock.now } := by
        refine foldl_wake_of_not_blocked fun id mem blocked => ?_
        exact (stuck id).2 ⟨blocked, ((List.takeWhile_sublist _).map _).subset mem⟩
      rw [poll_cons timers, same]
      intro id
      refine ⟨(stuck id).1, fun ⟨blocked, mem⟩ => (stuck id).2 ⟨blocked, ?_⟩⟩
      exact ((List.dropWhile_sublist _).map _).subset mem

end Polling

/-- Whoever is ready or sleeps later on was ready before, or slept. -/
theorem Orderly.waits_of_continues (orderly : s.Orderly) (orderly' : s'.Orderly) (continues : s.Continues s')
    (other : s.current.id = id → s.current.state ≠ .running) (waits : s'.HasState id .ready ∨ s'.Sleeps id) :
    s.HasState id .ready ∨ s.Sleeps id := by
  obtain ⟨f, mem, own⟩ : ∃ f ∈ s'.live, f.id = id := by
    rcases waits with ready | ⟨blocked, -⟩
    · obtain ⟨f, mem, own, -⟩ := (hasState_iff (by decide)).1 ready
      exact ⟨f, mem, own⟩
    · obtain ⟨f, mem, own, -⟩ := (hasState_iff (by decide)).1 blocked
      exact ⟨f, mem, own⟩
  obtain ⟨g, mem', same⟩ := List.mem_map.1 (continues.fibers.mem_iff.1 (List.mem_map_of_mem mem))
  have own' : g.id = id := (congrArg Fiber.id same).trans own
  have before : g.state = .ready ∨ g.state = .blocked := by
    rcases mem_live.1 mem' with ⟨rfl, alive⟩ | mem'
    · cases state : s.current.state with
      | ready => exact .inl rfl
      | blocked => exact .inr rfl
      | running => exact absurd state (other own')
      | terminated => exact absurd state alive
    · exact orderly.waiting g mem'
  rcases before with ready | blocked
  · exact .inl ((hasState_iff (by decide)).2 ⟨g, mem', own', ready⟩)
  · have blocked := (hasState_iff (by decide)).2 ⟨g, mem', own', blocked⟩
    refine .inr ⟨blocked, ?_⟩
    rcases waits with ready | ⟨-, armed⟩
    · refine (continues.blocked id blocked).resolve_left fun still => ?_
      cases orderly'.cons.hasState_unique still ready
    · exact (continues.timers.map _).subset armed

/-- Waiting has led from one scheduler to the other. -/
structure Awaits (s s' : Scheduler) : Prop where
  orderly : s'.Orderly
  idle : s'.current.state ≠ .running
  continues : s.Continues s'
  stuck : s'.Stuck ↔ s.Stuck

theorem Awaits.poll (awaits : s.Awaits s') : s.Awaits s'.poll :=
  ⟨awaits.orderly.poll, poll_idle awaits.idle, awaits.continues.trans (.poll s'),
    awaits.orderly.stuck_poll.trans awaits.stuck⟩

theorem Awaits.round (awaits : s.Awaits s') : s.Awaits s'.round := by
  unfold Scheduler.round
  split
  · exact awaits
  · next t rest some =>
    have slept : s'.Undisturbed (s'.sleepUntil t.deadline) := .clock s' _
    refine Awaits.poll ⟨awaits.orderly.undisturbed slept, awaits.idle, awaits.continues.trans (.of_same slept rfl), ?_⟩
    exact awaits.stuck

theorem Awaits.rounds (awaits : s.Awaits s') (n : Nat) : s.Awaits (Scheduler.round^[n] s') := by
  induction n with
  | zero => exact awaits
  | succ n ih =>
    rw [Function.iterate_succ_apply']
    exact ih.round

section Waiting

variable (orderly : s.Orderly) (idle : s.current.state ≠ .running)

include orderly idle

/-- All who are left are blocked. -/
theorem Orderly.all_blocked (stuck : s.Stuck) {f : Fiber} (mem : f ∈ s.live) : f.state = .blocked := by
  rcases mem_live.1 mem with ⟨rfl, alive⟩ | mem
  · cases state : s.current.state with
    | ready => exact absurd (.inl ⟨rfl, state⟩) (stuck s.current.id).1
    | blocked => rfl
    | running => exact absurd state idle
    | terminated => exact absurd state alive
  · exact (orderly.waiting f mem).resolve_left fun ready => (stuck f.id).1 (.inr ⟨f, mem, rfl, ready⟩)

theorem Orderly.blockedCount (stuck : s.Stuck) : s.blockedCount = s.live.length := by
  refine List.countP_eq_length.2 fun f mem => ?_
  rw [orderly.all_blocked idle stuck mem]
  rfl

/-- After finitely many rounds one who was ready or slept goes on, or all are blocked for good. -/
theorem Orderly.next_rounds : ∃ n s', round^[n] s.poll = s' ∧
    (∀ k < n, (round^[k] s.poll).ready = [] ∧ (round^[k] s.poll).timers ≠ []) ∧
    ((¬ s.Stuck ∧ s'.ready ≠ [] ∧ next false s = .ok () s'.resume ∧ s'.resume.current.state = .running ∧
        (s.HasState s'.resume.current.id .ready ∨ s.Sleeps s'.resume.current.id)) ∨
      (s.Stuck ∧ s'.ready = [] ∧ s'.timers = []) ∧ next false s = .error (.deadlock s.live.length) s' ∧
        s'.live.length = s.live.length ∧ ∀ f ∈ s'.live, f.state = .blocked) := by
  obtain ⟨n, waiting, ends⟩ := awaitReady_rounds s.poll
  have start : s.Awaits s := ⟨orderly, idle, .refl s, .rfl⟩
  have awaits := start.poll.rounds n
  refine ⟨n, _, rfl, waiting, ?_⟩
  generalize round^[n] s.poll = s' at ends awaits
  rcases ends with ⟨some, run⟩ | ⟨none, unarmed, run⟩
  · obtain ⟨id, rest, queue⟩ := List.exists_cons_of_ne_nil some
    have ready : s'.HasState id .ready := awaits.orderly.cons.queued id (queue ▸ List.mem_cons_self)
    refine .inl ⟨fun stuck => (awaits.stuck.2 stuck id).1 ready, some, by rw [next, run],
      (awaits.orderly.resume some awaits.idle).2, ?_⟩
    have first : s'.resume.current.id = id := by
      obtain ⟨-, -, -, ⟨own, -, current, -⟩ | ⟨f, -, own, -, -, current, -⟩⟩ :=
        awaits.orderly.cons.resume_cases queue <;> rw [current] <;> exact own
    rw [first]
    exact orderly.waits_of_continues awaits.orderly awaits.continues (fun _ => idle) (.inl ready)
  · have stuck : s'.Stuck := fun id => by
      refine ⟨fun ready => ?_, fun ⟨_, mem⟩ => ?_⟩
      · have mem := awaits.orderly.queue id ready
        rw [none] at mem
        cases mem
      · rw [unarmed] at mem
        cases mem
    have same : s'.live.length = s.live.length := by simpa using awaits.continues.fibers.length_eq
    refine .inr ⟨⟨awaits.stuck.1 stuck, none, unarmed⟩, ?_, same, fun f => awaits.orderly.all_blocked awaits.idle stuck⟩
    rw [next, run, awaits.orderly.blockedCount awaits.idle stuck, same]

end Waiting

/-- The current fiber has given up, nobody is ready, and no timer is armed for anyone who is blocked. -/
structure Deadlocked (s : Scheduler) : Prop where
  idle : s.current.state = .blocked ∨ s.current.state = .terminated
  ready : ∀ f ∈ s.live, f.state ≠ .ready
  sleepers : ∀ f ∈ s.live, f.state = .blocked → ∀ t ∈ s.timers, t.fiber ≠ f.id

/-- The fiber is the one that runs, or it is ready or sleeps. -/
def Lively (s : Scheduler) (id : Nat) : Prop :=
  (s.current.id = id ∧ s.current.state = .running) ∨ s.HasState id .ready ∨ s.Sleeps id

theorem deadlocked_iff (s : Scheduler) : s.Deadlocked ↔ s.current.state ≠ .running ∧ s.Stuck := by
  constructor
  · rintro ⟨idle, ready, sleepers⟩
    refine ⟨fun running => ?_, fun id => ⟨fun is => ?_, fun ⟨blocked, mem⟩ => ?_⟩⟩
    · rcases idle with is | is <;> cases is.symm.trans running
    · obtain ⟨f, mem, -, is⟩ := (hasState_iff (by decide)).1 is
      exact ready f mem is
    · obtain ⟨f, inside, rfl, is⟩ := (hasState_iff (by decide)).1 blocked
      obtain ⟨t, armed, own⟩ := List.mem_map.1 mem
      exact sleepers f inside is t armed own
  · rintro ⟨idle, stuck⟩
    refine ⟨?_, fun f mem is => ?_, fun f mem is t armed own => ?_⟩
    · cases state : s.current.state with
      | ready => exact absurd (.inl ⟨rfl, state⟩) (stuck s.current.id).1
      | blocked => exact .inl rfl
      | running => exact absurd state idle
      | terminated => exact .inr rfl
    · exact (stuck f.id).1 ((hasState_iff (by decide)).2 ⟨f, mem, rfl, is⟩)
    · refine (stuck f.id).2 ⟨(hasState_iff (by decide)).2 ⟨f, mem, rfl, is⟩, ?_⟩
      exact own ▸ List.mem_map_of_mem armed

/-- What the scheduler decides after an instruction. -/
theorem Orderly.reschedule_cases (orderly : s.Orderly) :
    (s.Deadlocked ∧ ∃ s', reschedule false s = .error (.deadlock s.live.length) s' ∧
        s'.live.length = s.live.length ∧ ∀ f ∈ s'.live, f.state = .blocked) ∨
      ¬ s.Deadlocked ∧ ∃ s', reschedule false s = .ok () s' ∧ s'.current.state = .running ∧ s.Lively s'.current.id := by
  by_cases running : s.current.state = .running
  · have alive : ¬ s.Deadlocked := fun dead => ((deadlocked_iff s).1 dead).1 running
    have charged : s.Undisturbed s.charge := .charge s
    have orderly₁ := (orderly.undisturbed charged).poll
    have running₁ : s.charge.poll.current.state = .running := poll_running running
    refine .inr ⟨alive, ?_⟩
    rw [reschedule_of_running running]
    split
    · exact ⟨_, rfl, running, .inl ⟨rfl, running⟩⟩
    split
    · have same : s.charge.poll.current.id = s.current.id :=
        poll_invariant (P := fun s' => s'.current.id = s.current.id)
          (fun s' id same => (s'.current_id_wake id).trans same) (fun _ _ _ same => same) rfl
      exact ⟨_, rfl, running₁, .inl ⟨same.symm, running⟩⟩
    · -- The current fiber is ready itself, so somebody goes on.
      have continues := ((Continues.of_same charged rfl).trans (.poll _)).trans (.preempt running₁)
      have orderly₂ := orderly₁.preempt running₁
      have ready : s.charge.poll.preempt.HasState s.charge.poll.preempt.current.id .ready := .inl ⟨rfl, rfl⟩
      obtain ⟨n, s', -, -, ⟨-, -, run, resumed, waits⟩ | ⟨⟨stuck, -⟩, -⟩⟩ := orderly₂.next_rounds nofun
      · refine ⟨_, run, resumed, ?_⟩
        by_cases other : s.current.id = s'.resume.current.id
        · exact .inl ⟨other, running⟩
        · exact .inr (orderly.waits_of_continues orderly₂ continues (fun same => absurd same other) waits)
      · exact absurd ready (stuck _).1
  · rw [reschedule_of_blocked running, deadlocked_iff]
    obtain ⟨n, s', -, -, ⟨lively, -, run, resumed, waits⟩ | ⟨⟨stuck, -⟩, ends⟩⟩ := orderly.next_rounds running
    · exact .inr ⟨fun dead => lively dead.2, _, run, resumed, .inr waits⟩
    · exact .inl ⟨⟨running, stuck⟩, s', ends⟩

end Scheduler

namespace Machine

/-- The instruction that a step executes leads here without a fault, and the program is not over. -/
def Leaves (m m₁ : Machine) : Prop := (∃ i, m.executed (.step false) = some (i, m₁)) ∧ m₁.control.result = none

/-- A step ends in a fault for this cause. A machine that has failed before only says so again. -/
def Raises (m : Machine) (c : Cause) (m' : Machine) : Prop :=
  m.control.failed = none ∧ ∃ f, step false m = .error (.fault f) m' ∧ f.cause = c

/-- How a step decides who goes on. -/
structure Decides (m : Machine) : Prop where
  /-- A deadlock is reported if and only if there is one. -/
  deadlock : ∀ n, (∃ m', m.Raises (.deadlock n) m') ↔
    ∃ m₁, m.Leaves m₁ ∧ m₁.control.sched.Deadlocked ∧ n = m₁.fibers.length
  /-- It is the number of those who are blocked that is reported. -/
  blocked : ∀ n m', m.Raises (.deadlock n) m' → (∀ f ∈ m'.fibers, f.state = .blocked) ∧ n = m'.fibers.length
  resumes : ∀ m₁, m.Leaves m₁ → ¬ m₁.control.sched.Deadlocked → ∃ m', step false m = .ok () m' ∧
    m'.current.state = .running ∧ m₁.control.sched.Lively m'.current.id
  /-- Waiting comes to an end. -/
  rounds : ∀ m₁, m.Leaves m₁ → m₁.current.state ≠ .running → ∃ n s, Scheduler.round^[n] m₁.control.sched.poll = s ∧
    (∀ k < n, (Scheduler.round^[k] m₁.control.sched.poll).ready = [] ∧
      (Scheduler.round^[k] m₁.control.sched.poll).timers ≠ []) ∧
    (s.ready ≠ [] ∨ s.timers = []) ∧ (m.turn (.step false)).control.sched = s.resume
  /-- No timer is left of someone who has been woken otherwise. -/
  armed : ∀ m₁, m.Leaves m₁ → m₁.control.sched.nextId ≤ UInt32.size →
    (∀ t ∈ m₁.control.sched.timers, ∃ f ∈ m₁.fibers, f.id = t.fiber ∧ f.state = .blocked) ∧
    (m₁.control.sched.Deadlocked → m₁.control.sched.timers = [])

section Steps

variable {m m₁ : Machine} {s : Scheduler}

/-- The scheduler decides how the step ends. -/
theorem Leaves.step (leaves : m.Leaves m₁) :
    ∃ op, step false m = conclude m.current.id m.current.pc op (Exec.reschedule false m₁) := by
  obtain ⟨⟨i, has⟩, more⟩ := leaves
  obtain ⟨⟨fine, ongoing, fetched⟩, first⟩ := executes_of_executed has
  have run : Machine.step false m = conclude m.current.id m.current.pc i.opcode
    ((Exec.instr i >>= fun _ => Exec.finish false) m.begun) := step_of_instr fine ongoing fetched
  rw [bind_of_ok first, finish_eq, more] at run
  exact ⟨i.opcode, run⟩

theorem Leaves.step_ok (leaves : m.Leaves m₁) (run : m₁.control.sched.reschedule false = .ok () s) :
    Machine.step false m = .ok () (m₁.withSched s) := by
  obtain ⟨op, step⟩ := leaves.step
  rw [step, Exec.reschedule_eq, run]
  rfl

theorem Leaves.step_error (leaves : m.Leaves m₁) {c : Cause} (run : m₁.control.sched.reschedule false = .error c s) :
    ∃ f m', Machine.step false m = .error (.fault f) m' ∧ f.cause = c ∧ m'.control.sched = s := by
  obtain ⟨op, step⟩ := leaves.step
  rw [step, Exec.reschedule_eq, run]
  exact ⟨_, _, rfl, rfl, rfl⟩

theorem Leaves.fine (leaves : m.Leaves m₁) : m.control.failed = none :=
  (executes_of_executed leaves.1.choose_spec).1.1

variable {code : Code}

theorem Leaves.ordered (leaves : m.Leaves m₁) (steady : m.Steady code) :
    m₁.control.sched.Orderly ∧ (m₁.control.sched.nextId ≤ UInt32.size → m₁.InOrder) := by
  have fine := leaves.fine
  obtain ⟨⟨i, has⟩, -⟩ := leaves
  obtain ⟨-, ⟨w, p⟩, wired, ordered⟩ := steady
  obtain ⟨next, first⟩ := executes_of_executed has
  have does := p.does wired next
  rw [first] at does
  obtain ⟨l, deed, -⟩ := does
  have running := p.running next.1 next.2.1
  exact ⟨ordered.deed_orderly fine running deed, ordered.deed_inOrder running wired deed⟩

/-- Deadlock is reported by the scheduler only. -/
theorem Raises.leaves {m' : Machine} {n : Nat} (raises : m.Raises (.deadlock n) m')
    (checked : ∀ i, some i ∈ m.control.code.toList → ∃ size, i.Checked size) :
    ∃ m₁ s, m.Leaves m₁ ∧ m₁.control.sched.reschedule false = .error (.deadlock n) s := by
  obtain ⟨fine, f, run, cause⟩ := raises
  have faults := faults_of_step fine run
  rw [cause] at faults
  cases faults with
  | stuck more stuck =>
    rw [advance_snd] at stuck
    split at stuck
    · cases stuck
    unfold Control.fetch at stuck
    dsimp only at stuck
    split at stuck
    · cases stuck
    split at stuck <;> cases stuck
  | instr executes first =>
    obtain ⟨size, valid⟩ := checked _ executes.mem_code
    cases (Exec.tame_instr valid).usual _ _ _ first
  | sched executes first more decided => exact ⟨_, _, ⟨⟨_, executed_of_executes false executes first⟩, more⟩, decided⟩

theorem Steady.decides (steady : m.Steady code)
    (checked : ∀ i, some i ∈ m.control.code.toList → ∃ size, i.Checked size) : m.Decides := by
  have orderly : ∀ {m₁}, m.Leaves m₁ → m₁.control.sched.Orderly := fun leaves => (leaves.ordered steady).1
  refine ⟨fun n => ⟨?_, ?_⟩, fun n m' raises => ?_, fun m₁ leaves alive => ?_, fun m₁ leaves idle => ?_,
    fun m₁ leaves few => ?_⟩
  · rintro ⟨m', raises⟩
    obtain ⟨m₁, s, leaves, decided⟩ := raises.leaves checked
    rcases (orderly leaves).reschedule_cases with ⟨dead, s', run, -⟩ | ⟨-, s', run, -⟩
    · cases run.symm.trans decided
      exact ⟨m₁, leaves, dead, rfl⟩
    · cases run.symm.trans decided
  · rintro ⟨m₁, leaves, dead, rfl⟩
    rcases (orderly leaves).reschedule_cases with ⟨-, s', run, -⟩ | ⟨alive, -⟩
    · obtain ⟨f, m', step, cause, -⟩ := leaves.step_error run
      exact ⟨m', leaves.fine, f, step, cause⟩
    · exact absurd dead alive
  · obtain ⟨m₁, s, leaves, decided⟩ := raises.leaves checked
    obtain ⟨f, m'', step, -, sched⟩ := leaves.step_error decided
    obtain ⟨-, f', step', -⟩ := raises
    cases step.symm.trans step'
    rcases (orderly leaves).reschedule_cases with ⟨dead, s', run, same, blocked⟩ | ⟨-, s', run, -⟩
    · cases run.symm.trans decided
      rw [fibers, sched]
      exact ⟨blocked, same.symm⟩
    · cases run.symm.trans decided
  · rcases (orderly leaves).reschedule_cases with ⟨dead, -⟩ | ⟨-, s', run, running, lively⟩
    · exact absurd dead alive
    · exact ⟨_, leaves.step_ok run, running, lively⟩
  · have decided : m₁.control.sched.reschedule false = m₁.control.sched.next false :=
      Scheduler.reschedule_of_blocked idle
    obtain ⟨n, s, same, waiting, ⟨-, some, run, -⟩ | ⟨⟨-, none, unarmed⟩, run, -⟩⟩ :=
      (orderly leaves).next_rounds idle
    · refine ⟨n, s, same, waiting, .inl some, ?_⟩
      rw [turn_of_run (t := .step false) (leaves.step_ok (decided.trans run))]
      rfl
    · obtain ⟨f, m', step, -, sched⟩ := leaves.step_error (decided.trans run)
      refine ⟨n, s, same, waiting, .inr unarmed, ?_⟩
      rw [turn_of_run (t := .step false) step, Scheduler.resume, none]
      exact sched
  · have armed : ∀ t ∈ m₁.control.sched.timers, ∃ f ∈ m₁.fibers, f.id = t.fiber ∧ f.state = .blocked := by
      intro t mem
      have order := (leaves.ordered steady).2 few
      exact (Scheduler.hasState_iff (by decide)).1 (order.parked.blocked none _ (List.mem_map_of_mem mem))
    refine ⟨armed, fun dead => List.eq_nil_iff_forall_not_mem.2 fun t mem => ?_⟩
    obtain ⟨f, inside, own, blocked⟩ := armed t mem
    exact dead.sleepers f inside blocked t mem own.symm

end Steps

/-- In every state that a decoded program reaches by steps and collections, if it assigns nothing to the outermost
frame, a step reports a deadlock exactly when there is one. Otherwise somebody goes on. -/
theorem play_decides {p : Program Datum} {is : List Instr} (decoded : p.instrs = .ok is)
    (inner : ∀ pos sym, Instr.assign pos sym ∈ is → pos.frame ≠ 0) {size : Int} {options : Options}
    {clock : Clock} {sink : Sink} {m : Machine}
    (made : Machine.create size (Code.ofInstrs is) options clock sink = .ok m) (ts : List Turn) :
    (m.play ts).Decides := by
  have steady := (create_steady decoded inner made).play ts
  refine steady.decides fun i mem => ⟨is.length, ?_⟩
  obtain ⟨w, paired⟩ := steady.paired
  have same : (m.play ts).control.code = Code.ofInstrs is := paired.alike.control.program
  rw [same] at mem
  exact Program.checked_of_instrs decoded i (by simpa [Code.ofInstrs] using mem)

/-- Receives from a channel on which nobody sends. -/
def silentProgram : Program Datum :=
  { version := 1
    records := [{ opcode := "LD", value := .null, position := [0, 3], sym := "make" },
      { opcode := "LDC", value := .null }, { opcode := "LDC", value := .int 0 },
      { opcode := "CALL", value := .null, arity := 2 }, { opcode := "RECV", value := .null },
      { opcode := "DONE", value := .null }] }

def silentInstrs : List Instr :=
  [.load ⟨0, 3⟩ "make", .loadConst .nil, .loadConst (.int .int64 0), .call 2, .recv, .done]

/-- The states of the fibers between the next instruction and the decision of the scheduler, if nobody sleeps. -/
def silence (m : Machine) : Option (FiberState × List FiberState) :=
  match m.executed (.step false) with
  | some (_, m₁) =>
    if m₁.control.result = none ∧ m₁.control.sched.timers = [] then some (m₁.current.state, m₁.fibers.map Fiber.state)
    else none
  | none => none

theorem leaves_of_silence {m : Machine} {is : FiberState} {states : List FiberState}
    (silent : m.silence = some (is, states)) : ∃ m₁, m.Leaves m₁ ∧ m₁.control.sched.timers = [] ∧
      m₁.current.state = is ∧ m₁.fibers.map Fiber.state = states := by
  unfold silence at silent
  split at silent
  · next i m₁ has =>
    split at silent
    · next quiet =>
      cases silent
      exact ⟨m₁, ⟨⟨i, has⟩, quiet.1⟩, quiet.2, rfl, rfl⟩
    · cases silent
  · cases silent

/-- The one fiber is parked at the channel, and the step reports it. -/
theorem play_decides_silent : ∃ m, silentProgram.instrs = .ok silentInstrs ∧
    (∀ pos sym, Instr.assign pos sym ∈ silentInstrs → pos.frame ≠ 0) ∧
    Machine.create 336 (Code.ofInstrs silentInstrs) {} = .ok m ∧
    ∃ m', (m.play (List.replicate 4 (.step false))).Raises (.deadlock 1) m' := by
  have inner : ∀ pos sym, Instr.assign pos sym ∈ silentInstrs → pos.frame ≠ 0 := by
    intro pos sym mem
    simp [silentInstrs] at mem
  obtain ⟨m, made, silent⟩ : ∃ m, Machine.create 336 (Code.ofInstrs silentInstrs) {} = .ok m ∧
      (m.play (List.replicate 4 (.step false))).silence = some (.blocked, [.blocked]) :=
    ⟨_, Machine.create_listed rfl, by decide +kernel⟩
  have decoded : silentProgram.instrs = .ok silentInstrs := rfl
  have decides := play_decides decoded inner made (List.replicate 4 (.step false))
  obtain ⟨m₁, leaves, timers, is, states⟩ := leaves_of_silence silent
  have dead : m₁.control.sched.Deadlocked := by
    refine ⟨.inl is, fun f mem ready => ?_, fun f mem blocked t armed => ?_⟩
    · have blocked : f.state ∈ [FiberState.blocked] := states ▸ List.mem_map_of_mem mem
      cases ready.symm.trans (List.mem_singleton.1 blocked)
    · rw [timers] at armed
      cases armed
  have one : 1 = m₁.fibers.length := by rw [← List.length_map Fiber.state, states]; rfl
  exact ⟨m, decoded, inner, made, (decides.deadlock 1).2 ⟨m₁, leaves, dead, one⟩⟩

end Machine

end FiberVm
