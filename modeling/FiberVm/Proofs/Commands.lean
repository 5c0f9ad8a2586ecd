import FiberVm.Proofs.Stepping

/-!
# What the commands of a debugger fail with

A command that moves the machine fails as the step does that it cannot make. But before the first step it may look at
the machine by itself. To step out it reads the tags of all that is on the runtime stack of the current fiber. Whatever
the program is, that stack lies inside the heap, also when the fiber has ended and when the machine has failed. To step
over it reads the next instruction, and crashes where a step would have told that there is none.
-/

set_option autoImplicit false

namespace FiberVm

open Heap (NodeIn)

/-- Whatever is on the runtime stack of the current fiber lies inside the heap, though the fiber may have ended. -/
def Machine.StackInside (m : Machine) : Prop := ∀ a ∈ m.current.frames, NodeIn m.heap.words a

namespace Scheduler

section Waiting

variable {s s' : Scheduler} {canceled : Bool} {c : Cause}

theorem context_poll (s : Scheduler) : s.poll.current.context = s.current.context :=
  poll_invariant (P := fun s' => s'.current.context = s.current.context)
    (fun s' id same => (s'.context_wake id).1.trans same) (fun _ _ _ same => same) rfl

theorem context_awaitReady (run : awaitReady canceled s = .error c s') : s'.current.context = s.current.context := by
  fun_induction Scheduler.awaitReady canceled s with
  | case1 s empty none =>
    cases run
    rfl
  | case2 s empty t rest some stop =>
    cases run
    rfl
  | case3 s empty t rest some go ih => exact (ih run).trans (context_poll _)
  | case4 => cases run

/-- When there is nobody to go on, the fiber that is current is where it was. -/
theorem context_reschedule (run : reschedule canceled s = .error c s') : s'.current.context = s.current.context := by
  have waits : ∀ {s : Scheduler}, next canceled s = .error c s' → s'.current.context = s.current.context := fun run =>
    (context_awaitReady (next_error run)).trans (context_poll _)
  by_cases running : s.current.state = .running
  · rw [reschedule_of_running running] at run
    split at run
    · cases run
    split at run
    · cases run
    · have preempted : s'.current.context = s.charge.poll.preempt.current.context := waits run
      exact preempted.trans (context_poll s.charge)
  · rw [reschedule_of_blocked running] at run
    exact waits run

end Waiting

end Scheduler

namespace Machine

section Stacks

variable {c : Code} {P : Int → Prop} {m m' : Machine} {i : Instr} {n : Nat}

theorem StackInside.of_same (inside : m.StackInside) (frames : m'.current.frames = m.current.frames)
    (size : m'.heap.words.size = m.heap.words.size) : m'.StackInside := by
  intro a mem
  have node := inside a (frames ▸ mem)
  rwa [NodeIn, ← size] at node

theorem Sturdy.stackInside (sturdy : m.Sturdy c P) (alive : m.current.state ≠ .terminated) : m.StackInside :=
  fun a mem => ((sturdy.fit.typed.current alive).frames a mem).elim And.left And.left

/-- A fiber that ends leaves its stack behind, and any other instruction leaves the fiber alive. -/
theorem StackInside.instr (inside : m.StackInside) (running : m.Running) (next : m.Executes i) :
    Settles (fun m₁ => m₁.Sturdy c P → m₁.StackInside) (Exec.instr i m.begun) := by
  by_cases stops : i = .stopFiber
  · subst stops
    exact fun _ => inside
  · have lasts : Exec.Keeps (fun c => c.sched.current.state ≠ .terminated) (Exec.instr i) := .instr_of_ne stops
    have runs : m.begun.control.sched.current.state = .running := running next.1 next.2.1
    have alive := lasts.keeps m.begun (by rw [runs]; decide)
    cases run : Exec.instr i m.begun with
    | ok u m₁ =>
      rw [run] at alive
      exact fun sturdy => sturdy.stackInside alive
    | error e m₁ =>
      rw [run] at alive
      exact fun sturdy => sturdy.stackInside alive

theorem StackInside.executed (inside : m.StackInside) (sturdy : m.Sturdy c P) (running : m.Running) (leads : c.Leads P)
    (next : m.Executes i) {canceled : Bool} (sound : ¬ m.Crashes (.step canceled)) :
    (m.turn (.step canceled)).StackInside := by
  have treads := (sturdy.treads running leads next).yields
  have kept : Settles (fun m₁ => m₁.Sturdy c P → m₁.StackInside) (Exec.instr i m.begun) := inside.instr running next
  cases next.ends canceled with
  | crashes _ step => exact absurd ⟨_, _, step⟩ sound
  | faults run step =>
    rw [run] at treads kept
    rw [turn_of_run step]
    exact kept treads
  | @goes m₁ m' run goes step =>
    rw [run] at treads kept
    have passes : m.begun.Passes c P i m₁ := treads
    rw [turn_of_run step, left]
    by_cases more : m'.control.result = none
    · refine (goes.sturdy passes.sturdy).1.stackInside ?_
      rw [goes.current_running passes.sturdy more]
      decide
    · cases goes with
      | halts => exact kept passes.sturdy
      | resumes ongoing => exact absurd ongoing more
  | @stalls _ m₁ _ run _ decided step =>
    rw [run] at treads kept
    have passes : m.begun.Passes c P i m₁ := treads
    rw [turn_of_run step]
    exact (kept passes.sturdy).of_same (congrArg Context.frames (Scheduler.context_reschedule decided)) rfl

/-- What one turn preserves. -/
theorem StackInside.turn (inside : m.StackInside) (sturdy : m.Sturdy c P) (running : m.Running) (leads : c.Leads P)
    {t : Turn} (sound : ¬ m.Crashes t) : (m.turn t).StackInside := by
  cases t with
  | collect =>
    cases sturdy.course running leads .collect sound with
    | rests _ control _ _ drift => exact inside.of_same (by rw [current, control]; rfl) drift.size
    | fails _ _ failed =>
      unfold perform at failed
      dsimp only at failed
      split at failed <;> cases failed
  | step canceled =>
    cases m.attempt canceled with
    | failed _ _ step =>
      rw [turn_of_run (t := .step canceled) step]
      exact inside
    | ended _ _ _ step =>
      rw [turn_of_run (t := .step canceled) step]
      exact inside
    | stuck _ _ _ step =>
      rw [turn_of_run (t := .step canceled) step]
      exact inside
    | executes next => exact inside.executed sturdy running leads next sound

theorem StackInside.play (inside : m.StackInside) (sturdy : m.Sturdy c P) (running : m.Running) (leads : c.Leads P)
    {ts : List Turn} (sound : m.Along (fun m t => ¬ m.Crashes t) ts) : (m.play ts).StackInside := by
  induction ts generalizing m with
  | nil => exact inside
  | cons t ts ih =>
    obtain ⟨sturdy', running'⟩ := (sturdy.course running leads t sound.1).sturdy running
    exact ih (inside.turn sturdy running leads sound.1) sturdy' running' sound.2

theorem StackInside.walk (inside : m.StackInside) (sturdy : m.Sturdy c P) (running : m.Running) (leads : c.Leads P)
    (strides : m.Strides n) : (m.walk n).StackInside := by
  induction n with
  | zero => exact inside
  | succ n ih =>
    obtain ⟨sturdy', running'⟩ := sturdy.walk running leads strides (Nat.le_succ n)
    rw [walk_succ]
    exact (ih fun k below => strides k (Nat.lt_succ_of_lt below)).turn sturdy' running' leads
      (strides.smooth (Nat.lt_succ_self n)).not_crashes

end Stacks

theorem create_stackInside {size : Int} {code : Code} {options : Options} {clock : Clock} {sink : Sink}
    {order : Enumeration} {m : Machine} (made : Machine.create size code options clock sink order = .ok m) :
    m.StackInside := by
  obtain ⟨h, -, rfl⟩ := Machine.create_eq made
  intro a mem
  cases mem

end Machine

namespace Debugger

section Commands

variable {d d' : Debugger} {spent : Nat → Prop} {r : EStateM.Result Machine.Error Debugger StopEvent}

/-- A movement that crashes has come to a step that crashes. -/
theorem Travels.crashes {c : Crash} (travels : d.Travels spent (.error (.crash c) d')) :
    ∃ k, (∀ i < k, d.Passes (d.machine.walk i) (d.machine.walk (i + 1))) ∧
      Machine.step false (d.machine.walk k) = .error (.crash c) d'.machine := by
  obtain ⟨k, passes, last⟩ := travels
  cases last with
  | errs step => exact ⟨k, passes, step⟩

/-- Where the first step fails, a movement fails with it. -/
theorem Travels.fails (travels : d.Travels spent r) {e : Machine.Error} {m : Machine}
    (step : Machine.step false d.machine = .error e m) : ∃ d', r = .error e d' ∧ d'.machine = m ∧ d.Same d' := by
  obtain ⟨k, passes, last⟩ := travels
  cases k with
  | succ k => cases step.symm.trans (passes 0 (Nat.succ_pos k)).step
  | zero =>
    have step : Machine.step false (d.machine.walk 0) = .error e m := step
    cases last with
    | errs error same =>
      cases step.symm.trans error
      exact ⟨_, rfl, rfl, same⟩
    | halts ok => cases step.symm.trans ok
    | hits ok => cases step.symm.trans ok
    | done passes => cases step.symm.trans passes.step
    | cut _ passes => cases step.symm.trans passes.step

/-- The command, with a host that may have given up. -/
def Movement.under (canceled : Bool) : Movement → Command StopEvent
  | step n => Debugger.step canceled n
  | stepOver => Debugger.stepOver canceled
  | stepOut => Debugger.stepOut canceled
  | resume => Debugger.resume canceled

theorem runUntil_canceled (stop : Machine → Bool) (d : Debugger) :
    runUntil true stop d.fuel d = .error .canceled d := rfl

theorem stepMore_canceled (n : Nat) (d : Debugger) : stepMore true n d = .error .canceled d := by
  cases n <;> rfl

/-- A host that has given up is told so before the first step. -/
theorem Movement.under_canceled (movement : Movement)
    (readable : movement = .stepOver → ∀ c, ¬ Unreadable d.machine c) :
    movement.under true d = .error .canceled d := by
  cases movement with
  | step n => exact stepMore_canceled _ d
  | resume => exact runUntil_canceled (fun _ => false) d
  | stepOut =>
    change Debugger.stepOut true d = _
    unfold Debugger.stepOut
    dsimp only
    split <;> exact runUntil_canceled _ d
  | stepOver =>
    rcases stepOver_cases true d with ⟨c, unreadable, -⟩ | run | ⟨back, run⟩
    · exact absurd unreadable (readable rfl c)
    · exact run.trans (stepMore_canceled _ d)
    · exact run.trans (runUntil_canceled back d)

/-- The command fails as the machine does. -/
structure Movement.FailsAlike (movement : Movement) (d : Debugger) : Prop where
  /-- It makes steps until one of them fails or something stops it, unless it would go on forever. -/
  travels : d.Travels (fun k => d.machine.control.stepLimit ≤ 0 ∧ k = Machine.patience + 1) (movement.under false d)
  /-- It crashes only with a step that does. -/
  crashes : ∀ c d', movement.under false d = .error (.crash c) d' → ∃ k,
    (∀ i < k, d.Passes (d.machine.walk i) (d.machine.walk (i + 1))) ∧
      Machine.step false (d.machine.walk k) = .error (.crash c) d'.machine
  /-- What a step cannot do it cannot do either, for the same reason. -/
  fails : ∀ e m, Machine.step false d.machine = .error e m →
    ∃ d', movement.under false d = .error e d' ∧ d'.machine = m ∧ d.Same d'
  canceled : movement.under true d = .error .canceled d

theorem Movement.failsAlike (movement : Movement) (readable : movement = .stepOver → ∀ c, ¬ Unreadable d.machine c) :
    movement.FailsAlike d := by
  have same : movement.under false = movement.command := by cases movement <;> rfl
  have travels := movement.travels readable
  rw [← same] at travels
  exact ⟨travels, fun c d' crash => (crash ▸ travels).crashes, fun e m => travels.fails,
    movement.under_canceled readable⟩

end Commands

/-- In every state that a program reaches without a crash, whatever its instructions are, a command fails as the machine
does, with one exception: stepping over crashes where a fiber is before the first instruction, or where the next one is
missing. The runtime stack that a command looks at, before its first step and after each of them, lies inside the
heap. -/
theorem commands_fail_as_steps {size : Int} {code : Code} {options : Options} {clock : Clock} {sink : Sink}
    {order : Enumeration} {m : Machine} (made : Machine.create size code options clock sink order = .ok m)
    {ts : List Turn} (sound : m.Along (fun m t => ¬ m.Crashes t) ts) {d : Debugger} (attached : d.machine = m.play ts)
    (movement : Movement) :
    ((movement = .stepOver → ∀ c, ¬ Unreadable d.machine c) → movement.FailsAlike d) ∧
      (∀ c, Unreadable d.machine c → ∀ canceled, Debugger.stepOver canceled d = .error (.crash c) d) ∧
      ∀ k, (∀ i < k, d.Passes (d.machine.walk i) (d.machine.walk (i + 1))) → (d.machine.walk k).StackInside := by
  refine ⟨movement.failsAlike, fun c unreadable canceled => stepOver_unreadable unreadable canceled, fun k passes => ?_⟩
  have leads := code.leads_anywhere
  obtain ⟨sturdy, running⟩ := Machine.create_sturdy leads made
  have reached := (Machine.create_stackInside made).play sturdy running leads sound
  obtain ⟨sturdy', running'⟩ := sturdy.play running leads (fun _ _ => id) sound
  rw [← attached] at reached sturdy' running'
  exact reached.walk sturdy' running' leads fun i below => (passes i below).step

/-- A program that is left by its first instruction. -/
theorem commands_fail_as_steps_stray : ∃ m m' d', Machine.create 336 (Code.ofInstrs [.goto (-7)]) {} = .ok m ∧
    Machine.step false (m.play [.step false]) = .error (.fault ⟨.pcOutside (-7) 1, 0, -7, none⟩) m' ∧
    stepOut false { machine := m.play [.step false] } = .error (.fault ⟨.pcOutside (-7) 1, 0, -7, none⟩) d' ∧
    d'.machine = m' ∧ stepOver false { machine := m.play [.step false] } =
      .error (.crash .outOfRange) { machine := m.play [.step false] } := by
  obtain ⟨m, made, run, id, pc, fine, more, next⟩ : ∃ m,
      Machine.create 336 (Code.ofInstrs [.goto (-7)]) {} = .ok m ∧ m.makes false 1 ∧
      (m.play [.step false]).current.id = 0 ∧ (m.play [.step false]).current.pc = -7 ∧
      (m.play [.step false]).control.failed = none ∧ (m.play [.step false]).control.result = none ∧
      (m.play [.step false]).control.advance.2 = .error (.pcOutside (-7) 1) :=
    ⟨_, Machine.create_listed rfl, by decide +kernel, rfl, rfl, rfl, rfl, rfl⟩
  have step : Machine.step false (m.play [.step false]) = _ := Machine.step_of_stuck fine more next
  rw [id, pc] at step
  have sound : m.Along (fun m t => ¬ m.Crashes t) [.step false] :=
    ⟨(Machine.along_smooth_of_makes run).1.not_crashes, trivial⟩
  have commands := @commands_fail_as_steps _ _ _ _ _ _ _ made _ sound { machine := m.play [.step false] } rfl
  obtain ⟨d', out, left, -⟩ := ((commands .stepOut).1 fun same => by cases same).fails _ _ step
  exact ⟨m, _, d', made, step, out, left, (commands .stepOver).2.1 _ (.inl ⟨by rw [pc]; decide, rfl⟩) false⟩

/-- Where a step tells that an entry is missing stepping over crashes. -/
theorem stepping_over_gap_crashes : ∃ m m', Machine.create 336 #[none] {} = .ok m ∧
    Machine.step false m = .error (.fault ⟨.noInstruction 0, 0, 0, none⟩) m' ∧
    stepOver false { machine := m } = .error (.crash .missingInstr) { machine := m } := by
  obtain ⟨m, made, start, fine, more, next, missing⟩ : ∃ m, Machine.create 336 #[none] {} = .ok m ∧
      (m.current.id = 0 ∧ m.current.pc = 0) ∧ m.control.failed = none ∧ m.control.result = none ∧
      m.control.advance.2 = .error (.noInstruction 0) ∧ m.control.code[0]? = some none :=
    ⟨_, rfl, ⟨rfl, rfl⟩, rfl, rfl, rfl, rfl⟩
  have step : Machine.step false m = _ := Machine.step_of_stuck fine more next
  rw [start.1, start.2] at step
  exact ⟨m, _, made, step, stepOver_unreadable (.inr ⟨by rw [start.2], by rw [start.2]; exact missing, rfl⟩) false⟩

end Debugger

end FiberVm
