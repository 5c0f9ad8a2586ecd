import FiberVm.Proofs.Machine.Execution
import FiberVm.Proofs.Machine.WellTyped

/-!
# What a turn does

A turn of a machine that is paired with itself does nothing but collect, or it executes an instruction and
lets the scheduler go on, or it ends in a fault. So the channels stay in order, and what is to hold in every
state that a decoded program reaches need only be shown of one turn. Such an invariant may speak of notes
that are taken along the way.
-/

set_option autoImplicit false

namespace FiberVm

open Heap (Shows Drift Wired Plays Effect NewQueues IsSync NodeIn tagAt)

namespace Machine

/-- The machine that is about to execute an instruction: the step is counted and the program counter moved. -/
def begun (m : Machine) : Machine := m.counted.fetched

theorem begun_undisturbed (m : Machine) : m.control.sched.Undisturbed m.begun.control.sched :=
  ⟨rfl, rfl, rfl, rfl, rfl, rfl⟩

/-- The instruction that a turn executes, and the machine when it has been executed. -/
def executed (m : Machine) : Turn → Option (Instr × Machine)
  | .collect => none
  | .step _ =>
    if m.control.failed.isSome || m.halted then none
    else
      match m.control.advance.2 with
      | .error _ => none
      | .ok i =>
        match Exec.instr i m.begun with
        | .ok _ m' => some (i, m')
        | .error _ _ => none

section Executed

variable {m m' : Machine} {i : Instr} {t : Turn}

theorem going_of_live (live : ¬ (m.control.failed.isSome || m.halted) = true) :
    m.control.failed = none ∧ m.control.result = none := by
  simpa [Machine.halted] using live

theorem executed_of_executes (canceled : Bool) (next : m.Executes i) (run : Exec.instr i m.begun = .ok () m') :
    m.executed (.step canceled) = some (i, m') := by
  obtain ⟨fine, more, fetched⟩ := next
  simp only [executed, fine, Machine.halted, more, fetched, run, Option.isSome_none, Bool.or_false,
    Bool.false_eq_true, if_false]

theorem executes_of_executed (has : m.executed t = some (i, m')) :
    m.Executes i ∧ Exec.instr i m.begun = .ok () m' := by
  cases t with
  | collect => cases has
  | step canceled =>
    simp only [executed] at has
    split at has
    · cases has
    · rename_i live
      obtain ⟨fine, more⟩ := going_of_live live
      cases fetched : m.control.advance.2 with
      | error e =>
        rw [fetched] at has
        cases has
      | ok i =>
        rw [fetched] at has
        cases run : Exec.instr i m.begun with
        | error e m₁ =>
          simp only [run] at has
          cases has
        | ok u m₁ =>
          simp only [run] at has
          cases has
          exact ⟨⟨fine, more, fetched⟩, run⟩

theorem executed_of_rests (none : ∀ canceled i, t = .step canceled → ¬ m.Executes i) :
    m.executed t = Option.none := by
  cases t with
  | collect => rfl
  | step canceled =>
    simp only [executed]
    split
    · rfl
    · rename_i live
      obtain ⟨fine, more⟩ := going_of_live live
      cases fetched : m.control.advance.2 with
      | error e => rfl
      | ok i => exact absurd ⟨fine, more, fetched⟩ (none canceled i rfl)

end Executed

/-- The scheduler has decided who goes on, unless the program is over. -/
inductive Goes (canceled : Bool) (m : Machine) : Machine → Prop
  | halts : m.control.result ≠ none → Goes canceled m m
  | resumes {s : Scheduler} : m.control.result = none → m.control.sched.reschedule canceled = .ok () s →
    Goes canceled m (m.withSched s)

theorem Goes.heap {canceled : Bool} {m m' : Machine} (goes : m.Goes canceled m') : m'.heap = m.heap := by
  cases goes with
  | halts => rfl
  | resumes => rfl

theorem finish_eq (canceled : Bool) (m : Machine) :
    Exec.finish canceled m = if m.control.result.isSome then .ok () m else Exec.reschedule canceled m := by
  unfold Exec.finish
  rw [bind_of_ok (show Exec.asks (·.result.isSome) m = .ok m.control.result.isSome m from rfl)]
  split <;> rfl

/-- How an instruction that is executed ends the step. -/
inductive Ends (canceled : Bool) (m : Machine) (i : Instr) : Prop
  | crashes {c : Crash} {m₁ : Machine} : Exec.instr i m.begun = .error (.crash c) m₁ →
    perform (.step canceled) m = .error (.crash c) m₁ → Ends canceled m i
  | faults {c : Cause} {m₁ : Machine} : Exec.instr i m.begun = .error (.fault c) m₁ →
    perform (.step canceled) m = fail m₁ ⟨c, m.current.id, m.current.pc, some i.opcode⟩ → Ends canceled m i
  | goes {m₁ m' : Machine} : Exec.instr i m.begun = .ok () m₁ → m₁.Goes canceled m' →
    perform (.step canceled) m = .ok () m' → Ends canceled m i
  /-- The instruction has been executed, but there is nobody to go on. -/
  | stalls {c : Cause} {m₁ : Machine} {s : Scheduler} : Exec.instr i m.begun = .ok () m₁ → m₁.control.result = none →
    m₁.control.sched.reschedule canceled = .error c s →
    perform (.step canceled) m = fail (m₁.withSched s) ⟨c, m.current.id, m.current.pc, some i.opcode⟩ → Ends canceled m i

theorem Executes.ends {m : Machine} {i : Instr} (next : m.Executes i) (canceled : Bool) : m.Ends canceled i := by
  have step : perform (.step canceled) m = conclude m.current.id m.current.pc i.opcode
      ((Exec.instr i >>= fun _ => Exec.finish canceled) m.begun) := step_of_instr next.1 next.2.1 next.2.2
  cases run : Exec.instr i m.begun with
  | error e m₁ =>
    rw [bind_of_error run] at step
    cases e with
    | crash c => exact .crashes run step
    | fault c => exact .faults run step
  | ok u m₁ =>
    rw [bind_of_ok run, finish_eq] at step
    by_cases ended : m₁.control.result.isSome = true
    · rw [if_pos ended] at step
      exact .goes run (.halts (Option.isSome_iff_ne_none.1 ended)) step
    · rw [if_neg ended, Exec.reschedule_eq] at step
      have ongoing : m₁.control.result = none := Option.not_isSome_iff_eq_none.1 ended
      cases decided : m₁.control.sched.reschedule canceled with
      | ok u s =>
        rw [decided] at step
        exact .goes run (.resumes ongoing decided) step
      | error c s =>
        rw [decided] at step
        exact .stalls run ongoing decided step

/-- Where a fault leaves the machine: as it was, except for what only the current fiber sees, after an instruction
that leaves nobody to go on, or in the middle of waking someone who is lost. -/
inductive Interrupted (m : Machine) (t : Turn) (m' : Machine) : Prop
  | early : (Drift [] m.heap m'.heap ∨ NewQueues m.heap m'.heap) → m.control.sched.Undisturbed m'.control.sched →
    Interrupted m t m'
  | late {i : Instr} {l : StepLabel} {m₁ : Machine} {canceled : Bool} {c : Cause} : m.executed t = some (i, m₁) →
    m.Deed l m₁ → m'.heap = m₁.heap → m₁.control.sched.reschedule canceled = .error c m'.control.sched →
    Interrupted m t m'
  | lost {l : StepLabel} {k : Int} : m.Lost k → l.OnHeap m.heap m'.heap →
    m'.control.sched.nextId = m.control.sched.nextId → Interrupted m t m'

/-- What a turn does. -/
inductive Outcome (m : Machine) : Turn → Machine → Prop
  /-- Nothing is executed. -/
  | rests {t : Turn} {m' : Machine} : Drift [] m.heap m'.heap → m'.control = m.control →
    (∀ canceled i, t = .step canceled → ¬ m.Executes i) →
    (∀ f, perform t m = .error (.fault f) m' → m.control.failed = some f) → Outcome m t m'
  | goes {canceled : Bool} {i : Instr} {l : StepLabel} {m₁ m' : Machine} : m.Executes i →
    Exec.instr i m.begun = .ok () m₁ → m.Deed l m₁ → l.Of m i m₁ → m₁.Goes canceled m' →
    perform (.step canceled) m = .ok () m' → Outcome m (.step canceled) m'
  | fails {t : Turn} {m' : Machine} {f : Fault} : m.control.failed = none → m.control.result = none →
    m'.control.failed = some f → Effect m.heap m'.heap → (∀ k, f.cause = .unknownFiber k → m.Lost k) →
    perform t m = .error (.fault f) m' → m.Interrupted t m' → Outcome m t m'

end Machine

namespace Scheduler

/-- When nobody can go on, all are blocked or the host has given up. -/
theorem awaitReady_error {canceled : Bool} {s s' : Scheduler} {c : Cause} (run : awaitReady canceled s = .error c s') :
    c = .canceled ∨ ∃ n, c = .deadlock n := by
  fun_induction awaitReady canceled s with
  | case1 =>
    cases run
    exact .inr ⟨_, rfl⟩
  | case2 =>
    cases run
    exact .inl rfl
  | case3 s empty t rest some go ih => exact ih run
  | case4 => cases run

theorem next_error {canceled : Bool} {s s' : Scheduler} {c : Cause} (run : next canceled s = .error c s') :
    awaitReady canceled s.poll = .error c s' := by
  unfold next at run
  split at run
  · cases run
  · next waits =>
    cases run
    exact waits

theorem reschedule_error {canceled : Bool} {s s' : Scheduler} {c : Cause}
    (run : reschedule canceled s = .error c s') : c = .canceled ∨ ∃ n, c = .deadlock n := by
  by_cases running : s.current.state = .running
  · rw [reschedule_of_running running] at run
    split at run
    · cases run
    split at run
    · cases run
    · exact awaitReady_error (next_error run)
  · rw [reschedule_of_blocked running] at run
    exact awaitReady_error (next_error run)

/-- The scheduler's own complaints are others. -/
theorem reschedule_known {canceled : Bool} {s s' : Scheduler} {c : Cause}
    (run : reschedule canceled s = .error c s') (k : Int) : c ≠ .unknownFiber k := by
  rcases reschedule_error run with is | ⟨n, is⟩ <;> rw [is] <;> nofun

end Scheduler

namespace Machine

section

variable {q : Terms} {w : World} {m : Machine}

theorem advance_known {c : Control} {cause : Cause} (next : c.advance.2 = .error cause) (k : Int) :
    cause ≠ .unknownFiber k := by
  rw [advance_snd] at next
  split at next
  · cases next
    simp
  · unfold Control.fetch at next
    dsimp only at next
    split at next
    · cases next
      simp
    · split at next
      · cases next
      · cases next
        simp

theorem Paired.does (p : m.Paired q w m) (wired : Wired m.heap.words) {i : Instr} (next : m.Executes i) :
    match Exec.instr i m.begun with
    | .ok _ m' => ∃ l : StepLabel, m.Deed l m' ∧ l.Of m i m'
    | .error e m' => m.Breaks e m' := by
  have does : Does _ (Exec.instr i) m.begun :=
    .instr p.alike.counted.fetched (p.running next.1 next.2.1) wired i
  unfold Does at does
  cases run : Exec.instr i m.begun with
  | error e m₁ =>
    rw [run] at does
    have heap : m.begun.heap = m.heap := rfl
    exact .after heap m.begun_undisturbed does
  | ok u m₁ =>
    rw [run] at does
    obtain ⟨l, deed, label⟩ := does
    exact ⟨l, ⟨deed.heap, deed.sched.of_undisturbed m.begun_undisturbed⟩, label⟩

theorem Paired.executed (p : m.Paired q w m) (wired : Wired m.heap.words) {i : Instr} (next : m.Executes i)
    {canceled : Bool} (sound : ¬ m.Crashes (.step canceled)) :
    m.Outcome (.step canceled) (m.turn (.step canceled)) := by
  have does := p.does wired next
  have fine := next.1
  have more := next.2.1
  cases next.ends canceled with
  | crashes _ step => exact absurd ⟨_, _, step⟩ sound
  | faults run step =>
    rw [run] at does
    rw [turn_of_run step]
    refine .fails fine more rfl does.effect (fun k cause => does.known (congrArg Failure.fault cause)) step ?_
    cases does with
    | early _ change undisturbed => exact .early change undisturbed
    | lost _ lost heap nextId => exact .lost lost heap nextId
  | goes run goes step =>
    rw [run] at does
    obtain ⟨l, deed, label⟩ := does
    rw [turn_of_run step]
    exact .goes next run deed label goes step
  | stalls run _ decided step =>
    rw [run] at does
    obtain ⟨l, deed, label⟩ := does
    rw [turn_of_run step]
    exact .fails fine more rfl deed.heap.effect (fun k cause => absurd cause (Scheduler.reschedule_known decided k)) step
      (.late (executed_of_executes canceled next run) deed rfl decided)

theorem Paired.outcome (p : m.Paired q w m) (wired : Wired m.heap.words) {t : Turn} (sound : ¬ m.Crashes t) :
    m.Outcome t (m.turn t) := by
  cases t with
  | collect =>
    have traceable := p.alike.heap.traceable₁ p.alike.knows_held
    obtain ⟨l, h, run, collected⟩ := Heap.collect_collected p.alike.heap.sound₁.sized p.alike.heap.sound₁.unmarked
      traceable
    replace run := (collect_visit p.alike.heap.sound₁ traceable).trans run
    rw [turn_of_run (perform_collect run)]
    exact .rests collected.drift rfl nofun fun f raised => by cases (perform_collect run).symm.trans raised
  | step canceled =>
    have idle : ∀ {e}, Machine.step canceled m = .error e m → (∀ i, ¬ m.Executes i) →
        (∀ f, e = .fault f → m.control.failed = some f) →
        m.Outcome (.step canceled) (m.turn (.step canceled)) := by
      intro e run none known
      rw [turn_of_run (t := .step canceled) run]
      exact .rests (.refl _) rfl (fun _ i _ => none i) fun f raised =>
        known f (EStateM.Result.error.inj (run.symm.trans raised)).1
    cases m.attempt canceled with
    | failed failed none step =>
      refine idle step none fun g same => ?_
      rw [failed, Error.fault.inj same]
    | ended _ _ none step => exact idle step none nofun
    | executes next => exact p.executed wired next sound
    | stuck failed result next step =>
      have stuck : perform (.step canceled) m = _ := step
      rw [turn_of_run stuck]
      exact .fails failed result rfl (.drift (.refl _)) (fun k unknown => absurd unknown (advance_known next k)) stuck
        (.early (.inl (.refl _)) (.refl _))

theorem Outcome.effect {t : Turn} {m' : Machine} (outcome : m.Outcome t m') : Effect m.heap m'.heap := by
  cases outcome with
  | rests drift => exact .drift drift
  | goes _ _ deed _ goes => exact goes.heap ▸ deed.heap.effect
  | fails _ _ _ effect => exact effect

/-- A fault is there to stay. -/
theorem Outcome.fine {t : Turn} {m' : Machine} (outcome : m.Outcome t m') (fine : m'.control.failed = none) :
    m.control.failed = none := by
  cases outcome with
  | rests _ control => rwa [control] at fine
  | goes next => exact next.1
  | fails before => exact before

/-- A fault that a turn raises is for want of a fiber only if one is lost. -/
theorem Outcome.lost {t : Turn} {m' : Machine} {f : Fault} (outcome : m.Outcome t m')
    (fine : m.control.failed = none) (raised : perform t m = .error (.fault f) m') {k : Int}
    (cause : f.cause = .unknownFiber k) : m.Lost k := by
  cases outcome with
  | rests _ _ _ known => cases fine.symm.trans (known f raised)
  | goes _ _ _ _ _ run => cases run.symm.trans raised
  | fails _ _ _ _ lost run =>
    refine lost k ?_
    rwa [Error.fault.inj (EStateM.Result.error.inj (run.symm.trans raised)).1]

end

end Machine

section New

variable {size : Nat} {words : Array Word}

theorem Heap.Initial.not_sync (init : Heap.Initial size words) {a : Addr} (node : NodeIn words a) :
    ¬ IsSync (tagAt words a) := by
  by_cases low : a < Heap.bottom
  · have below : a.toNat < 256 := by rwa [UInt32.lt_iff_toNat_lt, Heap.bottom_toNat] at low
    have aligned : a.toNat % 16 = 0 := node.1
    have word : Heap.cell words a 0 = Heap.reservedWord (16 * (a.toNat / 16)) := by
      rw [init.reserved node low (by decide), show 16 * (a.toNat / 16) = a.toNat + 0 by omega]
    have tags : ∀ k < 16, ¬ IsSync ⟨(Heap.reservedWord (16 * k)).byte 0⟩ := by decide +kernel
    rw [tagAt, word]
    exact tags _ (by omega)
  · rw [tagAt, init.header node (UInt32.not_lt.1 low), byte_freeWord _ (by decide)]
    decide

theorem Heap.create_wired {size : Int} {h : Heap} (made : Heap.create size = .ok h) : Wired h.words := by
  obtain ⟨init, -⟩ := Heap.create_initial made
  have none : ∀ {a c}, ¬ Plays h.words a c := fun p => init.not_sync p.channel.node (.inl p.tagAt)
  refine ⟨init.sized.small, fun a node sync => absurd sync (init.not_sync node), ?_, ?_, ?_,
    fun _ _ p => absurd p none, fun _ _ p => absurd p none, fun _ _ p => absurd p none,
    fun _ _ _ _ p => absurd p none, fun a n ids s => absurd (.inr (.inr s.tagAt)) (init.not_sync s.node)⟩
  · exact fun a node tag => absurd (.inr (.inl tag)) (init.not_sync node)
  · exact fun a node tag => absurd (.inr (.inr tag)) (init.not_sync node)
  · exact fun a node tag => absurd (.inl tag) (init.not_sync node)

end New

namespace Machine

/-- What has been noted down along some turns. -/
def recount {α : Type} (note : Machine → Turn → α → α) (m : Machine) (a : α) : List Turn → α
  | [] => a
  | t :: ts => recount note (m.turn t) (note m t a) ts

/-- Two things can be noted down at the same time. -/
theorem recount_prod {α β : Type} (f : Machine → Turn → α → α) (g : Machine → Turn → β → β) (m : Machine) (a : α)
    (b : β) (ts : List Turn) :
    m.recount (fun m t x => (f m t x.1, g m t x.2)) (a, b) ts = (m.recount f a ts, m.recount g b ts) := by
  induction ts generalizing m a b with
  | nil => rfl
  | cons t ts ih => exact ih (m.turn t) (f m t a) (g m t b)

section

variable {α : Type} (note : Machine → Turn → α → α) (I : Machine → α → Prop)

/-- What one turn preserves, any turns do. -/
theorem Paired.invariant {q : Terms} {w : World} {m : Machine} {a : α} (p : m.Paired q w m)
    (inner : q.code.Inner) (loud : ¬ q.quiet) (wired : Wired m.heap.words)
    (step : ∀ {m m' w a t}, m.Paired q w m → Wired m.heap.words → m.Outcome t m' → I m a → I m' (note m t a))
    (start : I m a) (ts : List Turn) :
    Wired (m.play ts).heap.words ∧ (∃ w, (m.play ts).Paired q w (m.play ts)) ∧
      I (m.play ts) (m.recount note a ts) := by
  induction ts generalizing w m a with
  | nil => exact ⟨wired, ⟨w, p⟩, start⟩
  | cons t ts ih =>
    obtain ⟨sound, w', alike, running, -⟩ := p.alone t (fun _ => p.not_stores inner) fun _ quiet => absurd quiet loud
    have outcome := p.outcome wired sound
    exact ih (alike.settle running) (wired.effect outcome.effect) (step p wired outcome start)

/-- The same of a decoded program that assigns nothing to the outermost frame. -/
theorem play_invariant {p : Program Datum} {is : List Instr} (decoded : p.instrs = .ok is)
    (inner : ∀ pos sym, Instr.assign pos sym ∈ is → pos.frame ≠ 0) {size : Int} {options : Options}
    {clock : Clock} {sink : Sink} {m : Machine} {a : α}
    (made : Machine.create size (Code.ofInstrs is) options clock sink = .ok m)
    (step : ∀ {q m m' w a t}, m.Paired q w m → Wired m.heap.words → m.Outcome t m' → I m a → I m' (note m t a))
    (start : I m a) (ts : List Turn) :
    Wired (m.play ts).heap.words ∧
      (∃ w, (m.play ts).Paired ⟨Code.ofInstrs is, False⟩ w (m.play ts)) ∧ I (m.play ts) (m.recount note a ts) := by
  have paired := Machine.create_paired (p.plain_of_instrs decoded) made made False
  obtain ⟨h, heap, rfl⟩ := Machine.create_eq made
  exact paired.invariant note I (Code.inner_ofInstrs inner) id (Heap.create_wired heap) step start ts

end

/-- In particular the channels stay in order. -/
theorem play_wired {p : Program Datum} {is : List Instr} (decoded : p.instrs = .ok is)
    (inner : ∀ pos sym, Instr.assign pos sym ∈ is → pos.frame ≠ 0) {size : Int} {options : Options}
    {clock : Clock} {sink : Sink} {m : Machine}
    (made : Machine.create size (Code.ofInstrs is) options clock sink = .ok m) (ts : List Turn) :
    Wired (m.play ts).heap.words ∧ ∃ w, (m.play ts).Paired ⟨Code.ofInstrs is, False⟩ w (m.play ts) := by
  obtain ⟨wired, paired, -⟩ := play_invariant (fun _ _ u => u) (fun _ (_ : Unit) => True) decoded inner made
    (fun _ _ _ _ => trivial) trivial ts (a := ())
  exact ⟨wired, paired⟩

end Machine

end FiberVm
