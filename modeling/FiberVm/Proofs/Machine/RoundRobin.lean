import FiberVm.Proofs.Machine.Deadlock
import FiberVm.Proofs.Machine.Effects
import FiberVm.Proofs.Machine.Slices
import FiberVm.Proofs.Machine.Stages

/-!
# Taking turns

Fibers are resumed in the order in which they have become ready, whoever made them so. A log is kept of both along a
run. It is told from the states that the fibers are in at every stage of every turn, and the queue holds those who
have become ready and have not been resumed since. Together with the bounds on slices this is what makes the
scheduler fair.
-/

set_option autoImplicit false

namespace FiberVm

open Scheduler (Advances Leads Still)

namespace StepLabel

variable {s s' : Scheduler} {l : StepLabel}

/-- Unless it releases those who wait at a wait group, an instruction makes one fiber ready at most. -/
theorem OnSched.advances (orderly : s.Orderly) (running : s.current.state = .running) (does : l.OnSched s s')
    (single : ∀ g ids, l ≠ .drain g ids) : Advances s s' := by
  have blocks : ∀ timers, Advances s { s with current := { s.current with state := .blocked }, timers } :=
    Scheduler.advances_stop running .blocked nofun nofun
  cases l with
  | quiet | make | newGroup | count => exact (Still.undisturbed does).advances
  | spawn pc env => exact (orderly.cons.advances_spawn pc env).undisturbed does
  | stop =>
    have ends : Advances s s.terminate := Scheduler.advances_stop running .terminated nofun nofun s.timers
    exact ends.undisturbed does
  | sleep => exact (blocks _).undisturbed does
  | wait => exact (blocks s.timers).undisturbed does.2
  | drain g ids => exact absurd rfl (single g ids)
  | act ch a =>
    cases a with
    | store | take | close => exact (Still.undisturbed does).advances
    | parkSender | parkReceiver => exact (blocks s.timers).undisturbed does.2
    | refill v w => exact (orderly.cons.advances_wake _).undisturbed does
    | pass w => exact (orderly.cons.advances_wake _).undisturbed does
    | hand v w =>
      have delivered := (orderly.deliver w.fiber v).cons.advances_wake w.fiber
      exact (delivered.undisturbed does).of_still (.deliver s w.fiber v)

/-- The stages of an instruction: one for each fiber that it releases, and the one when it has been executed. -/
theorem OnSched.leads (orderly : s.Orderly) (running : s.current.state = .running) (does : l.OnSched s s')
    (after : s'.Orderly) : s.Leads (s.wakings l.releases ++ [s']) s' := by
  have here : s.Leads [] s := .refl orderly
  by_cases drains : ∃ g ids, l = .drain g ids
  · obtain ⟨g, ids, rfl⟩ := drains
    have does : (ids.foldl (fun s id => s.wake id.fiber) s).Undisturbed s' := does
    rw [← List.foldl_map] at does
    exact (here.wakings (ids.map Word.fiber)).stage (Still.undisturbed does).advances after
  · have single : ∀ g ids, l ≠ .drain g ids := fun g ids is => drains ⟨g, ids, is⟩
    have nobody : l.releases = [] := by
      cases l with
      | drain g ids => exact absurd rfl (single g ids)
      | _ => rfl
    rw [nobody]
    exact here.stage (OnSched.advances orderly running does single) after

end StepLabel

namespace Machine

/-- The schedulers that a turn goes through before it ends: one for each fiber that its instruction releases from a
wait group, the one when the instruction has been executed, and those of the scheduling decision. -/
def underway (m : Machine) : Turn → List Scheduler
  | .collect => []
  | .step canceled =>
    match m.executed (.step canceled) with
    | none => []
    | some (i, m₁) =>
      m.control.sched.wakings (m.releases i m₁.heap) ++ m₁.control.sched ::
        if m₁.control.result.isSome then [] else m₁.control.sched.decisionStages canceled

/-- The schedulers that a turn goes through, up to the one that it ends with. -/
def stages (m : Machine) (t : Turn) : List Scheduler := m.underway t ++ [(m.turn t).control.sched]

/-- Who has become ready and who has been resumed in the course of some turns. -/
def log (m : Machine) : List Turn → List Scheduler.Event
  | [] => []
  | t :: ts => m.control.sched.eventsThrough (m.stages t) ++ (m.turn t).log ts

section Turns

variable {code : Code} {m : Machine} {t : Turn}

/-- Nothing has failed before that has not failed in the end. -/
theorem Steady.fine_of_play (steady : m.Steady code) (ts : List Turn) (fine : (m.play ts).control.failed = none) :
    m.control.failed = none := by
  induction ts generalizing m with
  | nil => exact fine
  | cons t ts ih => exact (steady.outcome t).fine (ih (steady.turn t) fine)

theorem releases_begun (m : Machine) (i : Instr) (h' : Heap) : m.begun.releases i h' = m.releases i h' := by
  cases i <;> rfl

theorem underway_of_executed {canceled : Bool} {i : Instr} {m₁ : Machine}
    (has : m.executed (.step canceled) = some (i, m₁)) :
    m.underway (.step canceled) = m.control.sched.wakings (m.releases i m₁.heap) ++ m₁.control.sched ::
      if m₁.control.result.isSome then [] else m₁.control.sched.decisionStages canceled := by
  rw [underway, has]

theorem underway_of_rests (none : m.executed t = Option.none) : m.underway t = [] := by
  cases t with
  | collect => rfl
  | step canceled => rw [underway, none]

/-- The stages of a turn lead to where it ends. -/
theorem Steady.leads (steady : m.Steady code) (sturdy : m.Sturdy code fun _ => True) (busy : m.Running)
    (fine : (m.turn t).control.failed = none) :
    m.control.sched.Leads (m.stages t) (m.turn t).control.sched := by
  have outcome := steady.outcome t
  have ordered := steady.ordered
  rw [stages]
  generalize m.turn t = m' at outcome fine
  cases outcome with
  | rests _ control none =>
    have here : m.control.sched.Leads [] m.control.sched := .refl (ordered.orderly (control ▸ fine))
    rw [underway_of_rests (executed_of_rests none), control]
    exact here.stage (Still.refl _).advances here.orderly
  | @goes canceled i _ m₁ _ next run _ _ goes =>
    have running := busy next.1 next.2.1
    obtain ⟨⟨l, deed, -, -, releases⟩, -⟩ :=
      sturdy.conducted busy code.leads_anywhere steady.wired next run
    have deed : m.Deed l m₁ := ⟨deed.heap, deed.sched.of_undisturbed m.begun_undisturbed⟩
    have executed := deed.sched.leads (ordered.orderly next.1) running (ordered.deed_orderly next.1 running deed)
    rw [releases, releases_begun] at executed
    rw [underway_of_executed (executed_of_executes canceled next run), List.append_cons (m.control.sched.wakings _)]
    cases goes with
    | halts ended =>
      rw [if_pos (Option.isSome_iff_ne_none.2 ended), List.append_nil]
      exact executed.stage (Still.refl _).advances executed.orderly
    | resumes more decided =>
      rw [if_neg (by rw [more]; nofun)]
      exact executed.reschedule decided
  | fails _ _ failed => cases fine.symm.trans failed

/-- The queue holds those who have become ready and have not been resumed since. -/
theorem Steady.log_queue (steady : m.Steady code) (sturdy : m.Sturdy code fun _ => True) (busy : m.Running)
    (ts : List Turn) (fine : (m.play ts).control.failed = none) :
    m.control.sched.ready ++ (m.log ts).filterMap Scheduler.Event.readied? =
      (m.log ts).filterMap Scheduler.Event.resumed? ++ (m.play ts).control.sched.ready := by
  induction ts generalizing m with
  | nil => exact List.append_nil _
  | cons t ts ih =>
    have steady' := steady.turn t
    have course := sturdy.course busy code.leads_anywhere t (steady.not_crashes t)
    obtain ⟨sturdy', busy'⟩ := course.sturdy busy
    have leads := steady.leads sturdy busy (steady'.fine_of_play ts fine)
    rw [log, List.filterMap_append, List.filterMap_append, ← List.append_assoc, leads.queue, List.append_assoc,
      ih steady' sturdy' busy' fine, List.append_assoc]
    rfl

/-- Who stays current while somebody is ready uses up one slice at most. -/
theorem Steady.hogs_bounded (steady : m.Steady code) {usual first : Int} (least : 1 ≤ usual ∧ 1 ≤ first) {stint : Stint}
    (timed : m.control.failed = none → m.control.result = none → m.Timed usual first stint) {us : List Turn}
    (along : m.Along (Hogs m.current.id) us) : us.length ≤ max usual first ∧
      (usual < us.length → m.current.id = 1 ∧ ∃ spent, stint = .first spent) ∧
      (m.control.sched.ready ≠ [] → us.length < max usual first) := by
  have longest := Int.le_max_left usual first
  cases us with
  | nil =>
    have none : (([] : List Turn).length : Int) = 0 := rfl
    exact ⟨by omega, fun long => absurd long (by omega), fun _ => by omega⟩
  | cons u us =>
    obtain ⟨canceled, step, run⟩ := along.1.step
    obtain ⟨i, m₁, s, next, -⟩ := steady.resumes run step along.1.going
    have timed := timed next.1 next.2.1
    have high := timed.high
    rcases Timed.hogs steady least timed rfl along with short | ⟨alone, short⟩
    · refine ⟨by omega, fun long => ?_, fun _ => by omega⟩
      obtain ⟨spent, stint, -, one⟩ := timed.long (by omega)
      exact ⟨one, spent, stint⟩
    · exact ⟨by omega, fun long => absurd long (by omega), fun some => absurd alone some⟩

end Turns

/-- In every run of a decoded program that assigns nothing to the outermost frame, as long as it has neither failed
nor come to its end, what is left of the current slice is at least one instruction and at most the longest slice,
and more than a quantum only while fiber 1 is in its first slice. Fibers are resumed in the order in which they
have become ready: of those who have become ready in the course of the run the first have been resumed, in order, and
the others are in the queue, in order. From one stage of a turn to the next at most one fiber becomes ready, and is
queued behind all others, or the first one of the queue is resumed. And no fiber stays current through more steps than the longest slice has instructions, nor
through more than a quantum unless fiber 1 is in its first slice when they begin, if somebody is ready after
each of them; if somebody is ready before them too, it stays current through fewer. -/
theorem takes_turns {p : Program Datum} {is : List Instr} (decoded : p.instrs = .ok is)
    (inner : ∀ pos sym, Instr.assign pos sym ∈ is → pos.frame ≠ 0) {size : Int} {options : Options}
    {clock : Clock} {sink : Sink} {order : Enumeration} {m : Machine}
    (made : Machine.create size (Code.ofInstrs is) options clock sink order = .ok m) (ts : List Turn) :
    let usual := options.withDefaults.quantum
    let first := options.withDefaults.firstQuantum
    let inFirst := (m.play ts).current.id = 1 ∧ ∃ spent, m.recount (Stint.next first) .waits ts = .first spent
    ((m.play ts).control.failed = none → (m.play ts).control.result = none →
      1 ≤ (m.play ts).control.sched.slice ∧ (m.play ts).control.sched.slice ≤ max usual first ∧
        (usual < (m.play ts).control.sched.slice → inFirst)) ∧
    ((m.play ts).control.failed = none → (m.log ts).filterMap Scheduler.Event.readied? =
        (m.log ts).filterMap Scheduler.Event.resumed? ++ (m.play ts).control.sched.ready ∧
      ∀ t, ((m.play ts).turn t).control.failed = none →
        ((m.play ts).control.sched :: (m.play ts).stages t).IsChain Scheduler.Advances) ∧
    ∀ us, (m.play ts).Along (Hogs (m.play ts).current.id) us → us.length ≤ max usual first ∧
      (usual < us.length → inFirst) ∧ ((m.play ts).control.sched.ready ≠ [] → us.length < max usual first) := by
  intro usual first inFirst
  have steady := create_steady decoded inner made
  obtain ⟨sturdy, busy⟩ := create_sturdy (Code.ofInstrs is).leads_anywhere made
  have timed := create_timed made
  have least := withDefaults_pos options
  have empty : m.control.sched.ready = [] := by
    obtain ⟨h, -, rfl⟩ := create_eq made
    rfl
  refine ⟨fun fine more => ?_, fun fine => ?_, fun us along => ?_⟩
  · have timed := Timed.play steady least (fun _ _ => timed) ts fine more
    refine ⟨timed.low, timed.high, fun long => ?_⟩
    obtain ⟨spent, stint, -, one⟩ := timed.long long
    exact ⟨one, spent, stint⟩
  · have queue := steady.log_queue sturdy busy ts fine
    rw [empty, List.nil_append] at queue
    obtain ⟨sturdy, busy⟩ := sturdy.play busy (Code.ofInstrs is).leads_anywhere (fun _ _ sound => sound)
      (steady.sound ts)
    exact ⟨queue, fun t fine => ((steady.play ts).leads sturdy busy fine).advances⟩
  · exact (steady.play ts).hogs_bounded least (Timed.play steady least (fun _ _ => timed) ts) along

section Witness

variable {m m' : Machine} {stages : List Scheduler}

theorem log_append (m : Machine) (ts us : List Turn) : m.log (ts ++ us) = m.log ts ++ (m.play ts).log us := by
  induction ts generalizing m with
  | nil => rfl
  | cons t ts ih => rw [List.cons_append, log, log, ih, List.append_assoc]; rfl

/-- The stages of a step that uses up the slice of the current fiber, and the machine after it, if another fiber is
ready and nobody sleeps. -/
def relieved (m : Machine) : Option (List Scheduler × Machine) :=
  match m.executed (.step false) with
  | some (i, m₁) =>
    let s := m₁.control.sched.charge.preempt
    if m₁.control.result = none ∧ m₁.control.sched.current.state = .running ∧ m₁.control.sched.slice ≤ 1 ∧
        m₁.control.sched.timers = [] ∧ m₁.control.sched.ready ≠ [] then
      some (m.control.sched.wakings (m.releases i m₁.heap) ++ [m₁.control.sched, s, s.resume], m₁.withSched s.resume)
    else none
  | none => none

theorem turn_of_relieved (gives : m.relieved = some (stages, m')) :
    m.turn (.step false) = m' ∧ m.stages (.step false) = stages := by
  unfold relieved at gives
  split at gives
  · next i m₁ has =>
    dsimp only at gives
    split at gives
    · next way =>
      obtain ⟨more, running, spent, quiet, some⟩ := way
      cases gives
      obtain ⟨decided, halfway⟩ := Scheduler.reschedule_relieves false running spent quiet some
      have leaves : m.Leaves m₁ := ⟨⟨i, has⟩, more⟩
      have turn := turn_of_run (t := .step false) (leaves.step_ok decided)
      refine ⟨turn, ?_⟩
      rw [Machine.stages, underway_of_executed has, turn, if_neg (by rw [more]; nofun), halfway, List.append_assoc]
      rfl
    · cases gives
  · cases gives

end Witness

/-- With a slice of seven instructions the fiber that has started another one gives way to it. -/
theorem takes_turns_relay : ∃ m, Program.relay.instrs = .ok Program.relayInstrs ∧
    Machine.create 336 (Code.ofInstrs Program.relayInstrs) { quantum := 7 } = .ok m ∧
    (m.play Turn.relay).control.failed = none ∧ (m.play Turn.relay).control.result = none ∧
    1 ≤ (m.play Turn.relay).control.sched.slice ∧ (m.play Turn.relay).current.id = 1 ∧
    m.log Turn.relay = [.readied 1, .readied 0, .resumed 1] ∧
    (m.log Turn.relay).filterMap Scheduler.Event.readied? =
      (m.log Turn.relay).filterMap Scheduler.Event.resumed? ++ (m.play Turn.relay).control.sched.ready := by
  obtain ⟨m, made, relief⟩ : ∃ m, Machine.create 336 (Code.ofInstrs Program.relayInstrs) { quantum := 7 } = .ok m ∧
      (m.play (List.replicate 6 (.step false))).relieved.any (fun r => r.2.control.failed = none ∧
        r.2.control.result = none ∧ r.2.current.id = 1 ∧ m.log (List.replicate 6 (.step false)) ++
          (m.play (List.replicate 6 (.step false))).control.sched.eventsThrough r.1 =
            [.readied 1, .readied 0, .resumed 1]) = true := ⟨_, Machine.create_listed rfl, by decide +kernel⟩
  obtain ⟨⟨stages, m'⟩, gives, state⟩ := (Option.any_eq_true _ _).1 relief
  obtain ⟨fine, more, other, events⟩ := of_decide_eq_true state
  obtain ⟨turn, halfway⟩ := turn_of_relieved gives
  have played : m.play Turn.relay = m' := turn
  have logged : m.log Turn.relay = [.readied 1, .readied 0, .resumed 1] := by
    rw [show Turn.relay = List.replicate 6 (.step false) ++ [.step false] from rfl, log_append, log, log, halfway,
      List.append_nil]
    exact events
  have turns := takes_turns (p := Program.relay) rfl Program.relay_inner made Turn.relay
  rw [← played] at fine more other
  exact ⟨m, rfl, made, fine, more, (turns.1 fine more).1, other, logged, (turns.2.1 fine).1⟩

end Machine

end FiberVm
