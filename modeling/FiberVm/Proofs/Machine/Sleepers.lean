import FiberVm.Proofs.Machine.Effects
import FiberVm.Proofs.Machine.Timers

/-!
# Sleepers

Along a run a history is kept of who goes to sleep, until when, and of every poll of the timers. It says who is
asleep: whoever has gone to sleep, unless a poll since then has found that it was time. These are the fibers that
have a timer, and they are blocked, whatever they did before and whatever others do. So every poll wakes those
whose time has come, by deadline and, for equal deadlines, in the order in which they went to sleep.
-/

set_option autoImplicit false

namespace FiberVm

open Heap (Wired)

/-- An instruction arms the timer that its label names, and no other. -/
theorem StepLabel.OnSched.arms {s s' : Scheduler} {l : StepLabel} (does : l.OnSched s s') :
    s'.timers = (l.naps s.current.id).elim s.timers fun t => Scheduler.arm t s.timers := by
  cases l with
  | quiet | make | newGroup | count | spawn | stop | sleep => exact does.timers
  | drain g ids => exact does.timers.trans (Scheduler.timers_foldl_wake ids Word.fiber s)
  | wait => exact does.2.timers
  | act ch a =>
    cases a with
    | store | take | close => exact does.timers
    | parkSender | parkReceiver => exact does.2.timers
    | refill | pass => exact does.timers.trans (s.wake_timers _)
    | hand v w => exact does.timers.trans ((Scheduler.wake_timers _ _).trans (s.timers_deliver _ v))

namespace Machine

/-- What matters to sleepers in a turn: the call that puts the current fiber to sleep, and the polls of the
scheduling decision. -/
def beats (m : Machine) : Turn → List Beat
  | .collect => []
  | .step canceled =>
    match m.executed (.step canceled) with
    | none => []
    | some (i, m₁) =>
      ((m.begun.nap i).map Beat.sleeps).toList ++
        if m₁.control.result.isSome then [] else (m₁.control.sched.polls canceled).map Beat.polls

/-- What matters to sleepers in a run. -/
def history (m : Machine) : List Turn → List Beat
  | [] => []
  | t :: ts => m.beats t ++ (m.turn t).history ts

/-- The timers are those of `armed`, unless the machine has failed. -/
structure Watches (m : Machine) (c : Code) (armed : List Timer) : Prop where
  sturdy : m.Sturdy c fun _ => True
  running : m.Running
  wired : m.control.failed = none → Wired m.heap.words
  slumbers : m.control.failed = none → m.control.sched.Slumbers m.heap.place armed

section

variable {c : Code} {m m₁ m' : Machine} {i : Instr} {t : Turn} {armed : List Timer}

theorem Watches.acts (watches : m.Watches c armed) (few : m.control.sched.nextId ≤ UInt32.size)
    (next : m.Executes i) (run : Exec.instr i m.begun = .ok () m₁) :
    Wired m₁.heap.words ∧ m₁.control.sched.Slumbers m₁.heap.place
      (Beat.asleep armed ((m.begun.nap i).map Beat.sleeps).toList) := by
  have wired := watches.wired next.1
  have slumbers := watches.slumbers next.1
  obtain ⟨⟨l, deed, -, naps, -⟩, -⟩ := watches.sturdy.conducted watches.running c.leads_anywhere wired next run
  have deed : m.Deed l m₁ := ⟨deed.heap, deed.sched.of_undisturbed m.begun_undisturbed⟩
  have order : m.InOrder := slumbers.toInOrder
  have timers := deed.sched.arms
  rw [show l.naps m.control.sched.current.id = m.begun.nap i from naps] at timers
  refine ⟨wired.effect deed.heap.effect, order.deed wired (watches.running next.1 next.2.1) few deed, ?_⟩
  rw [timers]
  cases m.begun.nap i with
  | none => exact slumbers.kept
  | some t => exact slumbers.kept.arm t

theorem beats_of_executed {canceled : Bool} (has : m.executed (.step canceled) = some (i, m₁)) :
    m.beats (.step canceled) = ((m.begun.nap i).map Beat.sleeps).toList ++
      if m₁.control.result.isSome then [] else (m₁.control.sched.polls canceled).map Beat.polls := by
  rw [beats, has]

theorem beats_of_rests (none : m.executed t = Option.none) : m.beats t = [] := by
  cases t with
  | collect => rfl
  | step canceled => rw [beats, none]

/-- Nobody is woken by going to sleep. -/
theorem timely_naps (armed : List Timer) (nap : Option Timer) :
    Beat.Timely armed (nap.map Beat.sleeps).toList := by
  cases nap with
  | none => trivial
  | some t => exact ⟨nofun, trivial⟩

theorem Watches.turn (watches : m.Watches c armed) (few : m.control.sched.nextId ≤ UInt32.size)
    (sound : ¬ m.Crashes t) :
    Beat.Timely armed (m.beats t) ∧ (m.turn t).Watches c (Beat.asleep armed (m.beats t)) := by
  have course := watches.sturdy.course watches.running c.leads_anywhere t sound
  obtain ⟨sturdy, running⟩ := course.sturdy watches.running
  generalize m.turn t = m' at course sturdy running
  cases course with
  | rests _ control _ none drift =>
    rw [beats_of_rests (executed_of_rests none)]
    refine ⟨trivial, sturdy, running, fun fine => ?_, fun fine => ?_⟩ <;> rw [control] at fine
    · exact (watches.wired fine).effect (.drift drift)
    · obtain ⟨order, kept⟩ := watches.slumbers fine
      rw [control]
      exact ⟨order.fewer ((watches.wired fine).place_drift drift nofun), kept⟩
  | @goes canceled i m₁ _ next run _ goes =>
    obtain ⟨wired, slumbers⟩ := watches.acts few next run
    rw [beats_of_executed (m.executed_of_executes canceled next run)]
    cases goes with
    | halts ended =>
      rw [if_pos (Option.isSome_iff_ne_none.2 ended), List.append_nil]
      exact ⟨timely_naps _ _, sturdy, running, fun _ => wired, fun _ => slumbers⟩
    | resumes more decided =>
      rw [if_neg (by rw [more]; nofun)]
      obtain ⟨timely, ends⟩ := slumbers.reschedule canceled
      refine ⟨Beat.timely_append.2 ⟨timely_naps _ _, timely⟩, sturdy, running, fun _ => wired, fun _ => ?_⟩
      rw [Beat.asleep, List.foldl_append]
      exact ends _ decided
  | fails _ failed raised =>
    have broken : ∀ {P : Prop}, m'.control.failed = none → P := fun fine => by cases fine.symm.trans failed
    refine ⟨?_, sturdy, running, broken, broken⟩
    cases t with
    | collect => trivial
    | step canceled =>
      cases has : m.executed (.step canceled) with
      | none =>
        rw [beats_of_rests has]
        trivial
      | some e =>
        obtain ⟨i, m₁⟩ := e
        obtain ⟨next, run⟩ := executes_of_executed has
        obtain ⟨-, slumbers⟩ := watches.acts few next run
        rw [beats_of_executed has]
        refine Beat.timely_append.2 ⟨timely_naps _ _, ?_⟩
        split
        · trivial
        · exact (slumbers.reschedule canceled).1

theorem Watches.play (watches : m.Watches c armed) {ts : List Turn}
    (sound : m.Along (fun m t => ¬ m.Crashes t ∧ m.control.sched.nextId ≤ UInt32.size) ts) :
    Beat.Timely armed (m.history ts) ∧ (m.play ts).Watches c (Beat.asleep armed (m.history ts)) := by
  induction ts generalizing m armed with
  | nil => exact ⟨trivial, watches⟩
  | cons t ts ih =>
    obtain ⟨⟨here, few⟩, later⟩ := sound
    obtain ⟨timely, watches'⟩ := watches.turn few here
    obtain ⟨timely', ends⟩ := ih watches' later
    refine ⟨Beat.timely_append.2 ⟨timely, timely'⟩, ?_⟩
    rw [history, Beat.asleep, List.foldl_append]
    exact ends

end

theorem create_watches {size : Int} {code : Code} {options : Options} {clock : Clock} {sink : Sink}
    {order : Enumeration} {m : Machine} (made : Machine.create size code options clock sink order = .ok m) :
    m.Watches code [] := by
  obtain ⟨sturdy, running⟩ := create_sturdy code.leads_anywhere made
  have start := (create_inOrder made).1
  obtain ⟨h, heap, rfl⟩ := create_eq made
  exact ⟨sturdy, running, fun _ => Heap.create_wired heap, fun _ => ⟨start, .nil⟩⟩

/-- Ids fit into an entry of a queue along a run if they do before its last turn. -/
theorem Steady.sound_few {code : Code} {m : Machine} (steady : m.Steady code) {ts : List Turn}
    (few : (m.play ts).control.sched.nextId ≤ UInt32.size) (t : Turn) :
    m.Along (fun m t => ¬ m.Crashes t ∧ m.control.sched.nextId ≤ UInt32.size) (ts ++ [t]) := by
  induction ts generalizing m with
  | nil => exact ⟨⟨steady.not_crashes t, few⟩, trivial⟩
  | cons u ts ih =>
    exact ⟨⟨steady.not_crashes u, Nat.le_trans (steady.nextId_le_play (u :: ts)) few⟩, ih (steady.turn u) few⟩

end Machine

end FiberVm
