import FiberVm.Failure
import FiberVm.Machine.Clock
import FiberVm.Machine.Fiber

/-!
# The scheduler

One fiber is current and holds the live registers; the others wait in a table, ordered by id. Ready
fibers queue up and are resumed in the order in which they became ready. A fiber that has used up
its slice goes to the end of the queue. Sleeping fibers have a timer each; timers are kept by deadline
and, for equal deadlines, in the order in which they were armed.

When nothing is ready the scheduler sleeps until the earliest timer is due. Without timers either,
all fibers are blocked for good.

A value for a fiber goes on top of its saved operand stack. The saved stack of the fiber that runs
is out of date and will be thrown away, but until the live one moves to a larger block, both share
their storage.
-/

set_option autoImplicit false

namespace FiberVm

/-- Wakes a fiber at a point in time. -/
structure Timer where
  deadline : Int
  fiber : Nat
deriving DecidableEq, Repr

/-- Who runs, who waits and until when. -/
structure Scheduler where
  /-- The fiber that runs, or ran last, with its live registers. -/
  current : Fiber
  /-- The other fibers that have not terminated, ascending by id. -/
  others : List Fiber
  /-- Ids of the ready fibers, next first. -/
  ready : List Nat
  timers : List Timer
  /-- Instructions left to the current fiber before it must give way. -/
  slice : Int
  /-- The length of a slice. -/
  quantum : Int
  /-- The length of the first slice of fiber 1. -/
  firstQuantum : Int
  nextId : Nat
  switches : Nat
  clock : Clock
  /-- The height of the saved operand stack of the current fiber, while it shares its storage with
  the live one. -/
  saved : Option Nat := some 0

namespace Scheduler

def create (quantum firstQuantum : Int) (env : Addr) (clock : Clock) : Scheduler :=
  { current := { id := 0, state := .running, pc := 0, env := env, started := true }
    others := []
    ready := []
    timers := []
    slice := quantum
    quantum := quantum
    firstQuantum := firstQuantum
    nextId := 1
    switches := 1
    clock := clock }

/-- Puts a fiber into a table ordered by id. -/
def insertFiber (f : Fiber) : List Fiber → List Fiber
  | [] => [f]
  | g :: rest => if f.id < g.id then f :: g :: rest else g :: insertFiber f rest

/-- The fibers that have not terminated, ascending by id. -/
def live (s : Scheduler) : List Fiber :=
  if s.current.state = .terminated then s.others else insertFiber s.current s.others

def isLive (s : Scheduler) (id : Nat) : Bool := s.live.any (fun f => f.id == id)

def blockedCount (s : Scheduler) : Nat := s.live.countP (fun f => f.state == .blocked)

/-- Everything that the registers of live fibers refer to. -/
def roots (s : Scheduler) : List Addr := s.live.flatMap Fiber.roots

/-- Adds a ready fiber with the registers given. -/
def spawn (s : Scheduler) (pc : Int) (env : Addr) : Scheduler :=
  let f : Fiber := { id := s.nextId, state := .ready, pc := pc, env := env }
  { s with
    others := insertFiber f s.others
    ready := s.ready ++ [f.id]
    nextId := s.nextId + 1 }

def park (s : Scheduler) : Scheduler := { s with current := { s.current with state := .blocked } }

def terminate (s : Scheduler) : Scheduler :=
  { s with current := { s.current with state := .terminated } }

/-- Arms a timer behind those that are due no later. -/
def arm (t : Timer) : List Timer → List Timer
  | [] => [t]
  | u :: rest => if t.deadline < u.deadline then t :: u :: rest else u :: arm t rest

def look (s : Scheduler) : Scheduler := { s with clock := s.clock.look }

/-- Blocks the current fiber until `ms` milliseconds have passed. -/
def sleep (s : Scheduler) (ms : Int64) : Scheduler :=
  { s.look.park with
    timers := arm ⟨s.look.clock.now + (millis ms).toInt, s.current.id⟩ s.timers }

/-- Makes a blocked fiber ready; any other is left alone. -/
def wake (s : Scheduler) (id : Nat) : Scheduler :=
  if s.current.id = id then
    if s.current.state = .blocked then
      { s with current := { s.current with state := .ready }, ready := s.ready ++ [id] }
    else s
  else if s.others.any (fun f => f.id == id && f.state == .blocked) then
    { s with
      others := s.others.map fun f => if f.id = id then { f with state := .ready } else f
      ready := s.ready ++ [id] }
  else s

def push (s : Scheduler) (a : Addr) : Scheduler :=
  { s with
    current := s.current.push a
    saved := if s.current.spare = 0 then none else s.saved }

/-- Pushes a value onto the saved operand stack of the current fiber. In shared storage it replaces
the live operand at that height. -/
def deliverSaved (s : Scheduler) (v : Addr) : Scheduler :=
  match s.saved with
  | none => s
  | some height =>
    let room := s.current.operands.length + s.current.spare
    { s with
      current := s.current.overwrite height v
      saved := if height < room then some (height + 1) else none }

/-- Pushes a value onto the saved operand stack of a fiber. -/
def deliver (s : Scheduler) (id : Nat) (v : Addr) : Scheduler :=
  if s.current.id = id then s.deliverSaved v
  else { s with others := s.others.map fun f => if f.id = id then f.push v else f }

/-- Wakes every sleeper whose deadline has passed by the last reading. -/
def wakeDue (s : Scheduler) : Scheduler :=
  let due := s.timers.takeWhile fun t => t.deadline ≤ s.clock.now
  let later := s.timers.dropWhile fun t => t.deadline ≤ s.clock.now
  due.foldl (fun s t => s.wake t.fiber) { s with timers := later }

/-- Wakes every sleeper whose deadline has passed. Without sleepers there is no look at the clock. -/
def poll (s : Scheduler) : Scheduler := if s.timers.isEmpty then s else s.look.wakeDue

/-- Sleeps until the deadline, or as long as a single sleep can be. -/
def sleepUntil (s : Scheduler) (deadline : Int) : Scheduler :=
  { s with clock := s.clock.look.sleep (clampDuration (deadline - s.clock.look.now)) }

/-- The time until the earliest timer is due. -/
def lag (s : Scheduler) : Nat :=
  match s.timers with
  | [] => 0
  | t :: _ => (t.deadline - s.clock.now).toNat

theorem wake_timers (s : Scheduler) (id : Nat) : (s.wake id).timers = s.timers := by
  unfold wake
  split
  · split <;> rfl
  · split <;> rfl

theorem wake_clock (s : Scheduler) (id : Nat) : (s.wake id).clock = s.clock := by
  unfold wake
  split
  · split <;> rfl
  · split <;> rfl

theorem foldl_wake_timers (due : List Timer) (s : Scheduler) :
    (due.foldl (fun s t => s.wake t.fiber) s).timers = s.timers := by
  induction due generalizing s with
  | nil => rfl
  | cons t due ih => rw [List.foldl_cons, ih, wake_timers]

theorem foldl_wake_clock (due : List Timer) (s : Scheduler) :
    (due.foldl (fun s t => s.wake t.fiber) s).clock = s.clock := by
  induction due generalizing s with
  | nil => rfl
  | cons t due ih => rw [List.foldl_cons, ih, wake_clock]

theorem wakeDue_timers (s : Scheduler) :
    s.wakeDue.timers = s.timers.dropWhile fun t => t.deadline ≤ s.clock.now :=
  foldl_wake_timers _ _

theorem wakeDue_clock (s : Scheduler) : s.wakeDue.clock = s.clock := foldl_wake_clock _ _

theorem poll_nil {s : Scheduler} (none : s.timers = []) : s.poll = s := by
  rw [poll, none]
  rfl

theorem poll_cons {s : Scheduler} {t : Timer} {rest : List Timer} (some : s.timers = t :: rest) :
    s.poll = s.look.wakeDue := by
  rw [poll, some]
  rfl

theorem poll_timers (s : Scheduler) :
    s.poll.timers = s.timers.dropWhile fun t => t.deadline ≤ s.look.clock.now := by
  cases timers : s.timers with
  | nil => rw [poll_nil timers, timers, List.dropWhile_nil]
  | cons t rest =>
    rw [poll_cons timers, wakeDue_timers, ← timers]
    rfl

/-- One round of sleeping and polling takes a timer off, or brings the earliest nearer. -/
theorem sleepUntil_poll_lt (s : Scheduler) (t : Timer) (rest : List Timer)
    (h : s.timers = t :: rest) :
    Prod.Lex (· < ·) (· < ·)
      ((s.sleepUntil t.deadline).poll.timers.length, (s.sleepUntil t.deadline).poll.lag)
      (s.timers.length, s.lag) := by
  have timers : (s.sleepUntil t.deadline).timers = t :: rest := h
  by_cases due : t.deadline ≤ (s.sleepUntil t.deadline).look.clock.now
  · apply Prod.Lex.left
    rw [poll_timers, timers, h, List.dropWhile_cons_of_pos (by simpa using due)]
    have le := (List.dropWhile_sublist
      (fun u : Timer => decide (u.deadline ≤ (s.sleepUntil t.deadline).look.clock.now))
      (l := rest)).length_le
    simp only [List.length_cons]
    omega
  · have same : (s.sleepUntil t.deadline).poll.timers = t :: rest := by
      rw [poll_timers, timers, List.dropWhile_cons_of_neg (by simpa using due)]
    rw [same, h]
    apply Prod.Lex.right
    unfold lag
    rw [same, h, poll_cons timers, wakeDue_clock]
    have now : (s.sleepUntil t.deadline).look.clock.now
        = (s.clock.look.sleep (clampDuration (t.deadline - s.clock.look.now))).now
          + (s.sleepUntil t.deadline).clock.lapses (s.sleepUntil t.deadline).clock.looks := rfl
    have looked : s.clock.look.now = s.clock.now + s.clock.lapses s.clock.looks := rfl
    rw [now] at due ⊢
    unfold Clock.sleep clampDuration at due ⊢
    split at due <;> rename_i pos
    · simp only [pos, if_true] at *
      omega
    · omega

set_option linter.unusedVariables false in
/-- Sleeps until some fiber is ready. -/
def awaitReady (canceled : Bool) (s : Scheduler) : EStateM.Result Cause Scheduler Unit :=
  if s.ready.isEmpty then
    match h : s.timers with
    | [] => .error (.deadlock s.blockedCount) s
    | t :: rest =>
      if canceled then .error .canceled s
      else awaitReady canceled (s.sleepUntil t.deadline).poll
  else .ok () s
termination_by (s.timers.length, s.lag)
decreasing_by exact sleepUntil_poll_lt s t rest h

/-- The length of the slice that a fiber is about to get. -/
def sliceFor (s : Scheduler) (f : Fiber) : Int :=
  if f.id = 1 ∧ f.started = false then s.firstQuantum else s.quantum

/-- Gives the processor to the first ready fiber. -/
def resume (s : Scheduler) : Scheduler :=
  match s.ready with
  | [] => s
  | id :: rest =>
    if s.current.id = id then
      { s with
        current := { s.current with state := .running, started := true }
        ready := rest
        slice := s.sliceFor s.current
        saved := some s.current.operands.length }
    else
      match s.others.find? (fun f => f.id == id) with
      | none => { s with ready := rest }
      | some f =>
        let remaining := s.others.filter (fun g => g.id != id)
        { s with
          current := { f with state := .running, started := true }
          others :=
            if s.current.state = .terminated then remaining else insertFiber s.current remaining
          ready := rest
          slice := s.sliceFor f
          switches := s.switches + 1
          saved := some f.operands.length }

/-- Makes the next fiber current, sleeping until there is one. -/
def next (canceled : Bool) (s : Scheduler) : EStateM.Result Cause Scheduler Unit :=
  match awaitReady canceled s.poll with
  | .ok _ s => .ok () s.resume
  | .error c s => .error c s

/-- Charges one instruction to the current fiber and switches if it blocked, ended, or used up its
slice while another fiber is ready. -/
def reschedule (canceled : Bool) (s : Scheduler) : EStateM.Result Cause Scheduler Unit :=
  if s.current.state = .running then
    let s := { s with slice := s.slice - 1 }
    if 0 < s.slice then .ok () s
    else
      let s := s.poll
      if s.ready.isEmpty then .ok () { s with slice := s.quantum }
      else
        next canceled
          { s with
            current := { s.current with state := .ready }
            ready := s.ready ++ [s.current.id] }
  else next canceled s

end Scheduler

end FiberVm
