import FiberVm.Proofs.Machine.Invocation
import FiberVm.Proofs.Machine.Sleepers

/-!
# How long a sleep lasts

The length of a sleep is given in milliseconds and becomes a number of nanoseconds, either of 64 bits. What is too
long is cut to the longest sleep, so above zero no product wraps round. Below zero nothing is cut: as long as the
product fits, such a sleep is over when the timers are polled next, but where it does not fit it wraps round, and may
become a sleep of centuries.
-/

set_option autoImplicit false

namespace FiberVm

open Heap (Shows Wired)

theorem toInt_maxMillis : maxMillis.toInt = 9223372036854 := rfl

/-- Unless the product is too small for 64 bits it is exact, up to the longest sleep. -/
theorem toInt_millis {ms : Int64} (low : -maxMillis ≤ ms) :
    (millis ms).toInt = min ms.toInt maxMillis.toInt * 1000000 := by
  have low : (-maxMillis).toInt ≤ ms.toInt := Int64.le_iff_toInt_le.1 low
  have least : (-maxMillis).toInt = -9223372036854 := rfl
  have cut : (if maxMillis < ms then maxMillis else ms).toInt = min ms.toInt maxMillis.toInt := by
    split
    · next above => exact (Int.min_eq_right (Int.le_of_lt (Int64.lt_iff_toInt_lt.1 above))).symm
    · next below => exact (Int.min_eq_left (Int.not_lt.1 fun above => below (Int64.lt_iff_toInt_lt.2 above))).symm
  rw [toInt_maxMillis] at cut ⊢
  rw [millis, Int64.toInt_mul, cut, show (1000000 : Int64).toInt = 1000000 from rfl]
  exact Int.bmod_eq_of_le (by omega) (by omega)

theorem millis_le {a b : Int64} (low : -maxMillis ≤ a) (le : a ≤ b) : (millis a).toInt ≤ (millis b).toInt := by
  rw [toInt_millis low, toInt_millis (Int64.le_trans low le)]
  have le : a.toInt ≤ b.toInt := Int64.le_iff_toInt_le.1 le
  omega

theorem millis_nonpos {ms : Int64} (low : -maxMillis ≤ ms) (none : ms ≤ 0) : (millis ms).toInt ≤ 0 :=
  millis_le low none

namespace Machine

variable {m : Machine} {ms : Int64}

/-- The next step calls for a sleep of `ms` milliseconds. -/
def NapsFor (m : Machine) (ms : Int64) : Prop := ∃ i x, m.Invokes i .sleep [x] ∧ Shows m.heap.words x (.int ms)

/-- What the clock says when the next step puts the current fiber to sleep. -/
def bedtime (m : Machine) : Int := m.begun.control.sched.look.clock.now

/-- The next step puts the current fiber to sleep until `d`. -/
def SleepsUntil (m : Machine) (d : Int) : Prop :=
  ∃ i m', (∀ canceled, m.executed (.step canceled) = some (i, m')) ∧ m'.current.id = m.current.id ∧
    m'.current.state = .blocked ∧
    m'.control.sched.timers = Scheduler.arm ⟨d, m.current.id⟩ m.control.sched.timers

end Machine

theorem Exec.sleep_eq {m : Machine} {x : Addr} {ms : Int64} (s : Shows m.heap.words x (.int ms)) :
    Exec.builtin .sleep [x] m = .ok () (m.withSched ((m.control.sched.push Heap.unassigned).sleep ms)) :=
  (bind_of_ok (Exec.argument_of_getElem? rfl)).trans (bind_of_ok (Exec.intArg_shows s _))

namespace Machine

variable {m : Machine} {ms : Int64}

/-- A sleep is timed from when the clock is looked at. Before anybody goes on the timers are polled. -/
theorem NapsFor.sleeps (naps : m.NapsFor ms) : m.SleepsUntil (m.bedtime + (millis ms).toInt) ∧
    ∀ canceled, ∃ s later, m.beats (.step canceled) =
      .sleeps ⟨m.bedtime + (millis ms).toInt, m.current.id⟩ :: .polls s :: later ∧ m.bedtime ≤ s.look.clock.now := by
  obtain ⟨i, x, invokes, s⟩ := naps
  have here : Shows (m.invoked [x]).heap.words x (.int ms) := s
  have has := invokes.executed (Exec.sleep_eq here)
  refine ⟨⟨i, _, has, rfl, rfl, rfl⟩, fun canceled => ?_⟩
  have nap : m.begun.nap i = some ⟨m.bedtime + (millis ms).toInt, m.current.id⟩ := by
    have callee : m.begun.callee i = some .sleep := invokes.callee
    have arguments : m.begun.arguments i = [x] := invokes.arguments
    have value : Heap.intValue x m.begun.heap = .ok ms m.heap := Heap.intValue_shows s
    rw [Machine.nap, callee, arguments]
    simp only [Builtin.nap, List.getElem?_cons_zero, value]
    rfl
  have more : ((m.invoked [x]).withSched
      (((m.invoked [x]).control.sched.push Heap.unassigned).sleep ms)).control.result = none := invokes.next.2.1
  rw [beats_of_executed (has canceled), nap, more]
  refine ⟨_, _, rfl, ?_⟩
  show m.bedtime ≤ m.bedtime + _
  omega

/-- Who sleeps for no time at all is ready again after the next poll. -/
theorem NapsFor.wakes {code : Code} {armed : List Timer} (naps : m.NapsFor ms) (none : (millis ms).toInt ≤ 0)
    (watches : m.Watches code armed) (few : m.control.sched.nextId ≤ UInt32.size) {canceled : Bool}
    (sound : ¬ m.Crashes (.step canceled)) : ∃ s later, m.beats (.step canceled) =
      .sleeps ⟨m.bedtime + (millis ms).toInt, m.current.id⟩ :: .polls s :: later ∧
        s.poll.HasState m.current.id .ready := by
  obtain ⟨s, later, beats, after⟩ := naps.sleeps.2 canceled
  have timely := (watches.turn few sound).1
  rw [beats] at timely
  obtain ⟨-, polled, -⟩ := timely
  have rouses := polled s rfl
  refine ⟨s, later, beats, rouses.awake _ (List.mem_append_right _ List.mem_cons_self) ?_⟩
  show m.bedtime + (millis ms).toInt ≤ s.look.clock.now
  omega

/-- Unless the product wraps round, who calls for a shorter sleep, or goes to sleep at the same time for just as long,
is not the later one to be woken. Who calls for no sleep at all is ready again after the next poll. -/
theorem naps_monotone {size : Int} {code : Code} {options : Options} {clock : Clock} {sink : Sink}
    {order : Enumeration} {m : Machine} (made : Machine.create size code options clock sink order = .ok m)
    {ts : List Turn} {canceled : Bool} (sound : m.Along
      (fun m t => ¬ m.Crashes t ∧ m.control.sched.nextId ≤ UInt32.size) (ts ++ [.step canceled]))
    {a : Int64} (low : -maxMillis ≤ a) (naps : (m.play ts).NapsFor a) :
    ∃ d, (m.play ts).SleepsUntil d ∧
      (∀ (m' : Machine) (b : Int64), m'.NapsFor b → m'.bedtime = (m.play ts).bedtime → a ≤ b →
        ∃ e, m'.SleepsUntil e ∧ d ≤ e) ∧
      (a ≤ 0 → d ≤ (m.play ts).bedtime ∧ ∃ s later, (m.play ts).beats (.step canceled) =
        .sleeps ⟨d, (m.play ts).current.id⟩ :: .polls s :: later ∧ s.poll.HasState (m.play ts).current.id .ready) := by
  obtain ⟨before, ⟨crashless, few⟩, -⟩ := along_append.1 sound
  have watches := ((create_watches made).play before).2
  refine ⟨_, naps.sleeps.1, fun m' b naps' same le => ⟨_, naps'.sleeps.1, ?_⟩, fun none => ?_⟩
  · have le := millis_le low le
    omega
  · have none := millis_nonpos low none
    exact ⟨by omega, naps.wakes none watches few crashless⟩

/-- Sleeps for some milliseconds. -/
def dozeProgram (ms : Int64) : Program Datum :=
  { version := 1
    records := [{ opcode := "LD", value := .null, position := [0, 2], sym := "sleep" },
      { opcode := "LDC", value := .int ms }, { opcode := "CALL", value := .null, arity := 1 },
      { opcode := "DONE", value := .null }] }

def dozeInstrs (ms : Int64) : List Instr :=
  [.load ⟨0, 2⟩ "sleep", .loadConst (.int .int64 ms), .call 1, .done]

/-- The machine is about to sleep, and no time has passed. -/
def AboutToDoze (m : Machine) (ms : Int64) : Prop :=
  m.Executes (.call 1) ∧ m.current.operands = [256, 96] ∧ Shows m.heap.words 96 (.builtin .sleep 1) ∧
    Shows m.heap.words 256 (.int ms) ∧ m.bedtime = 0 ∧ m.control.sched.nextId ≤ UInt32.size

instance (m : Machine) (ms : Int64) : Decidable (m.AboutToDoze ms) :=
  inferInstanceAs (Decidable (_ ∧ _ ∧ _ ∧ _ ∧ _ ∧ _))

theorem AboutToDoze.napsFor (about : m.AboutToDoze ms) : m.NapsFor ms := by
  obtain ⟨next, operands, function, argument, -⟩ := about
  exact ⟨.call 1, 256, ⟨next, .inl rfl, 96, [], operands, function⟩, argument⟩

/-- The shortest sleep whose product fits is over at once, and not after a sleep of no time. -/
theorem naps_monotone_least : ∃ m m' : Machine, (dozeProgram (-maxMillis)).instrs = .ok (dozeInstrs (-maxMillis)) ∧
    Machine.create 336 (Code.ofInstrs (dozeInstrs (-maxMillis))) {} = .ok m ∧
    m.Along (fun m t => ¬ m.Crashes t ∧ m.control.sched.nextId ≤ UInt32.size) (List.replicate 3 (.step false)) ∧
    (m.play (List.replicate 2 (.step false))).NapsFor (-maxMillis) ∧ m'.NapsFor 0 ∧
    m'.bedtime = (m.play (List.replicate 2 (.step false))).bedtime ∧
    ∃ d e, (m.play (List.replicate 2 (.step false))).SleepsUntil d ∧ m'.SleepsUntil e ∧ d ≤ e ∧ d ≤ 0 := by
  obtain ⟨m, made, about⟩ : ∃ m, Machine.create 336 (Code.ofInstrs (dozeInstrs (-maxMillis))) {} = .ok m ∧
      (m.play (List.replicate 2 (.step false))).AboutToDoze (-maxMillis) :=
    ⟨_, Machine.create_listed rfl, by decide +kernel⟩
  obtain ⟨m', made', about'⟩ : ∃ m', Machine.create 336 (Code.ofInstrs (dozeInstrs 0)) {} = .ok m' ∧
      (m'.play (List.replicate 2 (.step false))).AboutToDoze 0 := ⟨_, Machine.create_listed rfl, by decide +kernel⟩
  have inner : ∀ pos sym, Instr.assign pos sym ∈ dozeInstrs (-maxMillis) → pos.frame ≠ 0 := by simp [dozeInstrs]
  have decoded : (dozeProgram (-maxMillis)).instrs = .ok (dozeInstrs (-maxMillis)) := rfl
  have zero : (m.play (List.replicate 2 (.step false))).bedtime = 0 := about.2.2.2.2.1
  have same := about'.2.2.2.2.1.trans zero.symm
  have sound := (create_steady decoded inner made).sound_few about.2.2.2.2.2 (.step false)
  obtain ⟨d, sleeps, later, atOnce⟩ :=
    naps_monotone made sound (by decide) about.napsFor
  obtain ⟨e, sleeps', le⟩ := later _ 0 about'.napsFor same (by decide)
  exact ⟨m, _, decoded, made, sound, about.napsFor, about'.napsFor, same, d, e, sleeps, sleeps', le,
    zero ▸ (atOnce (by decide)).1⟩

/-- One millisecond less, and the product wraps round: the sleep lasts for centuries, though its length is less than
that of a sleep of no time, which is over at once. -/
theorem least_nap_wraps : ∃ m m' : Machine,
    (dozeProgram (-9223372036855)).instrs = .ok (dozeInstrs (-9223372036855)) ∧
    (dozeProgram 0).instrs = .ok (dozeInstrs 0) ∧
    (∃ m₀, Machine.create 336 (Code.ofInstrs (dozeInstrs (-9223372036855))) {} = .ok m₀ ∧
      m₀.play (List.replicate 2 (.step false)) = m) ∧
    (∃ m₀, Machine.create 336 (Code.ofInstrs (dozeInstrs 0)) {} = .ok m₀ ∧
      m₀.play (List.replicate 2 (.step false)) = m') ∧
    m.NapsFor (-9223372036855) ∧ m'.NapsFor 0 ∧ m.bedtime = 0 ∧ m'.bedtime = 0 ∧
    m.SleepsUntil 9223372036854551616 ∧ m'.SleepsUntil 0 := by
  obtain ⟨m, made, about⟩ : ∃ m, Machine.create 336 (Code.ofInstrs (dozeInstrs (-9223372036855))) {} = .ok m ∧
      (m.play (List.replicate 2 (.step false))).AboutToDoze (-9223372036855) :=
    ⟨_, Machine.create_listed rfl, by decide +kernel⟩
  obtain ⟨m', made', about'⟩ : ∃ m', Machine.create 336 (Code.ofInstrs (dozeInstrs 0)) {} = .ok m' ∧
      (m'.play (List.replicate 2 (.step false))).AboutToDoze 0 := ⟨_, Machine.create_listed rfl, by decide +kernel⟩
  have zero := about.2.2.2.2.1
  have zero' := about'.2.2.2.2.1
  have sleeps := about.napsFor.sleeps.1
  have sleeps' := about'.napsFor.sleeps.1
  rw [zero] at sleeps
  rw [zero'] at sleeps'
  exact ⟨_, _, rfl, rfl, ⟨m, made, rfl⟩, ⟨m', made', rfl⟩, about.napsFor, about'.napsFor, zero, zero', sleeps, sleeps'⟩

end Machine

end FiberVm
