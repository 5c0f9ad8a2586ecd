import FiberVm.Proofs.Machine.Counters
import FiberVm.Proofs.Machine.Unobservable

/-!
# Steps and events

Every step that is counted shows its instruction to an observer, with one exception. The step that finds no
instruction, or none within the limit, ends the machine, and then its fault has no opcode.

What an observer makes of a run is what it makes of the events of the run, one after the other. Which they are does not
depend on the observer.
-/

set_option autoImplicit false

namespace FiberVm

namespace Machine

/-- The machine has executed `n` instructions. -/
def HasExecuted (m : Machine) (n : Nat) : Prop :=
  m.stats.steps = n + (m.control.failed.any fun f => f.op.isNone).toNat

/-- A fault that ends a step is the one that the machine keeps, and nothing else makes it keep one. -/
def Remembers : EStateM.Result Error Machine Unit → Prop
  | .error (.fault f) m => m.control.failed = some f
  | .error _ m => m.control.failed = none
  | .ok _ m => m.control.failed = none

section Turns

variable {m : Machine} {n : Nat}

theorem event?_of_executes {i : Instr} (next : m.Executes i) :
    m.event? = some ⟨m.current.id, m.current.pc, i.opcode⟩ := by
  obtain ⟨fine, more, fetched⟩ := next
  simp only [event?, fine, halted, more, fetched, Option.isSome_none, Bool.or_self, Bool.false_eq_true, if_false]

theorem event?_of_not_executes (none : ∀ i, ¬ m.Executes i) : m.event? = Option.none := by
  unfold event?
  split
  · rfl
  · next live =>
    obtain ⟨fine, more⟩ := going_of_live live
    cases fetched : m.control.advance.2 with
    | error e => rfl
    | ok i => exact absurd ⟨fine, more, fetched⟩ (none i)

/-- An instruction that is executed is counted, and a fault has its opcode. -/
theorem HasExecuted.executes (count : m.HasExecuted n) {i : Instr} (next : m.Executes i) (canceled : Bool) :
    (left (step canceled m)).HasExecuted (n + 1) ∧ Remembers (step canceled m) := by
  obtain ⟨steps, -, kept⟩ := next.counted canceled
  replace steps : (left (step canceled m)).control.steps = n + 1 := by
    unfold HasExecuted at count
    rw [next.1] at count
    exact steps.trans (congrArg (· + 1) count)
  -- Of all endings only a fault is kept, and then there is an instruction.
  have executed (m' : Machine) (counted : m'.control.steps = n + 1)
      (opcode : (m'.control.failed.any fun f => f.op.isNone) = false) : m'.HasExecuted (n + 1) := by
    rw [HasExecuted, opcode]
    exact counted
  cases run : step canceled m with
  | ok u m' =>
    rw [run] at steps kept
    exact ⟨executed m' steps (by rw [kept]; rfl), kept⟩
  | error e m' =>
    rw [run] at steps kept
    cases e with
    | fault f => exact ⟨executed m' steps (by rw [kept.1, Option.any_some, kept.2]; rfl), kept.1⟩
    | _ => exact ⟨executed m' steps (by rw [kept]; rfl), kept⟩

theorem HasExecuted.step (count : m.HasExecuted n) (canceled : Bool) :
    (left (step canceled m)).HasExecuted (n + m.event?.toList.length) ∧
      (m.control.failed = none → Remembers (step canceled m)) := by
  cases m.attempt canceled with
  | failed kept none run =>
    rw [run, event?_of_not_executes none]
    exact ⟨count, fun fine => by cases kept.symm.trans fine⟩
  | ended fine _ none run =>
    rw [run, event?_of_not_executes none]
    exact ⟨count, fun _ => fine⟩
  | stuck fine more missing run =>
    have none : ∀ i, ¬ m.Executes i := fun i next => by cases missing.symm.trans next.2.2
    rw [run, event?_of_not_executes none]
    refine ⟨?_, fun _ => rfl⟩
    unfold HasExecuted at count
    rw [fine] at count
    exact congrArg (· + 1) count
  | executes next =>
    rw [event?_of_executes next]
    obtain ⟨counted, kept⟩ := count.executes next canceled
    exact ⟨counted, fun _ => kept⟩

theorem HasExecuted.play (count : m.HasExecuted n) (ts : List Turn) :
    (m.play ts).HasExecuted (n + (m.events ts).length) := by
  induction ts generalizing m n with
  | nil => exact count
  | cons t ts ih =>
    cases t with
    | step canceled =>
      have first : (m.turn (.step canceled)).HasExecuted (n + m.event?.toList.length) := (count.step canceled).1
      rw [events, List.length_append, ← Nat.add_assoc]
      exact ih first
    | collect =>
      have same := m.turn_collect_control
      exact ih (show (m.turn .collect).HasExecuted n by unfold HasExecuted stats at *; rwa [same])

theorem hasExecuted_zero {size : Int} {code : Code} {options : Options} {clock : Clock} {sink : Sink}
    {order : Enumeration} (made : create size code options clock sink order = .ok m) : m.HasExecuted 0 := by
  obtain ⟨h, -, rfl⟩ := create_eq made
  rfl

end Turns

section Runs

theorem foldl_keep (start es : List Event) : es.foldl (fun es e => es ++ [e]) start = start ++ es := by
  induction es generalizing start with
  | nil => exact (List.append_nil start).symm
  | cons e es ih =>
    rw [List.foldl_cons, ih, List.append_assoc]
    rfl

section Equations

variable {ω : Type} {m m' : Machine} {canceled : Bool} {e : Error} (f : ω → Event → ω) (fuel : Nat) (o : ω)

theorem runFor_of_halted (halted : m.halted) : runFor f canceled fuel o m = (o, m.result, m) := by
  cases fuel with
  | zero => rw [runFor, if_pos halted]
  | succ fuel => rw [runFor, if_pos halted]

theorem runFor_of_canceled (going : ¬ m.halted) (stop : (canceled && m.control.steps % 1024 == 0) = true) :
    runFor f canceled (fuel + 1) o m = (o, .error .canceled, m) := by
  rw [runFor, if_neg going, if_pos stop]

theorem runFor_of_ok (going : ¬ m.halted) (on : ¬ (canceled && m.control.steps % 1024 == 0) = true)
    (run : step canceled m = .ok () m') :
    runFor f canceled (fuel + 1) o m = runFor f canceled fuel (m.event?.toList.foldl f o) m' := by
  rw [runFor, if_neg going, if_neg on, run]
  cases m.event? <;> rfl

theorem runFor_of_error (going : ¬ m.halted) (on : ¬ (canceled && m.control.steps % 1024 == 0) = true)
    (run : step canceled m = .error e m') :
    runFor f canceled (fuel + 1) o m = (m.event?.toList.foldl f o, .error e, m') := by
  rw [runFor, if_neg going, if_neg on, run]
  cases m.event? <;> rfl

end Equations

/-- The fault that a run ended in, if it did. -/
def fault? : Except Error Value → Option Fault
  | .error (.fault f) => some f
  | _ => none

theorem fault?_result (m : Machine) : fault? m.result = none := by
  unfold result
  split
  · rfl
  · split <;> rfl

/-- What a run shows does not depend on who looks. -/
theorem runFor_events (canceled : Bool) (fuel : Nat) {m : Machine} {n : Nat} (count : m.HasExecuted n) :
    ∃ (es : List Event) (r : Except Error Value) (m' : Machine),
      (∀ {ω : Type} (f : ω → Event → ω) (o : ω), runFor f canceled fuel o m = (es.foldl f o, r, m')) ∧
      m'.HasExecuted (n + es.length) ∧ (m.control.failed = none → fault? r = m'.control.failed) := by
  induction fuel generalizing m n with
  | zero =>
    refine ⟨[], _, m, fun f o => rfl, count, fun fine => ?_⟩
    rw [fine]
    split
    · exact fault?_result m
    · rfl
  | succ fuel ih =>
    by_cases halted : m.halted
    · exact ⟨[], m.result, m, fun f o => runFor_of_halted f _ o halted, count, fun fine => fine ▸ fault?_result m⟩
    by_cases stop : (canceled && m.control.steps % 1024 == 0)
    · exact ⟨[], .error .canceled, m, fun f o => runFor_of_canceled f fuel o halted stop, count, fun fine => fine.symm⟩
    obtain ⟨counted, reports⟩ := count.step canceled
    cases run : step canceled m with
    | error e m' =>
      rw [run] at counted reports
      refine ⟨m.event?.toList, .error e, m', fun f o => runFor_of_error f fuel o halted stop run, counted,
        fun fine => ?_⟩
      have kept := reports fine
      cases e with
      | fault f => exact kept.symm
      | _ => exact kept.symm
    | ok u m' =>
      rw [run] at counted reports
      obtain ⟨es, r, m'', sees, counted', ends⟩ := ih counted
      refine ⟨m.event?.toList ++ es, r, m'', fun f o => ?_, ?_, fun fine => ends (reports fine)⟩
      · rw [runFor_of_ok f fuel o halted stop run, List.foldl_append]
        exact sees f _
      · rw [List.length_append, ← Nat.add_assoc]
        exact counted'

/-- A run has ended in a fault without an opcode. -/
def Unread (r : Except Error Value) : Prop := ∃ f, r = .error (.fault f) ∧ f.op = none

theorem unread_iff {r : Except Error Value} : Unread r ↔ ((fault? r).any fun f => f.op.isNone) = true := by
  unfold fault?
  split
  · next f =>
    rw [Option.any_some, Option.isNone_iff_eq_none]
    constructor
    · rintro ⟨f', same, op⟩
      cases same
      exact op
    · exact fun op => ⟨f, rfl, op⟩
  · next other =>
    refine iff_of_false ?_ Bool.false_ne_true
    rintro ⟨f, rfl, -⟩
    exact other f rfl

/-- The events of a run that starts on a machine that has not failed are its steps, less the one that ends it if it has
no opcode. -/
theorem observe_events {m : Machine} {n : Nat} (count : m.HasExecuted n) (fine : m.control.failed = none)
    (canceled : Bool) :
    ∃ (es : List Event) (r : Except Error Value) (m' : Machine),
      (∀ {ω : Type} (f : ω → Event → ω) (o : ω), m.observe f canceled o = (es.foldl f o, r, m')) ∧
      (Unread r → n + es.length + 1 = m'.stats.steps) ∧ (¬ Unread r → n + es.length = m'.stats.steps) := by
  obtain ⟨es, r, m', sees, counted, ends⟩ := runFor_events canceled (m.allowance + 1) count
  unfold HasExecuted at counted
  rw [← ends fine] at counted
  refine ⟨es, r, m', sees, fun unread => ?_, fun read => ?_⟩
  · rw [counted, unread_iff.1 unread, Bool.toNat_true]
  · rw [counted, Bool.eq_false_iff.2 (mt unread_iff.2 read), Bool.toNat_false, Nat.add_zero]

end Runs

end Machine

end FiberVm
