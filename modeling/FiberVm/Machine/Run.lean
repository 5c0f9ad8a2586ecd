import FiberVm.Machine.Step

/-!
# Runs

A run steps the machine until the program finishes or a step fails. With a step limit the run ends
by itself; without one it is cut off after more instructions than any host waits for.
-/

set_option autoImplicit false

namespace FiberVm

namespace Machine

/-- The value left by a finished program. -/
def result (m : Machine) : Except Error Value :=
  match m.control.result with
  | none => .error .notHalted
  | some a =>
    match Heap.unbox a m.heap with
    | .ok v _ => .ok v
    | .error (.fault c) _ => .error (.result c)
    | .error (.crash c) _ => .error (.crash c)

/-- Instructions after which a run without a limit is cut off. -/
def patience : Nat := 0x4000000000000000

/-- A bound on the steps that a run can still make. -/
def allowance (m : Machine) : Nat :=
  if 0 < m.control.stepLimit then m.control.stepLimit.toNat + 1 - m.control.steps else patience

/-- Makes at most `fuel` steps, showing each instruction to an observer before it is executed. The
host's wish to stop is looked at every 1024 steps. -/
def runFor {ω : Type} (observe : ω → Event → ω) (canceled : Bool) :
    Nat → ω → Machine → ω × Except Error Value × Machine
  | 0, o, m => (o, if m.halted then m.result else .error .endless, m)
  | fuel + 1, o, m =>
    if m.halted then (o, m.result, m)
    else if canceled && m.control.steps % 1024 == 0 then (o, .error .canceled, m)
    else
      let o := match m.event? with
        | some e => observe o e
        | none => o
      match step canceled m with
      | .ok _ m => runFor observe canceled fuel o m
      | .error e m => (o, .error e, m)

/-- Runs to the end under an observer. -/
def observe {ω : Type} (f : ω → Event → ω) (canceled : Bool) (o : ω) (m : Machine) :
    ω × Except Error Value × Machine :=
  runFor f canceled (m.allowance + 1) o m

def run (canceled : Bool) (m : Machine) : Except Error Value × Machine :=
  (observe (fun _ _ => ()) canceled () m).2

/-- Makes `n` steps unless one fails. -/
def steps (canceled : Bool) : Nat → EStateM Error Machine Unit
  | 0 => return ()
  | n + 1 => do
    step canceled
    steps canceled n

end Machine

end FiberVm
