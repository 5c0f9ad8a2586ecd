import FiberVm.Proofs.Machine.Instructions

/-!
# A cycle of the machine

The clock ticks, the program counter moves on, the instruction is executed and the scheduler decides who
goes on. A cycle simulates itself, and unless the program is over some fiber runs afterwards.
-/

set_option autoImplicit false

namespace FiberVm

section

variable {q : Terms} {w : World} {m m' m₁ m₂ : Machine} {canceled : Bool} {i : Instr}

theorem Exec.reschedule_eq (canceled : Bool) (m : Machine) :
    Exec.reschedule canceled m = match m.control.sched.reschedule canceled with
      | .ok _ s => .ok () (m.withSched s)
      | .error e s => .error (.fault e) (m.withSched s) := by
  obtain ⟨h, c⟩ := m
  rfl

theorem Exec.Blind.reschedule (canceled : Bool) : Exec.Blind (Exec.reschedule canceled) := by
  intro v m
  unfold Commutes
  rw [Exec.reschedule_eq, Exec.reschedule_eq]
  change (match m.control.sched.reschedule canceled with
    | .ok _ s => _
    | .error e s => _) = _
  cases m.control.sched.reschedule canceled <;> rfl

theorem Sim.reschedule (alike : m₁.Alike q w m₂) :
    Sim q w (Exec.reschedule canceled) (Exec.reschedule canceled) m₁ m₂ := by
  have decided := alike.control.fit.reschedule canceled
  have run₁ := Exec.reschedule_eq canceled m₁
  have run₂ := Exec.reschedule_eq canceled m₂
  rw [alike.control.sched, Scheduler.reschedule_rename] at run₂
  cases result : m₁.control.sched.reschedule canceled with
  | ok _ s =>
    rw [result] at decided run₁ run₂
    refine .ok run₁ run₂ ⟨alike.withSched decided.1, rfl, .refl fun v => ?_⟩
    exact ⟨Exec.Blind.reschedule canceled v m₁, Exec.Blind.reschedule canceled _ m₂⟩
  | error e s =>
    rw [result] at decided run₁ run₂
    refine .fault run₁ run₂ rfl ⟨alike.withSched decided, rfl, .refl fun v => ?_⟩
    exact ⟨Exec.Blind.reschedule canceled v m₁, Exec.Blind.reschedule canceled _ m₂⟩

def Machine.fetched (m : Machine) : Machine :=
  m.withSched { m.control.sched with
    clock := m.control.sched.clock.tick
    current := { m.control.sched.current with pc := m.control.sched.current.pc + 1 } }

def Exec.finish (canceled : Bool) : Exec Unit := do
  if ← asks (·.result.isSome) then return () else reschedule canceled

theorem Exec.cycle_eq (canceled : Bool) (i : Instr) (m : Machine) :
    Exec.cycle canceled i m = (Exec.instr i >>= fun _ => Exec.finish canceled) m.fetched := rfl

theorem Machine.Alike.fetched (alike : m₁.Alike q w m₂) : m₁.fetched.Alike q w m₂.fetched := by
  have fit : m₁.fetched.control.sched.Fit w.role := by
    refine alike.control.fit.of_current rfl rfl rfl rfl rfl fun alive => ?_
    obtain ⟨env, operands, frames⟩ := alike.typed alive
    exact ⟨env, operands, frames⟩
  have moved := alike.withSched fit
  have same : m₂.fetched = m₂.withSched (m₁.fetched.control.sched.rename w.image) := by
    unfold Machine.fetched
    rw [alike.control.sched]
    rfl
  rw [same]
  exact moved

theorem Sim.finish (alike : m₁.Alike q w m₂) :
    Sim q w (Exec.finish canceled) (Exec.finish canceled) m₁ m₂ := by
  refine .asks ?_
  rw [alike.control.result, Option.isSome_map]
  by_cases ended : m₁.control.result.isSome = true
  · rw [if_pos ended]
    exact .pure alike
  · rw [if_neg ended]
    exact .reschedule alike

theorem Machine.Allows.fetched (allows : m.Allows q i) : m.fetched.Allows q i :=
  ⟨allows.constant, allows.outer, allows.prints⟩

theorem Sim.afterFetch (canceled : Bool) (alike : m₁.Alike q w m₂) (running : m₁.control.sched.current.state = .running)
    (settled : ∀ x, ¬ w.recent x) (allows : m₁.Allows q i) :
    Sim q w (Exec.instr i >>= fun _ => Exec.finish canceled) (Exec.instr i >>= fun _ => Exec.finish canceled)
      m₁.fetched m₂.fetched :=
  .bind alike.fetched (.instr alike.fetched running settled allows.fetched) fun _ _ _ _ ends =>
    .finish ends.alike

theorem Sim.cycle (alike : m₁.Alike q w m₂) (running : m₁.control.sched.current.state = .running)
    (settled : ∀ x, ¬ w.recent x) (allows : m₁.Allows q i) :
    Sim q w (Exec.cycle canceled i) (Exec.cycle canceled i) m₁ m₂ := by
  cases Sim.afterFetch canceled alike running settled allows with
  | ok run₁ run₂ ends => exact .ok run₁ run₂ ⟨ends.alike, ends.pinned, ends.keeps⟩
  | fault run₁ run₂ kind ends => exact .fault run₁ run₂ kind ⟨ends.alike, ends.pinned, ends.keeps⟩
  | left starves => exact .left ⟨starves.run, starves.alike, starves.keeps⟩
  | right starves => exact .right ⟨starves.run, starves.alike, starves.keeps⟩

/-- Unless the program is over some fiber runs after a cycle. -/
theorem Exec.cycle_running (alike : m.Alike q w m) (running : m.control.sched.current.state = .running)
    (settled : ∀ x, ¬ w.recent x) (allows : m.Allows q i) (run : Exec.cycle canceled i m = .ok () m')
    (more : m'.control.result = none) : m'.control.sched.current.state = .running := by
  rw [Exec.cycle_eq] at run
  cases Sim.instr alike.fetched running settled allows.fetched with
  | left starves => cases (bind_of_error starves.run).symm.trans run
  | right starves => cases (bind_of_error starves.run).symm.trans run
  | fault run₁ _ _ _ => cases (bind_of_error run₁).symm.trans run
  | @ok m₁' _ w' run₁ _ ends =>
    have rest := (bind_of_ok run₁).symm.trans run
    have finish : Exec.finish canceled m₁' = if m₁'.control.result.isSome then .ok () m₁'
        else Exec.reschedule canceled m₁' := by
      change (if m₁'.control.result.isSome then Pure.pure () else Exec.reschedule canceled : Exec Unit) m₁' = _
      split <;> rfl
    rw [finish] at rest
    by_cases ended : m₁'.control.result.isSome = true
    · rw [if_pos ended] at rest
      cases rest
      rw [more] at ended
      cases ended
    · have decided := ends.alike.control.fit.reschedule canceled
      rw [if_neg ended, Exec.reschedule_eq] at rest
      cases result : m₁'.control.sched.reschedule canceled with
      | ok _ s =>
        rw [result] at rest decided
        cases rest
        exact decided.2
      | error e s =>
        rw [result] at rest
        cases rest

end

end FiberVm
