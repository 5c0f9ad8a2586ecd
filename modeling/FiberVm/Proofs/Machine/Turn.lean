import FiberVm.Proofs.Machine.Cycle

/-!
# Turns

A host executes instructions and runs collections, in any order. Two machines that are alike are alike
after a step of both, unless one of them is out of memory, and after a collection on either side. No turn
crashes. What a variable holds after a turn was not freed in it: pinning it beforehand would have made no
difference.
-/

set_option autoImplicit false

namespace FiberVm

open Heap (Kept Reaches bottom Shows)

/-- What a host can do with a machine between two instructions. -/
inductive Turn
  | step (canceled : Bool)
  | collect
deriving DecidableEq

namespace Machine

/-- Executes an instruction or runs a collection. -/
def perform : Turn → EStateM Error Machine Unit
  | .step canceled => step canceled
  | .collect => fun m =>
    match Heap.collect (m.control.visit m.heap.stats.collections) m.heap with
    | .ok _ h => .ok () { m with heap := h }
    | .error (.fault c) h => .error (.result c) { m with heap := h }
    | .error (.crash c) h => .error (.crash c) { m with heap := h }

def left {α : Type} : EStateM.Result Error Machine α → Machine
  | .ok _ m => m
  | .error _ m => m

/-- The machine after a turn, however it ended. -/
def turn (m : Machine) (t : Turn) : Machine := left (perform t m)

def play (m : Machine) (ts : List Turn) : Machine := ts.foldl turn m

/-- The turn ends in a crash. -/
def Crashes (m : Machine) (t : Turn) : Prop := ∃ c m', perform t m = .error (.crash c) m'

/-- The next step executes `i`. -/
def Executes (m : Machine) (i : Instr) : Prop :=
  m.control.failed = none ∧ m.control.result = none ∧ m.control.advance.2 = .ok i

/-- The next step assigns something that is collected to the outermost frame. -/
def StoresCollectable (m : Machine) : Prop :=
  ∃ pos sym v h, m.Executes (.assign pos sym) ∧ pos.frame = 0 ∧ m.current.operands.head? = some v ∧
    bottom ≤ v ∧ Heap.store m.current.env pos.frame pos.slot v m.heap = .ok () h

/-- The next step prints a channel or a wait group. -/
def PrintsReference (m : Machine) : Prop :=
  ∃ i x f rest n, m.Executes i ∧ (i = .call 1 ∨ i = .tailCall 1) ∧
    m.current.operands = x :: f :: rest ∧ Shows m.heap.words f (.builtin .println 1) ∧
    Shows m.heap.words x n ∧ n.IsReference

/-- Unless the machine has ended, its current fiber runs. -/
def Running (m : Machine) : Prop :=
  m.control.failed = none → m.control.result = none → m.control.sched.current.state = .running

/-- The machine has failed for want of memory. -/
def OutOfMemory (m : Machine) : Prop := ∃ f, m.control.failed = some f ∧ f.cause.kind = .outOfMemory

/-- The machines are alike between two turns. -/
structure Paired (q : Terms) (w : World) (m₁ m₂ : Machine) : Prop where
  alike : m₁.Alike q w m₂
  settled : ∀ x, ¬ w.recent x
  running : m₁.Running

/-- The outcome of a turn of both machines. The world may still know what has been taken in this turn. -/
inductive Moves (q : Terms) (w : World) (t₁ t₂ : Turn) (m₁ m₂ : Machine) : Prop
  | both (w' : World) : ¬ m₁.Crashes t₁ → ¬ m₂.Crashes t₂ → (m₁.turn t₁).Alike q w' (m₂.turn t₂) →
    (m₁.turn t₁).Running →
    w.Keeps w' (fun v => Commutes (pin v) (perform t₁) m₁ ∧ Commutes (pin (w.image v)) (perform t₂) m₂) →
    Moves q w t₁ t₂ m₁ m₂
  | left {w' : World} : ¬ m₁.Crashes t₁ → (m₁.turn t₁).OutOfMemory → (m₁.turn t₁).Alike q w' (m₁.turn t₁) →
    w.left.Keeps w' (fun v => Commutes (pin v) (perform t₁) m₁) → Moves q w t₁ t₂ m₁ m₂
  | right {w' : World} : ¬ m₂.Crashes t₂ → (m₂.turn t₂).OutOfMemory → (m₂.turn t₂).Alike q w' (m₂.turn t₂) →
    w.right.Keeps w' (fun v => Commutes (pin v) (perform t₂) m₂) → Moves q w t₁ t₂ m₁ m₂

/-- The machine with one more step counted. -/
def counted (m : Machine) : Machine := m.modifyControl fun c => { c with steps := c.steps + 1 }

/-- The fault of a step is kept with the place of the instruction. -/
def conclude (fiber : Nat) (pc : Int) (op : Opcode) :
    EStateM.Result Failure Machine Unit → EStateM.Result Error Machine Unit
  | .ok _ m => .ok () m
  | .error (.fault cause) m => fail m ⟨cause, fiber, pc, some op⟩
  | .error (.crash e) m => .error (.crash e) m

section Step

variable {m : Machine} {canceled : Bool}

theorem step_of_failed {f : Fault} (failed : m.control.failed = some f) :
    step canceled m = .error (.fault f) m := by
  obtain ⟨h, c⟩ := m
  simp only [step, show c.failed = some f from failed]

theorem step_of_halted (fine : m.control.failed = none) (ended : m.control.result.isSome) :
    step canceled m = .error .halted m := by
  obtain ⟨h, c⟩ := m
  simp only [step, show c.failed = none from fine, show c.result.isSome = true from ended, if_true]

theorem advance_fst (c : Control) : c.advance.1 = { c with steps := c.steps + 1 } := by
  unfold Control.advance
  dsimp only
  split <;> rfl

theorem advance_eq (c : Control) {r : Except Cause Instr} (next : c.advance.2 = r) :
    c.advance = ({ c with steps := c.steps + 1 }, r) :=
  Prod.ext (advance_fst c) next

theorem advance_snd (c : Control) : c.advance.2 = if 0 < c.stepLimit ∧ c.stepLimit < (c.steps + 1 : Nat) then
    .error (.stepLimit c.stepLimit) else c.fetch := by
  unfold Control.advance
  dsimp only
  split <;> rfl

theorem fetch_of_advance {c : Control} {i : Instr} (next : c.advance.2 = .ok i) : c.fetch = .ok i := by
  rw [advance_snd] at next
  split at next
  · cases next
  · exact next

theorem step_of_stuck {cause : Cause} (fine : m.control.failed = none) (more : m.control.result = none)
    (next : m.control.advance.2 = .error cause) :
    step canceled m = fail m.counted ⟨cause, m.current.id, m.current.pc, none⟩ := by
  obtain ⟨h, code, limit, sched, sink, steps, result, failed⟩ := m
  obtain rfl : failed = none := fine
  obtain rfl : result = none := more
  simp only [step, advance_eq _ next, Option.isSome_none, Bool.false_eq_true, if_false]
  rfl

theorem step_of_instr {i : Instr} (fine : m.control.failed = none) (more : m.control.result = none)
    (next : m.control.advance.2 = .ok i) :
    step canceled m = conclude m.current.id m.current.pc i.opcode (Exec.cycle canceled i m.counted) := by
  obtain ⟨h, code, limit, sched, sink, steps, result, failed⟩ := m
  obtain rfl : failed = none := fine
  obtain rfl : result = none := more
  simp only [step, advance_eq _ next, Option.isSome_none, Bool.false_eq_true, if_false]
  rfl

/-- What a step comes to. The machine has failed before, or the program is over, or there is nothing to execute, or an
instruction is executed. -/
inductive Attempt (canceled : Bool) (m : Machine) : Prop
  | failed {f : Fault} : m.control.failed = some f → (∀ i, ¬ m.Executes i) → step canceled m = .error (.fault f) m →
    Attempt canceled m
  | ended : m.control.failed = none → m.halted → (∀ i, ¬ m.Executes i) → step canceled m = .error .halted m →
    Attempt canceled m
  | stuck {cause : Cause} : m.control.failed = none → m.control.result = none → m.control.advance.2 = .error cause →
    step canceled m = fail m.counted ⟨cause, m.current.id, m.current.pc, none⟩ → Attempt canceled m
  | executes {i : Instr} : m.Executes i →
    step canceled m = conclude m.current.id m.current.pc i.opcode (Exec.cycle canceled i m.counted) → Attempt canceled m

theorem attempt (canceled : Bool) (m : Machine) : m.Attempt canceled := by
  cases failed : m.control.failed with
  | some f =>
    refine .failed failed (fun i next => ?_) (step_of_failed failed)
    cases failed.symm.trans next.1
  | none =>
    cases result : m.control.result with
    | some a =>
      have halted : m.control.result.isSome := by rw [result]; rfl
      refine .ended failed halted (fun i next => ?_) (step_of_halted failed halted)
      cases result.symm.trans next.2.1
    | none =>
      cases next : m.control.advance.2 with
      | error cause => exact .stuck failed result next (step_of_stuck failed result next)
      | ok i => exact .executes ⟨failed, result, next⟩ (step_of_instr failed result next)

/-- A step that goes well executes an instruction. -/
theorem executes_of_step {m' : Machine} (run : step canceled m = .ok () m') : ∃ i, m.Executes i := by
  cases m.attempt canceled with
  | failed _ _ step => cases step.symm.trans run
  | ended _ _ _ step => cases step.symm.trans run
  | stuck _ _ _ step => cases step.symm.trans run
  | executes next => exact ⟨_, next⟩

end Step

section Pinned

variable {m : Machine} {canceled : Bool} {v : Addr}

theorem conclude_pin (fiber : Nat) (pc : Int) (op : Opcode) (r : EStateM.Result Failure Machine Unit) :
    conclude fiber pc op (after (pin v) r) = after (pin v) (conclude fiber pc op r) := by
  cases r with
  | ok _ m => rfl
  | error e m => cases e <;> rfl

theorem commutes_of_failed {f : Fault} (failed : m.control.failed = some f) :
    Commutes (pin v) (step canceled) m := by
  unfold Commutes
  rw [step_of_failed failed, step_of_failed (m := m.pin v) failed]
  rfl

theorem commutes_of_halted (fine : m.control.failed = none) (ended : m.control.result.isSome) :
    Commutes (pin v) (step canceled) m := by
  unfold Commutes
  rw [step_of_halted fine ended, step_of_halted (m := m.pin v) fine ended]
  rfl

theorem commutes_of_stuck {cause : Cause} (fine : m.control.failed = none) (more : m.control.result = none)
    (next : m.control.advance.2 = .error cause) : Commutes (pin v) (step canceled) m := by
  unfold Commutes
  rw [step_of_stuck fine more next, step_of_stuck (m := m.pin v) fine more next]
  rfl

theorem commutes_of_instr {i : Instr} (fine : m.control.failed = none) (more : m.control.result = none)
    (next : m.control.advance.2 = .ok i) (commutes : Commutes (pin v) (Exec.cycle canceled i) m.counted) :
    Commutes (pin v) (step canceled) m := by
  unfold Commutes at *
  rw [step_of_instr fine more next, step_of_instr (m := m.pin v) fine more next]
  change conclude _ _ _ (Exec.cycle canceled i (m.counted.pin v)) = _
  rw [commutes, conclude_pin]
  rfl

end Pinned

namespace Alike

variable {q : Terms} {w : World} {m₁ m₂ : Machine}

theorem counted (alike : m₁.Alike q w m₂) : m₁.counted.Alike q w m₂.counted := by
  obtain ⟨heap, pins, pinned, plain, program, code, limit, steps, sched, fit, result, value, sink, failed⟩ := alike
  exact ⟨heap, pins, pinned, plain, program, code, limit, congrArg (· + 1) steps, sched, fit, result, value, sink,
    failed⟩

theorem fetch (alike : m₁.Alike q w m₂) : m₂.control.fetch = m₁.control.fetch := by
  unfold Control.fetch
  rw [alike.control.code, alike.control.sched]
  rfl

theorem advance (alike : m₁.Alike q w m₂) : m₂.control.advance.2 = m₁.control.advance.2 := by
  rw [advance_snd, advance_snd, alike.control.limit, alike.control.steps, alike.fetch]

/-- Machines that fail at the same place are still alike. -/
theorem fail (alike : m₁.Alike q w m₂) {f₁ f₂ : Fault} (site : f₂.site = f₁.site) :
    (m₁.modifyControl fun c => { c with failed := some f₁ }).Alike q w
      (m₂.modifyControl fun c => { c with failed := some f₂ }) := by
  obtain ⟨heap, pins, pinned, plain, program, code, limit, steps, sched, fit, result, value, sink, -⟩ := alike
  exact ⟨heap, pins, pinned, plain, program, code, limit, steps, sched, fit, result, value, sink, congrArg some site⟩

theorem failed_none (alike : m₁.Alike q w m₂) :
    m₂.control.failed = none ↔ m₁.control.failed = none := by
  have same := congrArg Option.isNone alike.control.failed
  rw [Option.isNone_map, Option.isNone_map] at same
  rw [← Option.isNone_iff_eq_none, same, Option.isNone_iff_eq_none]

theorem result_none (alike : m₁.Alike q w m₂) :
    m₂.control.result = none ↔ m₁.control.result = none := by
  rw [alike.control.result, Option.map_eq_none_iff]

end Alike

section Steps

variable {q : Terms} {w w' : World} {m m₁ m₂ : Machine} {canceled : Bool} {i : Instr}

theorem Running.of_failed {f : Fault} (failed : m.control.failed = some f) : m.Running := fun fine => by
  rw [failed] at fine
  cases fine

theorem Executes.getElem? (executes : m.Executes i) : m.control.code[m.current.pc.toNat]? = some (some i) := by
  have next := fetch_of_advance executes.2.2
  unfold Control.fetch at next
  dsimp only at next
  split at next
  · cases next
  · split at next
    · rename_i get
      cases next
      exact get
    · cases next

theorem Executes.mem_code (executes : m.Executes i) : some i ∈ m.control.code.toList :=
  Array.mem_toList_iff.2 (Array.mem_of_getElem? executes.getElem?)

/-- The next instruction of a machine with plain code may be executed. -/
theorem Executes.allows (next : m.Executes i) (plain : m.control.code.Plain)
    (safe : ¬ m.StoresCollectable) (quiet : q.quiet → ¬ m.PrintsReference) : m.counted.Allows q i := by
  refine ⟨?_, ?_, ?_⟩
  · obtain ⟨j, e, constant⟩ := plain _ next.mem_code
    cases e
    exact constant
  · rintro pos sym v h rfl outer top store
    refine UInt32.not_le.1 fun high => safe ⟨pos, sym, v, h, next, outer, top, high, store⟩
  · intro holds call x f rest operands println n shows reference
    exact quiet holds ⟨i, x, f, rest, n, next, call, operands, println, shows, reference⟩

theorem turn_of_run {t : Turn} {r : EStateM.Result Error Machine Unit} (run : perform t m = r) :
    m.turn t = Machine.left r := congrArg Machine.left run

theorem not_crashes {t : Turn} {r : EStateM.Result Error Machine Unit} (run : perform t m = r)
    (fine : ∀ c m', r ≠ .error (.crash c) m') : ¬ m.Crashes t := by
  rintro ⟨c, m', crash⟩
  exact fine c m' (run.symm.trans crash)

theorem not_crashes_of_fail {t : Turn} {m' : Machine} {f : Fault} (run : perform t m = fail m' f) :
    ¬ m.Crashes t :=
  not_crashes run fun _ _ e => Error.noConfusion (EStateM.Result.error.inj e).1

theorem not_crashes_of_ok {t : Turn} {m' : Machine} (run : perform t m = .ok () m') : ¬ m.Crashes t :=
  not_crashes run fun _ _ e => nomatch e

theorem starves_step {n : Nat} {m' : Machine} (fine : m.control.failed = none) (more : m.control.result = none)
    (next : m.control.advance.2 = .ok i)
    (starves : Starves q w (Exec.cycle canceled i) m.counted n m' w') :
    ¬ m.Crashes (.step canceled) ∧ (m.turn (.step canceled)).OutOfMemory ∧
      (m.turn (.step canceled)).Alike q w' (m.turn (.step canceled)) ∧
      w.Keeps w' fun v => Commutes (pin v) (perform (.step canceled)) m := by
  have run : perform (.step canceled) m = fail m' ⟨.outOfMemory n, m.current.id, m.current.pc, some i.opcode⟩ :=
    (step_of_instr fine more next).trans (by rw [starves.run]; rfl)
  refine ⟨not_crashes_of_fail run, ?_, ?_, ?_⟩
  · rw [turn_of_run run]
    exact ⟨_, rfl, rfl⟩
  · rw [turn_of_run run]
    exact starves.alike.fail rfl
  · exact starves.keeps.imp fun v _ _ _ commutes => commutes_of_instr fine more next commutes

theorem Moves.idle {t₁ t₂ : Turn} {e₁ e₂ : Error} (alike : m₁.Alike q w m₂) (running : m₁.Running)
    (run₁ : perform t₁ m₁ = .error e₁ m₁) (run₂ : perform t₂ m₂ = .error e₂ m₂)
    (fine₁ : ∀ c, e₁ ≠ .crash c) (fine₂ : ∀ c, e₂ ≠ .crash c)
    (commutes₁ : ∀ v, Commutes (pin v) (perform t₁) m₁) (commutes₂ : ∀ v, Commutes (pin v) (perform t₂) m₂) :
    Moves q w t₁ t₂ m₁ m₂ := by
  refine .both w (not_crashes run₁ ?_) (not_crashes run₂ ?_) ?_ ?_ (.refl fun v => ?_)
  · rintro c m' e
    exact fine₁ c (EStateM.Result.error.inj e).1
  · rintro c m' e
    exact fine₂ c (EStateM.Result.error.inj e).1
  · rw [turn_of_run run₁, turn_of_run run₂]
    exact alike
  · rw [turn_of_run run₁]
    exact running
  · exact ⟨commutes₁ v, commutes₂ _⟩

/-- Faults of one kind in the current fibers are at the same place. -/
theorem Alike.site (alike : m₁.Alike q w m₂) {e₁ e₂ : Cause} (kind : e₂.kind = e₁.kind) (op : Option Opcode) :
    Fault.site ⟨e₂, m₂.current.id, m₂.current.pc, op⟩ = Fault.site ⟨e₁, m₁.current.id, m₁.current.pc, op⟩ := by
  unfold Fault.site Machine.current
  rw [alike.current]
  simp only [kind, Fiber.rename_id, Fiber.rename_pc]

theorem Paired.instr (p : Paired q w m₁ m₂) (safe : ¬ m₁.StoresCollectable)
    (quiet : q.quiet → ¬ m₁.PrintsReference) (failed₁ : m₁.control.failed = none) (more₁ : m₁.control.result = none)
    (next₁ : m₁.control.advance.2 = .ok i) (canceled : Bool) :
    Moves q w (.step canceled) (.step canceled) m₁ m₂ := by
  have alike := p.alike
  have failed₂ := alike.failed_none.2 failed₁
  have more₂ := alike.result_none.2 more₁
  have next₂ := alike.advance.trans next₁
  have running : m₁.counted.control.sched.current.state = .running := p.running failed₁ more₁
  have executes : m₁.Executes i := ⟨failed₁, more₁, next₁⟩
  have allows := executes.allows (alike.control.program ▸ alike.control.plain) safe quiet
  have pins : ∀ v, Commutes (pin v) (Exec.cycle canceled i) m₁.counted ∧
        Commutes (pin (w.image v)) (Exec.cycle canceled i) m₂.counted →
      Commutes (pin v) (perform (.step canceled)) m₁ ∧
        Commutes (pin (w.image v)) (perform (.step canceled)) m₂ := fun v commutes =>
    ⟨commutes_of_instr failed₁ more₁ next₁ commutes.1, commutes_of_instr failed₂ more₂ next₂ commutes.2⟩
  cases Sim.cycle alike.counted running p.settled allows with
  | left starves =>
    obtain ⟨fine, out, alike', keeps⟩ := starves_step failed₁ more₁ next₁ starves
    exact .left fine out alike' keeps
  | right starves =>
    obtain ⟨fine, out, alike', keeps⟩ := starves_step failed₂ more₂ next₂ starves
    exact .right fine out alike' keeps
  | @fault e₁ e₂ m₁' m₂' w' ends₁ ends₂ kind ends =>
    have run₁ : perform (.step canceled) m₁ = fail m₁' ⟨e₁, m₁.current.id, m₁.current.pc, some i.opcode⟩ :=
      (step_of_instr failed₁ more₁ next₁).trans (by rw [ends₁]; rfl)
    have run₂ : perform (.step canceled) m₂ = fail m₂' ⟨e₂, m₂.current.id, m₂.current.pc, some i.opcode⟩ :=
      (step_of_instr failed₂ more₂ next₂).trans (by rw [ends₂]; rfl)
    refine .both w' (not_crashes_of_fail run₁) (not_crashes_of_fail run₂) ?_ ?_
      (ends.keeps.imp fun v _ _ _ => pins v)
    · rw [turn_of_run run₁, turn_of_run run₂]
      exact ends.alike.fail (alike.site kind _)
    · rw [turn_of_run run₁]
      exact .of_failed rfl
  | @ok m₁' m₂' w' ends₁ ends₂ ends =>
    have running' := Exec.cycle_running alike.counted.left running p.settled allows ends₁
    have run₁ : perform (.step canceled) m₁ = .ok () m₁' :=
      (step_of_instr failed₁ more₁ next₁).trans (by rw [ends₁]; rfl)
    have run₂ : perform (.step canceled) m₂ = .ok () m₂' :=
      (step_of_instr failed₂ more₂ next₂).trans (by rw [ends₂]; rfl)
    refine .both w' (not_crashes_of_ok run₁) (not_crashes_of_ok run₂) ?_ ?_ (ends.keeps.imp fun v _ _ _ => pins v)
    · rw [turn_of_run run₁, turn_of_run run₂]
      exact ends.alike
    · rw [turn_of_run run₁]
      exact fun _ more => running' more

/-- Two machines that are alike make the same step, unless one of them is out of memory. -/
theorem Paired.step (p : Paired q w m₁ m₂) (safe : ¬ m₁.StoresCollectable) (quiet : q.quiet → ¬ m₁.PrintsReference)
    (canceled : Bool) : Moves q w (.step canceled) (.step canceled) m₁ m₂ := by
  have alike := p.alike
  cases failed₁ : m₁.control.failed with
  | some f₁ =>
    cases failed₂ : m₂.control.failed with
    | none =>
      rw [alike.failed_none.1 failed₂] at failed₁
      cases failed₁
    | some f₂ =>
      exact .idle alike p.running (step_of_failed failed₁) (step_of_failed failed₂) nofun nofun
        (fun _ => commutes_of_failed failed₁) fun _ => commutes_of_failed failed₂
  | none =>
    have failed₂ := alike.failed_none.2 failed₁
    by_cases ended : m₁.control.result.isSome = true
    · have ended₂ : m₂.control.result.isSome = true := by rwa [alike.control.result, Option.isSome_map]
      exact .idle alike p.running (step_of_halted failed₁ ended) (step_of_halted failed₂ ended₂) nofun nofun
        (fun _ => commutes_of_halted failed₁ ended) fun _ => commutes_of_halted failed₂ ended₂
    have more₁ : m₁.control.result = none := Option.not_isSome_iff_eq_none.1 ended
    have more₂ := alike.result_none.2 more₁
    cases next₁ : m₁.control.advance.2 with
    | ok i => exact p.instr safe quiet failed₁ more₁ next₁ canceled
    | error cause =>
      have next₂ := alike.advance.trans next₁
      have run₁ : perform (.step canceled) m₁ = fail _ _ := step_of_stuck failed₁ more₁ next₁
      have run₂ : perform (.step canceled) m₂ = fail _ _ := step_of_stuck failed₂ more₂ next₂
      refine .both w (not_crashes_of_fail run₁) (not_crashes_of_fail run₂) ?_ ?_ (.refl fun v => ?_)
      · rw [turn_of_run run₁, turn_of_run run₂]
        exact alike.counted.fail (alike.site rfl none)
      · rw [turn_of_run run₁]
        exact .of_failed rfl
      · exact ⟨commutes_of_stuck failed₁ more₁ next₁, commutes_of_stuck failed₂ more₂ next₂⟩

end Steps

section Collections

variable {q : Terms} {w w' : World} {m m₁ m₂ : Machine} {v : Addr}

/-- What a machine keeps alive. -/
abbrev held (m : Machine) : List Addr := m.control.roots ++ m.heap.pinned

theorem perform_collect {n : Nat} {h : Heap}
    (run : Heap.collect (m.control.visit m.heap.stats.collections) m.heap = .ok n h) :
    perform .collect m = .ok () { m with heap := h } := by
  simp only [perform, run]

/-- Where everything reachable can be traced, the order of the fibers makes no difference. -/
theorem collect_visit (sound : Heap.Sound m.heap) (traceable : Heap.Traceable m.heap.words m.held) :
    Heap.collect (m.control.visit m.heap.stats.collections) m.heap = Heap.collect m.control.roots m.heap :=
  Heap.collect_visit m.rootThunk _ sound.sized sound.unmarked traceable.traced

theorem turn_collect_control (m : Machine) : (m.turn .collect).control = m.control := by
  simp only [Machine.turn, Machine.perform]
  split <;> rfl

theorem Alike.knows_held (alike : m₁.Alike q w m₂) : ∀ x ∈ m₁.held, w.Knows x :=
  alike.shared.known

theorem Alike.map_held (alike : m₁.Alike q w m₂) : m₁.held.map w.image = m₂.held :=
  alike.shared.map_roots_self

/-- Collections keep machines alike, on either side. -/
theorem Alike.keep {h₁ h₂ : Heap} (alike : m₁.Alike q w m₂) (kept₁ : Kept m₁.held m₁.heap h₁)
    (kept₂ : Kept m₂.held m₂.heap h₂) :
    Alike q (w.keep m₁.heap.words m₁.held) { m₁ with heap := h₁ } { m₂ with heap := h₂ } := by
  rw [← alike.map_held] at kept₂
  refine ⟨alike.heap.keep alike.knows_held kept₁ kept₂, ?_, fun a mem => ?_, ?_⟩
  · rw [kept₁.pinned, kept₂.pinned]
    exact alike.pins
  · rw [kept₁.pinned] at mem
    obtain ⟨r, role⟩ := alike.pinned a mem
    exact ⟨r, role, .inr (.root (List.mem_append_right _ mem))⟩
  · refine alike.control.move (fun a mem r role => ⟨role, .inr (.root ?_)⟩) (fun _ _ => rfl) rfl
    exact List.mem_append_left _ mem

theorem Alike.collect (alike : m₁.Alike q w m₂) :
    ∃ h₁, perform .collect m₁ = .ok () { m₁ with heap := h₁ } ∧ Kept m₁.held m₁.heap h₁ := by
  have traceable := alike.heap.traceable₁ alike.knows_held
  obtain ⟨n, h₁, run, kept⟩ := Heap.collect_kept alike.heap.sound₁ traceable
  exact ⟨h₁, perform_collect ((collect_visit alike.heap.sound₁ traceable).trans run), kept⟩

theorem Alike.collect_commutes (alike : m₁.Alike q w m₂)
    (held : v < bottom ∨ Reaches m₁.heap.words m₁.held v) : Commutes (pin v) (perform .collect) m₁ := by
  have traceable := alike.heap.traceable₁ alike.knows_held
  have sound := alike.heap.sound₁
  have commutes := Heap.collect_pin sound traceable held
  have wider : ∀ x ∈ (m₁.pin v).held, x = v ∨ x ∈ m₁.held := by
    simp [Machine.held, Machine.pin, Heap.pin, or_left_comm]
  have visited := collect_visit (m := m₁.pin v) (sound.pin _)
    (Heap.traceable_insert traceable held wider)
  obtain ⟨n, h₁, run, -⟩ := Heap.collect_kept sound traceable
  unfold Commutes at *
  rw [run] at commutes
  rw [perform_collect ((collect_visit sound traceable).trans run), perform_collect (visited.trans commutes)]
  rfl

theorem Paired.collect (p : Paired q w m₁ m₂) : Moves q w .collect .collect m₁ m₂ := by
  obtain ⟨h₁, run₁, kept₁⟩ := p.alike.collect
  obtain ⟨h₂, run₂, kept₂⟩ := p.alike.right.collect
  refine .both (w.keep m₁.heap.words m₁.held) (not_crashes_of_ok run₁) (not_crashes_of_ok run₂) ?_ ?_ ?_
  · rw [turn_of_run run₁, turn_of_run run₂]
    exact p.alike.keep kept₁ kept₂
  · rw [turn_of_run run₁]
    exact p.running
  · refine (Mirror.keeps_keep w m₁.heap.words m₁.held).imp fun x _ known _ live => ?_
    refine ⟨p.alike.collect_commutes live, p.alike.right.collect_commutes ?_⟩
    rcases live with low | reach
    · exact .inl ((p.alike.heap.low x low).symm ▸ low)
    · rw [← p.alike.map_held]
      exact .inr (p.alike.heap.reaches p.alike.knows_held reach).2

theorem Paired.collectLeft (p : Paired q w m₁ m₂) : ∃ w', Paired q w' (m₁.turn .collect) m₂ := by
  obtain ⟨h₁, run₁, kept₁⟩ := p.alike.collect
  rw [turn_of_run run₁]
  have kept₂ := Kept.refl p.alike.heap.sound₂ m₂.held
  exact ⟨_, p.alike.keep kept₁ kept₂, p.settled, p.running⟩

theorem Paired.collectRight (p : Paired q w m₁ m₂) : ∃ w', Paired q w' m₁ (m₂.turn .collect) := by
  obtain ⟨h₂, run₂, kept₂⟩ := p.alike.right.collect
  rw [turn_of_run run₂]
  have kept₁ := Kept.refl p.alike.heap.sound₁ m₁.held
  exact ⟨_, p.alike.keep kept₁ kept₂, p.settled, p.running⟩

/-- After a turn nothing is recent any more. -/
theorem Alike.settle (alike : m₁.Alike q w m₂) (running : m₁.Running) :
    Paired q { w with recent := fun _ => False } m₁ m₂ := by
  refine ⟨⟨alike.heap.settle, alike.pins, alike.pinned, ?_⟩, fun _ => id, running⟩
  exact alike.control.move (fun _ _ _ role => role) (fun _ _ => rfl) rfl

/-- A turn of one machine. It does not crash, and what is known afterwards without being recent was not
freed in it. -/
theorem Paired.alone (p : Paired q w m m) (t : Turn) (safe : t ≠ .collect → ¬ m.StoresCollectable)
    (quiet : t ≠ .collect → q.quiet → ¬ m.PrintsReference) :
    ¬ m.Crashes t ∧ ∃ w', (m.turn t).Alike q w' (m.turn t) ∧ (m.turn t).Running ∧
      ∀ v, w'.Knows v → ¬ w'.recent v → Commutes (pin v) (perform t) m := by
  have moves : Moves q w t t m m := by
    cases t with
    | step canceled => exact p.step (safe nofun) (quiet nofun) canceled
    | collect => exact p.collect
  cases moves with
  | both w' fine _ alike running keeps =>
    exact ⟨fine, w', alike, running, fun v known old => (keeps v known old).2.2.2.1⟩
  | @left w' fine out alike keeps =>
    obtain ⟨f, failed, -⟩ := out
    exact ⟨fine, w', alike, .of_failed failed, fun v known old => (keeps v known old).2.2.2⟩
  | @right w' fine out alike keeps =>
    obtain ⟨f, failed, -⟩ := out
    exact ⟨fine, w', alike, .of_failed failed, fun v known old => (keeps v known old).2.2.2⟩

end Collections

end Machine

end FiberVm
