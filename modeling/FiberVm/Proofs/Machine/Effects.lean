import FiberVm.Proofs.Machine.CallReturn
import FiberVm.Proofs.Machine.Conduct
import FiberVm.Proofs.Machine.Visits

/-!
# A step touches what its instruction names

The fibers that are not current keep their registers, except that a send pushes its value for the one that it is
handed to. Of the nodes that are in reach afterwards only those that the allocator has taken during the step have
changed, and the variable, the channel and its wait queue, or the wait group that the instruction names.
-/

set_option autoImplicit false

namespace FiberVm

open Heap (Allots Closure Wired cell)

namespace Machine

section

variable {c : Code} {P : Int → Prop} {m m' : Machine} {i : Instr} {canceled : Bool} {scope : Addr → Nat → Prop}

/-- The scope of an instruction is the same before its step is counted. -/
theorem Scope.of_begun (inside : m.begun.Scope i scope) : m.Scope i scope := by
  cases inside with
  | nothing => exact .nothing
  | assigns run => exact .assigns run
  | sends operands p own => exact .sends operands p own
  | receives operands p own => exact .receives operands p own
  | calls callee =>
    cases i with
    | call arity => exact .calls (i := .call arity) callee
    | tailCall arity => exact .calls (i := .tailCall arity) callee
    | _ => cases callee

/-- An instruction that does not fail does what its label says, and nothing outside its scope. -/
theorem Sturdy.conducted (sturdy : m.Sturdy c P) (running : m.Running) (leads : c.Leads P) (wired : Wired m.heap.words)
    (next : m.Executes i) {m₁ : Machine} (run : Exec.instr i m.begun = .ok () m₁) : m.begun.Conducts i m₁ := by
  have treads := (sturdy.treads running leads next).yields
  rw [run] at treads
  exact (sturdy.begun leads next).conducts (running next.1 next.2.1) wired treads run

end

/-- What a step that gives no error does to the fibers that are not current and to the nodes. -/
structure Spared (m : Machine) (t : Turn) (m' : Machine) : Prop where
  fibers : ∀ f ∈ m.fibers, f.id ≠ m.current.id → ∃ g ∈ m'.fibers, m.Retains t f g
  nodes : ∃ i scope new, m.Executes i ∧ m.Scope i scope ∧ Allots new m.heap m'.heap ∧
    ∀ a, Closure m'.heap.words m'.held a → a ∉ new → ∀ k < Heap.nodeSize, ¬ scope a k →
      cell m'.heap.words a k = cell m.heap.words a k

theorem Steady.spared {code : Code} {m m' : Machine} {canceled : Bool} (steady : m.Steady code) (sturdy : m.Sturdy code fun _ => True)
    (running : m.Running) (ok : perform (.step canceled) m = .ok () m') : m.Spared (.step canceled) m' := by
  have leads := code.leads_anywhere
  have turn : m.turn (.step canceled) = m' := turn_of_run ok
  have course := sturdy.course running leads (.step canceled) (steady.not_crashes _)
  obtain ⟨w, after⟩ := (steady.turn (.step canceled)).paired
  rw [turn] at course after
  obtain ⟨i, next⟩ := executes_of_step ok
  cases course with
  | rests _ _ _ none => exact absurd next (none canceled i rfl)
  | fails _ _ failed => cases ok.symm.trans failed
  | @goes _ i m₁ _ next run passes goes =>
    obtain ⟨⟨l, deed, fits, -⟩, scope, new, inside, confined⟩ :=
      sturdy.conducted running leads steady.wired next run
    have deed : m.Deed l m₁ := ⟨deed.heap, deed.sched.of_undisturbed m.begun_undisturbed⟩
    have orderly := steady.ordered.deed_orderly next.1 (running next.1 next.2.1) deed
    have continues := goes.keeps_fibers orderly.cons
    refine ⟨fun f mem foreign => ?_, i, scope, new, next, inside.of_begun, ?_, fun a reach old k lt out => ?_⟩
    · have other := Scheduler.mem_others_of_ne mem foreign
      exact deed.retains (m.executed_of_executes canceled next run) fits continues other foreign
    · exact goes.heap ▸ confined.allots
    · obtain ⟨node, used⟩ := after.alike.wellTyped.used a reach
      rw [goes.heap] at node used ⊢
      have before : Heap.NodeIn m.heap.words a := by rwa [Heap.NodeIn, confined.size] at node
      exact confined.same a before old used k lt out

/-- In every state that a decoded program reaches by steps and collections, if it assigns nothing to the outermost
frame, a step that gives no error spares whatever its instruction does not name. -/
theorem steps_spare {p : Program Datum} {is : List Instr} (decoded : p.instrs = .ok is)
    (inner : ∀ pos sym, Instr.assign pos sym ∈ is → pos.frame ≠ 0) {size : Int} {options : Options} {clock : Clock}
    {sink : Sink} {order : Enumeration} {m m' : Machine}
    (made : Machine.create size (Code.ofInstrs is) options clock sink order = .ok m) (ts : List Turn) {canceled : Bool}
    (ok : perform (.step canceled) (m.play ts) = .ok () m') : (m.play ts).Spared (.step canceled) m' := by
  have steady := create_steady decoded inner made
  obtain ⟨sturdy, running⟩ := create_sturdy (Code.ofInstrs is).leads_anywhere made
  obtain ⟨sturdy, running⟩ := sturdy.play running (Code.ofInstrs is).leads_anywhere (fun _ _ sound => sound)
    (steady.sound ts)
  exact (steady.play ts).spared sturdy running ok

/-- The sixth step of the relay is a send. -/
theorem steps_spare_relay : ∃ m m', Machine.create 336 (Code.ofInstrs Program.relayInstrs) {} = .ok m ∧
    (m.play (List.replicate 5 (.step false))).current.pc = 5 ∧
    perform (.step false) (m.play (List.replicate 5 (.step false))) = .ok () m' ∧
    (m.play (List.replicate 5 (.step false))).Spared (.step false) m' := by
  obtain ⟨m, made, pc, makes⟩ : ∃ m, Machine.create 336 (Code.ofInstrs Program.relayInstrs) {} = .ok m ∧
      (m.play (List.replicate 5 (.step false))).current.pc = 5 ∧
      (m.play (List.replicate 5 (.step false))).makes false 1 := ⟨_, Machine.create_listed rfl, by decide +kernel⟩
  obtain ⟨m', ok, -⟩ := ok_of_makes makes
  exact ⟨m, m', made, pc, ok, steps_spare (p := Program.relay) rfl Program.relay_inner made _ ok⟩

end Machine

end FiberVm
